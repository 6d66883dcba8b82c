/-
The run queue represents a list.

`RunQ s l` says that the threads linked from `sched_head` through `next` are the
list `l`, ending at `sched_tail`; the links of threads outside the queue are
whatever earlier stays left behind.

* `schedulePush_eq`, `makeReady_eq` — the state after a push, field by field;
* `RunQ.push`, `RunQ.pushAny`, `RunQ.makeReady` — `schedule_push` appends;
* `findPrev_of_mem`, `findPrev_of_notMem` — the search loop ends, with the
  thread before the wanted one or without a result;
* `RunQ.remv`, `RunQ.remv_of_notMem` — `schedule_remv` deletes a member and
  returns 0, and changes nothing and returns 1 otherwise;
* `run_queue_list` — the three functions on a queue are those on a list.
-/
import Pinion.Interrupt
import Pinion.LinkedQueue

open LinkedQueue

namespace Pinion

/-- The run queue holds the list `l`. -/
def RunQ (s : Sched) (l : List Ptr) : Prop :=
  Rep (fun p => (s.tcb p).next) s.schedHead s.schedTail l

/-- The state with another run queue: new `next` links and new ends. -/
def Sched.withRun (s : Sched) (next : Ptr → Option Ptr) (head tail : Option Ptr) : Sched :=
  { s with
    tcb := fun p => { s.tcb p with next := next p }
    schedHead := head
    schedTail := tail }

/-- The `next` links after `schedule_push`. -/
def pushNext (s : Sched) (t p : Ptr) : Option Ptr :=
  if p = t then none else if s.schedTail = some p then some t else (s.tcb p).next

theorem schedulePush_eq (s : Sched) (t : Ptr) :
    schedulePush s t =
      s.withRun (pushNext s t) (if s.schedTail = none then some t else s.schedHead) (some t) := by
  unfold schedulePush Sched.upd Sched.withRun
  cases hs : s.schedTail with
  | none =>
    simp only [Sched.mk.injEq, if_true, and_self, and_true]
    funext p
    by_cases hp : p = t
    · subst hp; simp [pushNext]
    · simp [hp, pushNext, hs]
  | some b =>
    simp only [reduceCtorEq, if_false, Sched.mk.injEq, and_self, and_true]
    funext p
    by_cases hp : p = t
    · subst hp
      by_cases hb : p = b
      · subst hb; simp [pushNext]
      · simp [hb, pushNext]
    · by_cases hb : p = b
      · subst hb; simp [hp, pushNext, hs]
      · simp [hp, hb, Ne.symm hb, pushNext, hs]

/-- The scheduler after `schedule_push` and `state = TS_QUEUED`. -/
theorem makeReady_eq (s : Sched) (t : Ptr) :
    makeReady s t =
      { s with
        tcb := fun p =>
          { s.tcb p with
            next := pushNext s t p
            state := if p = t then .queued else (s.tcb p).state }
        schedHead := if s.schedTail = none then some t else s.schedHead
        schedTail := some t } := by
  rw [makeReady, schedulePush_eq]
  simp only [Sched.setState, Sched.upd, Sched.withRun, Sched.mk.injEq, and_self, and_true]
  funext p
  by_cases hp : p = t
  · subst hp; simp
  · simp [hp]

/-- Only the `next` links and the two ends matter. -/
theorem RunQ.congr {s k : Sched} {l : List Ptr} (h : RunQ s l)
    (hn : ∀ p ∈ l, (k.tcb p).next = (s.tcb p).next) (hh : k.schedHead = s.schedHead)
    (ht : k.schedTail = s.schedTail) : RunQ k l := by
  rw [RunQ, hh, ht]
  exact Rep.congr h hn

/-- `schedule_push` of a thread outside the queue appends it. -/
theorem RunQ.push {s : Sched} {l : List Ptr} {t : Ptr} (h : RunQ s l) (ht : t ∉ l) :
    RunQ (schedulePush s t) (l ++ [t]) := by
  rw [RunQ, schedulePush_eq]
  exact Rep.push h ht fun c => rfl

/-- `schedule_push` of any thread: one that is queued already loses those behind
it. -/
theorem RunQ.pushAny {s : Sched} {l : List Ptr} (h : RunQ s l) (t : Ptr) :
    RunQ (schedulePush s t) (l.takeWhile (· ≠ t) ++ [t]) := by
  rw [RunQ, schedulePush_eq]
  exact Rep.pushAny h fun c => rfl

theorem RunQ.makeReadyAny {s : Sched} {l : List Ptr} (h : RunQ s l) (t : Ptr) :
    RunQ (makeReady s t) (l.takeWhile (· ≠ t) ++ [t]) := by
  rw [RunQ, makeReady_eq]
  exact Rep.pushAny h fun c => rfl

theorem RunQ.makeReady {s : Sched} {l : List Ptr} {t : Ptr} (h : RunQ s l) (ht : t ∉ l) :
    RunQ (makeReady s t) (l ++ [t]) := by
  rw [RunQ, makeReady_eq]
  exact Rep.push h ht fun c => rfl

/-! ### The search loop -/

/-- The loop finds the thread before a member other than the first. -/
theorem findPrev_of_mem {next : Ptr → Option Ptr} {p t : Ptr} {l₁ l₂ : List Ptr} {a : Ptr} :
    ∀ {n : ℕ}, (a :: l₁ ++ [t]).length ≤ n + 1 → (a :: l₁).getLast? = some p → t ∉ l₁ →
      (a :: l₁ ++ t :: l₂).IsChain (fun x y => next x = some y) →
      findPrev next t n a = .ok (some p) := by
  induction l₁ generalizing a with
  | nil =>
    intro n hn hp _ hc
    have hap : a = p := by simpa using hp
    have hnext : next a = some t := (List.isChain_cons_cons.mp hc).1
    obtain ⟨n, rfl⟩ : ∃ m, n = m + 1 := ⟨n - 1, by simp at hn; omega⟩
    rw [findPrev, hnext]
    simp [hap]
  | cons b l₁ ih =>
    intro n hn hp ht hc
    have hbt : b ≠ t := fun h => ht (by simp [h])
    have hnext : next a = some b := (List.isChain_cons_cons.mp hc).1
    obtain ⟨n, rfl⟩ : ∃ m, n = m + 1 := ⟨n - 1, by simp at hn; omega⟩
    rw [findPrev, hnext]
    simp only [hbt, if_false]
    refine ih (by simp at hn ⊢; omega) ?_ (fun h => ht (List.mem_cons_of_mem b h))
      (List.isChain_cons_cons.mp hc).2
    rwa [List.getLast?_cons_cons] at hp

/-- The loop ends without a result when the thread is not behind the start. -/
theorem findPrev_of_notMem {next : Ptr → Option Ptr} {first last : Option Ptr} {t a : Ptr}
    {l : List Ptr} : ∀ {n : ℕ}, (a :: l).length ≤ n → t ∉ l → Rep next first last (a :: l) →
      findPrev next t n a = .ok none := by
  induction l generalizing a first last with
  | nil =>
    intro n hn _ hr
    obtain ⟨n, rfl⟩ : ∃ m, n = m + 1 := ⟨n - 1, by simp at hn; omega⟩
    rw [findPrev, hr.next_first]
    rfl
  | cons b l ih =>
    intro n hn ht hr
    have hbt : b ≠ t := fun h => ht (by simp [h])
    obtain ⟨n, rfl⟩ : ∃ m, n = m + 1 := ⟨n - 1, by simp at hn; omega⟩
    rw [findPrev, hr.next_first]
    simp only [List.head?_cons, hbt, if_false]
    exact ih (by simp at hn ⊢; omega) (fun h => ht (List.mem_cons_of_mem b h)) hr.pop

theorem nodup_length_le {l : List Ptr} (h : l.Nodup) : l.length ≤ addressSpace := by
  have hmap : (l.map BitVec.toFin).Nodup := h.map fun a b hab => BitVec.eq_of_toFin_eq hab
  have hcard := hmap.length_le_card
  simpa [addressSpace] using hcard

/-! ### Removal -/

/-- The `next` links, as a function of the thread. -/
def Sched.next (s : Sched) (p : Ptr) : Option Ptr := (s.tcb p).next

theorem scheduleRemv_head {s : Sched} {t : Ptr} (h : s.schedHead = some t) :
    scheduleRemv s t =
      .ok (0, s.withRun s.next (s.next t) (if s.next t = none then none else s.schedTail)) := by
  simp only [scheduleRemv, h, if_true]
  by_cases hn : (s.tcb t).next = none
  · rw [if_pos hn, if_pos (show s.next t = none from hn)]
    rfl
  · rw [if_neg hn, if_neg (show ¬s.next t = none from hn)]
    rfl

theorem scheduleRemv_found {s : Sched} {t head t1 : Ptr} (h : s.schedHead = some head)
    (hne : t ≠ head) (hf : findPrev s.next t addressSpace head = .ok (some t1)) :
    scheduleRemv s t =
      .ok (0, s.withRun (Function.update s.next t1 (s.next t)) (some head)
        (if s.schedTail = some t then some t1 else s.schedTail)) := by
  have htcb : Function.update s.tcb t1 { s.tcb t1 with next := (s.tcb t).next } =
      fun p => { s.tcb p with next := Function.update s.next t1 (s.next t) p } := by
    funext p
    by_cases hp : p = t1
    · subst hp; simp [Sched.next]
    · simp [hp, Sched.next]
  have hf' : findPrev (fun t => (s.tcb t).next) t addressSpace head = .ok (some t1) := hf
  simp only [scheduleRemv, h, hne, if_false, hf', bind, Except.bind, pure, Except.pure, Sched.upd,
    Sched.withRun, htcb]
  split <;> rfl

theorem scheduleRemv_notFound {s : Sched} {t head : Ptr} (h : s.schedHead = some head)
    (hne : t ≠ head) (hf : findPrev s.next t addressSpace head = .ok none) :
    scheduleRemv s t = .ok (1, s) := by
  have hf' : findPrev (fun t => (s.tcb t).next) t addressSpace head = .ok none := hf
  simp only [scheduleRemv, h, hne, if_false, hf', bind, Except.bind, pure, Except.pure]

/-- Whatever the queue looks like, `schedule_remv` only touches the run queue. -/
theorem scheduleRemv_withRun {s k : Sched} {t : Ptr} {r : ℤ}
    (h : scheduleRemv s t = .ok (r, k)) : ∃ n hd tl, k = s.withRun n hd tl := by
  cases hh : s.schedHead with
  | none =>
    simp only [scheduleRemv, hh, Except.ok.injEq, Prod.mk.injEq] at h
    exact ⟨s.next, s.schedHead, s.schedTail, h.2.symm⟩
  | some head =>
    by_cases hth : t = head
    · subst hth
      rw [scheduleRemv_head hh] at h
      simp only [Except.ok.injEq, Prod.mk.injEq] at h
      exact ⟨_, _, _, h.2.symm⟩
    · cases hf : findPrev s.next t addressSpace head with
      | error e =>
        have hf' : findPrev (fun t => (s.tcb t).next) t addressSpace head = .error e := hf
        simp [scheduleRemv, hh, hth, hf', bind, Except.bind] at h
      | ok o =>
        cases o with
        | none =>
          rw [scheduleRemv_notFound hh hth hf] at h
          simp only [Except.ok.injEq, Prod.mk.injEq] at h
          exact ⟨s.next, s.schedHead, s.schedTail, h.2.symm⟩
        | some t1 =>
          rw [scheduleRemv_found hh hth hf] at h
          simp only [Except.ok.injEq, Prod.mk.injEq] at h
          exact ⟨_, _, _, h.2.symm⟩

/-- `schedule_remv` of a member returns 0 and deletes it. -/
theorem RunQ.remv {s : Sched} {l : List Ptr} {t : Ptr} (h : RunQ s l) (ht : t ∈ l) :
    ∃ k, scheduleRemv s t = .ok (0, k) ∧ RunQ k (l.erase t) := by
  obtain ⟨head, l', rfl⟩ := List.exists_cons_of_ne_nil (List.ne_nil_of_mem ht)
  have hh : s.schedHead = some head := h.first_eq
  by_cases hth : t = head
  · subst hth
    refine ⟨_, scheduleRemv_head hh, ?_⟩
    rw [List.erase_cons_head]
    exact Rep.pop h
  · obtain ⟨l₁, l₂, hl'⟩ := List.append_of_mem (List.mem_of_ne_of_mem hth ht)
    subst hl'
    have hnd : (head :: (l₁ ++ t :: l₂)).Nodup := h.nodup
    have ht₁ : t ∉ l₁ := by grind
    obtain ⟨m, p, hmp⟩ := (List.eq_nil_or_concat (head :: l₁)).resolve_left (by simp)
    rw [List.concat_eq_append] at hmp
    have hlast : (head :: l₁).getLast? = some p := by rw [hmp]; simp
    have hbound : (head :: l₁ ++ [t]).length ≤ addressSpace + 1 := by
      have hlen := nodup_length_le hnd
      simp only [List.length_cons, List.length_append, List.length_nil] at hlen ⊢
      omega
    have hsplit : head :: (l₁ ++ t :: l₂) = m ++ p :: t :: l₂ := by
      rw [← List.cons_append, hmp]; simp
    have herase : (head :: (l₁ ++ t :: l₂)).erase t = m ++ p :: l₂ := by
      have hne : t ∉ head :: l₁ := by simp [hth, ht₁]
      rw [← List.cons_append, List.erase_append_right _ hne, List.erase_cons_head, hmp]
      simp
    refine ⟨_, scheduleRemv_found hh hth (findPrev_of_mem hbound hlast ht₁ h.links), ?_⟩
    rw [herase]
    rw [RunQ, hsplit] at h
    have hrem := h.removeAfter (fun c => (rfl : (if c = p then s.next t else s.next c) = _))
    rw [RunQ]
    have hupd : (fun c => if c = p then s.next t else s.next c) =
        Function.update s.next p (s.next t) := by
      funext c
      rw [Function.update_apply]
    rw [hh, hupd] at hrem
    exact hrem

/-- `schedule_remv` of a thread outside the queue returns 1 and changes nothing. -/
theorem RunQ.remv_of_notMem {s : Sched} {l : List Ptr} {t : Ptr} (h : RunQ s l) (ht : t ∉ l) :
    scheduleRemv s t = .ok (1, s) := by
  cases l with
  | nil =>
    have hh : s.schedHead = none := h.first_eq
    simp only [scheduleRemv, hh]
  | cons head l =>
    have hh : s.schedHead = some head := h.first_eq
    have hth : t ≠ head := fun h => ht (by simp [h])
    refine scheduleRemv_notFound hh hth ?_
    exact findPrev_of_notMem (nodup_length_le h.nodup) (fun h => ht (List.mem_cons_of_mem _ h)) h

/-! ### The queue as a list -/

/-- The queue is empty at both ends or at neither. -/
theorem RunQ.ends_iff {s : Sched} {l : List Ptr} (h : RunQ s l) :
    s.schedTail = none ↔ s.schedHead = none := by
  constructor
  · intro htail
    have hrep : Rep (fun p => (s.tcb p).next) s.schedHead none l := htail ▸ h
    rw [h.first_eq, hrep.eq_nil_of_last]
    rfl
  · intro hhead
    have hrep : Rep (fun p => (s.tcb p).next) none s.schedTail l := hhead ▸ h
    rw [h.last_eq, hrep.eq_nil]
    rfl

/-- **The run queue is a list**: `schedule_push` appends, `schedule_remv` deletes a member
wherever it stands and rejects another thread, and `schedule_next` reads the first one. -/
theorem run_queue_list {s : Sched} {l : List Ptr} (h : RunQ s l) :
    (∀ t, t ∉ l → RunQ (schedulePush s t) (l ++ [t])) ∧
    (∀ l₁ t l₂, l = l₁ ++ t :: l₂ → ∃ k, scheduleRemv s t = .ok (0, k) ∧ RunQ k (l₁ ++ l₂)) ∧
    (∀ t, t ∉ l → scheduleRemv s t = .ok (1, s)) ∧
    scheduleNext s = l.head? ∧ (s.schedTail = none ↔ s.schedHead = none) := by
  refine ⟨fun t ht => h.push ht, fun l₁ t l₂ hl => ?_, fun t ht => h.remv_of_notMem ht,
    h.first_eq, h.ends_iff⟩
  subst hl
  obtain ⟨k, hk, hrep⟩ := h.remv (t := t) (by simp)
  have hnodup := List.nodup_append.mp h.nodup
  have ht : t ∉ l₁ := fun hmem => hnodup.2.2 t hmem t List.mem_cons_self rfl
  rw [List.erase_append_right _ ht, List.erase_cons_head] at hrep
  exact ⟨k, hk, hrep⟩

/-- Two threads are pushed, and the last one is removed. -/
theorem run_queue_list_pair :
    ∃ k, scheduleRemv (schedulePush (schedulePush (Kernel.bss flatMem).toSched 0xF1000000)
      0xF1000100) 0xF1000100 = .ok (0, k) ∧ RunQ k [0xF1000000] := by
  have hnil : RunQ (Kernel.bss flatMem).toSched [] := Rep.empty _
  have hone : RunQ (schedulePush (Kernel.bss flatMem).toSched 0xF1000000) [0xF1000000] :=
    hnil.push (by simp)
  have htwo := hone.push (t := 0xF1000100) (by decide)
  exact (run_queue_list htwo).2.1 [0xF1000000] 0xF1000100 [] rfl

end Pinion
