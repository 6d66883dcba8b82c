/-
The queues of the scheduler as lists, and the operations on them.

`Links k q` says that the run queue, the event queues and the two wait queues of
`GETDEAD` and `GETFAULT` hold the lists of `q`, each ending with a null link.
The dead and fault queues are not part of it: they share their links with the
wait queues, but only when those are empty.

* `rdvInsert_eq` — the scheduler after an insertion, field by field;
* `Links.congr` — operations that write no link;
* `Links.makeReady`, `Links.evPush`, `Links.evPop`, `Links.remv`,
  `Links.popWaiter`, `Links.insertWaiter`, `Links.insertItem`, `Links.spawned` —
  one lemma per operation on a queue.
-/
import Pinion.Handlers

open LinkedQueue Runs

namespace Pinion

/-- The lists the queues hold: the run queue, the waiters of each event, and the
threads blocked on each side. -/
structure Lists where
  run : List Ptr
  ev : ℕ → List Ptr
  waiters : Side → List Ptr

/-- A queue of the kernel holds `l` and ends with a null link. -/
def StrictQ (k : Sched) (q : Rdv) (l : List Ptr) : Prop :=
  Rep (fun p => q.link (k.tcb p)) (k.ends q).tail (k.ends q).head l

structure Links (k : Sched) (q : Lists) : Prop where
  run : RunQ k q.run
  ev : EvReps k q.ev
  waiters : ∀ v : Side, StrictQ k v.waiters (q.waiters v)

theorem StrictQ.congr {k k' : Sched} {q : Rdv} {l : List Ptr} (h : StrictQ k q l)
    (hl : ∀ p ∈ l, q.link (k'.tcb p) = q.link (k.tcb p)) (he : k'.ends q = k.ends q) :
    StrictQ k' q l := by
  rw [StrictQ, he]
  exact Rep.congr h hl

/-- No link and no end of a queue differs. -/
structure SameLinks (k k' : Sched) : Prop where
  next : ∀ p, (k'.tcb p).next = (k.tcb p).next
  nextEvqueue : ∀ p, (k'.tcb p).nextEvqueue = (k.tcb p).nextEvqueue
  link : ∀ (q : Rdv) (p : Ptr), q.link (k'.tcb p) = q.link (k.tcb p)
  head : k'.schedHead = k.schedHead
  tail : k'.schedTail = k.schedTail
  evqueue : k'.evqueue = k.evqueue
  ends : k'.ends = k.ends

theorem Links.congr {k k' : Sched} {q : Lists} (h : Links k q) (hs : SameLinks k k') :
    Links k' q := by
  refine ⟨h.run.congr (fun p _ => hs.next p) hs.head hs.tail,
    h.ev.congr hs.nextEvqueue hs.evqueue, ?_⟩
  intro v
  exact (h.waiters v).congr (fun p _ => hs.link v.waiters p) (congrFun hs.ends _)

theorem SameLinks.upd {k : Sched} {t : Ptr} {f : Tcb → Tcb} (hn : ∀ b, (f b).next = b.next)
    (he : ∀ b, (f b).nextEvqueue = b.nextEvqueue) (hl : ∀ (q : Rdv) b, q.link (f b) = q.link b) :
    SameLinks k (k.upd t f) := by
  have hcases : ∀ p, (k.upd t f).tcb p = if p = t then f (k.tcb p) else k.tcb p := by
    intro p
    by_cases hp : p = t
    · subst hp; simp [Sched.upd]
    · simp [Sched.upd, hp]
  refine ⟨?_, ?_, ?_, rfl, rfl, rfl, rfl⟩
  · intro p
    rw [hcases]
    split
    · exact hn _
    · rfl
  · intro p
    rw [hcases]
    split
    · exact he _
    · rfl
  · intro q p
    rw [hcases]
    split
    · exact hl q _
    · rfl

theorem SameLinks.setState (k : Sched) (t : Ptr) (st : TState) : SameLinks k (k.setState t st) :=
  SameLinks.upd (fun _ => rfl) (fun _ => rfl) fun q _ => by cases q <;> rfl

theorem SameLinks.release (k : Sched) : SameLinks k k.release :=
  ⟨fun _ => rfl, fun _ => rfl, fun _ _ => rfl, rfl, rfl, rfl, rfl⟩

/-! ### The run queue -/

theorem Links.makeReady {k : Sched} {q : Lists} {t : Ptr} (h : Links k q) (ht : t ∉ q.run) :
    Links (makeReady k t) { q with run := q.run ++ [t] } := by
  refine ⟨h.run.makeReady ht, ?_, ?_⟩
  · refine h.ev.congr (fun p => ?_) ?_ <;> rw [makeReady_eq]
  · intro v
    refine (h.waiters v).congr (fun p _ => ?_) ?_ <;> rw [makeReady_eq]
    cases v <;> rfl

/-- Taking a thread off the run queue, if it is there. -/
theorem Links.remv {k k' : Sched} {q : Lists} {t : Ptr} {r : ℤ} (h : Links k q)
    (hr : scheduleRemv k t = .ok (r, k')) : Links k' { q with run := q.run.erase t } := by
  obtain ⟨n, hd, tl, hk⟩ := scheduleRemv_withRun hr
  have hrun : RunQ k' (q.run.erase t) := by
    by_cases ht : t ∈ q.run
    · obtain ⟨k₁, h₁, hrun⟩ := h.run.remv ht
      rw [hr, Except.ok.injEq, Prod.mk.injEq] at h₁
      rw [h₁.2]
      exact hrun
    · rw [h.run.remv_of_notMem ht, Except.ok.injEq, Prod.mk.injEq] at hr
      rw [← hr.2, List.erase_of_not_mem ht]
      exact h.run
  refine ⟨hrun, h.ev.congr (fun p => ?_) ?_, ?_⟩
  · rw [hk, Sched.withRun]
  · rw [hk, Sched.withRun]
  · intro v
    refine (h.waiters v).congr (fun p _ => ?_) ?_ <;> rw [hk, Sched.withRun]
    cases v <;> rfl

/-! ### The event queues -/

theorem Links.evPush {k : Sched} {q : Lists} {t : Ptr} (h : Links k q) (e : ℕ)
    (ht : ∀ e', t ∉ q.ev e') :
    Links (evqueuePush k e t) { q with ev := Function.update q.ev e (q.ev e ++ [t]) } := by
  refine ⟨?_, h.ev.push e ht, ?_⟩
  · refine h.run.congr (fun p _ => ?_) ?_ ?_ <;> rw [evqueuePush_eq]
  · intro v
    refine (h.waiters v).congr (fun p _ => ?_) ?_ <;> rw [evqueuePush_eq]
    cases v <;> rfl

theorem Links.evPop {k : Sched} {q : Lists} {t : Ptr} {e : ℕ} {l : List Ptr} (h : Links k q)
    (hq : q.ev e = t :: l) :
    Links (evqueuePop k e t) { q with ev := Function.update q.ev e l } :=
  ⟨h.run, h.ev.pop hq, h.waiters⟩

/-- A wake-up moves the front waiter to the run queue. -/
theorem Links.wake {k : Sched} {q : Lists} {t : Ptr} {e : ℕ} {l : List Ptr} (h : Links k q)
    (hq : q.ev e = t :: l) (ht : t ∉ q.run) :
    Links (k.wake e) { q with run := q.run ++ [t], ev := Function.update q.ev e l } := by
  have hf : (k.evqueue e).frontThread = some t := by
    rw [(h.ev.rep e).first_eq, hq]
    rfl
  rw [Sched.wake, hf]
  refine Links.makeReady (q := { q with ev := Function.update q.ev e l }) ?_ ht
  have hevent : SameLinks (evqueuePop k e t)
      ((evqueuePop k e t).upd t fun b => { b with event := -1 }) :=
    SameLinks.upd (fun _ => rfl) (fun _ => rfl) fun q _ => by cases q <;> rfl
  refine ((h.evPop hq).congr hevent).congr ?_
  exact ⟨fun _ => rfl, fun _ => rfl, fun _ _ => rfl, rfl, rfl, rfl, rfl⟩

theorem Links.wake_nil {k : Sched} {q : Lists} {e : ℕ} (h : Links k q) (hq : q.ev e = []) :
    k.wake e = k := by
  have hf : (k.evqueue e).frontThread = none := by
    rw [(h.ev.rep e).first_eq, hq]
    rfl
  rw [Sched.wake, hf]

/-! ### The wait queues -/

/-- The links of a queue after an insertion. -/
def insertLink (q : Rdv) (k : Sched) (t p : Ptr) : Option Ptr :=
  if (k.ends q).head = none then q.link (k.tcb p)
  else if p = t then none
  else if (k.ends q).head = some p then some t
  else q.link (k.tcb p)

theorem Rdv.setLink_link (q : Rdv) (b : Tcb) : q.setLink (q.link b) b = b := by
  cases q <;> rfl

theorem rdvInsert_eq (q : Rdv) (k : Sched) (t : Ptr) :
    rdvInsert q k t =
      { k with
        tcb := fun p => q.setLink (insertLink q k t p) (k.tcb p)
        ends := Function.update k.ends q
          ⟨if (k.ends q).head = none then some t else (k.ends q).tail, some t⟩ } := by
  unfold rdvInsert
  cases hh : (k.ends q).head with
  | none =>
    simp only [Sched.setEnds, insertLink, hh, if_true, Rdv.setLink_link]
  | some b =>
    simp only [Sched.setEnds, Sched.upd, insertLink, hh, reduceCtorEq, if_false, Sched.mk.injEq,
      and_self, and_true, Option.some.injEq]
    funext p
    by_cases hp : p = t
    · subst hp
      by_cases hb : p = b
      · subst hb
        cases q <;> simp [Rdv.setLink]
      · simp [hb]
    · by_cases hb : p = b
      · subst hb
        simp [hp]
      · simp [hp, hb, Ne.symm hb, Rdv.setLink_link]

/-- The links of the other side are another field. -/
theorem Side.link_setLink_ne {v v' : Side} (hv : v ≠ v') {q q' : Rdv}
    (hq : q = v.items ∨ q = v.waiters) (hq' : q' = v'.items ∨ q' = v'.waiters)
    (n : Option Ptr) (b : Tcb) : q'.link (q.setLink n b) = q'.link b := by
  rcases hq with rfl | rfl <;> rcases hq' with rfl | rfl <;> cases v <;> cases v' <;>
    first | rfl | exact absurd rfl hv

theorem Side.ends_ne {v v' : Side} (hv : v ≠ v') : v.waiters ≠ v'.waiters := by
  cases v <;> cases v' <;> first | decide | exact absurd rfl hv

theorem Side.items_ne (v v' : Side) : v.items ≠ v'.waiters := by
  cases v <;> cases v' <;> decide

theorem Links.popWaiter {k : Sched} {q : Lists} {v : Side} {w : Ptr} {ws : List Ptr}
    (h : Links k q) (hq : q.waiters v = w :: ws) :
    Links (rdvAdvance v.waiters k (v.waiters.link (k.tcb w)))
      { q with waiters := Function.update q.waiters v ws } := by
  refine ⟨h.run, h.ev.congr (fun _ => rfl) rfl, ?_⟩
  intro v'
  by_cases hv : v' = v
  · subst hv
    have hrep := h.waiters v'
    rw [StrictQ, hq] at hrep
    simp only [StrictQ, rdvAdvance, Sched.setEnds, Function.update_self]
    exact hrep.pop
  · simp only [Function.update_of_ne hv]
    refine (h.waiters v').congr (fun _ _ => rfl) ?_
    simp [rdvAdvance, Sched.setEnds, Side.ends_ne hv]

/-- A thread blocks at the end of a wait queue; it enters an empty one with a
null link. -/
theorem Links.insertWaiter {k : Sched} {q : Lists} {v : Side} {t : Ptr} (h : Links k q)
    (ht : t ∉ q.waiters v) (hl : (k.ends v.waiters).tail = none → v.waiters.link (k.tcb t) = none) :
    Links (rdvInsert v.waiters k t)
      { q with waiters := Function.update q.waiters v (q.waiters v ++ [t]) } := by
  rw [rdvInsert_eq]
  refine ⟨?_, ?_, ?_⟩
  · exact h.run.congr (fun p _ => v.waiters.setLink_next _ _) rfl rfl
  · refine h.ev.congr (fun p => ?_) rfl
    cases v <;> rfl
  · intro v'
    by_cases hv : v' = v
    · subst hv
      simp only [StrictQ, Function.update_self, Rdv.link_setLink]
      have hrep := h.waiters v'
      cases hh : (k.ends v'.waiters).head with
      | none =>
        -- the queue is empty, and no link is written
        rw [StrictQ, hh] at hrep
        have hnil := hrep.toLoose.eq_nil_of_last
        have htail : (k.ends v'.waiters).tail = none := by
          rw [hrep.first_eq, hnil]
          rfl
        rw [hnil]
        refine Rep.single ?_
        simp only [insertLink, hh, if_true]
        exact hl htail
      | some b =>
        have hpush := Rep.push hrep ht (fun c => (rfl : (if c = t then none else
          if (k.ends v'.waiters).head = some c then some t
          else v'.waiters.link (k.tcb c)) = _))
        rw [hh] at hpush
        simp only [insertLink, hh]
        exact hpush
    · simp only [Function.update_of_ne hv]
      refine (h.waiters v').congr (fun p _ => ?_) ?_
      · exact Side.link_setLink_ne (Ne.symm hv) (Or.inr rfl) (Or.inr rfl) _ _
      · simp only [Function.update_of_ne (Side.ends_ne hv)]

/-- An insertion into an item queue is invisible: the waiters of that side are
none. -/
theorem Links.insertItem {k : Sched} {q : Lists} {v : Side} {t : Ptr} (h : Links k q)
    (hq : q.waiters v = []) : Links (rdvInsert v.items k t) q := by
  rw [rdvInsert_eq]
  refine ⟨?_, ?_, ?_⟩
  · exact h.run.congr (fun p _ => v.items.setLink_next _ _) rfl rfl
  · refine h.ev.congr (fun p => ?_) rfl
    cases v <;> rfl
  · intro v'
    refine (h.waiters v').congr (fun p hp => ?_) ?_
    · by_cases hv : v' = v
      · subst hv
        rw [hq] at hp
        exact absurd hp List.not_mem_nil
      · exact Side.link_setLink_ne (Ne.symm hv) (Or.inl rfl) (Or.inr rfl) _ _
    · simp only [Function.update_of_ne (Side.items_ne v v').symm]

theorem Links.advanceItem {k : Sched} {q : Lists} (h : Links k q) (v : Side) (n : Option Ptr) :
    Links (rdvAdvance v.items k n) q := by
  refine ⟨h.run, h.ev.congr (fun _ => rfl) rfl, ?_⟩
  intro v'
  refine (h.waiters v').congr (fun _ _ => rfl) ?_
  simp [rdvAdvance, Sched.setEnds, (Side.items_ne v v').symm]

/-! ### New threads -/

/-- A thread on none of the queues. -/
structure Lists.Off (q : Lists) (t : Ptr) : Prop where
  run : t ∉ q.run
  ev : ∀ e, t ∉ q.ev e
  waiters : ∀ v, t ∉ q.waiters v

/-- Clearing the block of a thread that is on no queue. -/
theorem Links.clear {k : Sched} {q : Lists} {p : Ptr} (h : Links k q) (hp : q.Off p) (b : Tcb) :
    Links { k with tcb := Function.update k.tcb p b } q := by
  have hne : ∀ {l : List Ptr}, p ∉ l → ∀ a ∈ l, Function.update k.tcb p b a = k.tcb a := by
    intro l hl a ha
    have hap : a ≠ p := fun hap => hl (hap ▸ ha)
    exact Function.update_of_ne hap _ _
  refine ⟨?_, ⟨?_, h.ev.disjoint⟩, ?_⟩
  · refine h.run.congr (fun a ha => ?_) rfl rfl
    simp only [hne hp.run a ha]
  · intro e
    refine (h.ev.rep e).congr fun a ha => ?_
    simp only [hne (hp.ev e) a ha]
  · intro v
    refine (h.waiters v).congr (fun a ha => ?_) rfl
    simp only [hne (hp.waiters v) a ha]

theorem Links.spawned {k : Sched} {q : Lists} {p : Ptr} {i : ℕ} (h : Links k q) (hp : q.Off p) :
    Links (k.spawned p i) { q with run := q.run ++ [p] } := by
  have hclear := h.clear hp { Tcb.zero with id := i, state := .queued }
  refine ⟨?_, ?_, ?_⟩
  · have hrun : RunQ { k with
        tcb := Function.update k.tcb p { Tcb.zero with id := i, state := .queued }
        table := Function.update k.table i (some p) } q.run := hclear.run
    exact hrun.push hp.run
  · refine hclear.ev.congr (fun a => ?_) ?_ <;> rw [Sched.spawned, schedulePush_eq] <;> rfl
  · intro v
    refine (hclear.waiters v).congr (fun a _ => ?_) ?_ <;> rw [Sched.spawned, schedulePush_eq]
    · cases v <;> rfl
    · rfl

end Pinion
