/-
The dead and fault queues as rendezvous.

`dead_push` reports a death and `dead_wait` asks for one, `fault_push` and
`fault_wait` do the same for faults.  The items and the waiters of one side share
one link field, and a thread that enters an empty queue keeps the link of its
earlier stay; `fault_pull` follows the link of the run queue instead.

* `RdvOp`, `RdvOp.exec` — the calls on one side, and run-queue activity;
* `RdvReps` — the two queues hold the items and the waiters of a history; the
  link of a last thread is free;
* `LeaveOk` — the link followed when a thread leaves names the thread behind it;
* `follows_iff` — a call does what the rendezvous does exactly when `LeaveOk`;
* `dead_rendezvous_iff`, `fault_rendezvous_iff` — the same along whole runs.
-/
import Pinion.EventQueue
import Pinion.Rendezvous

open LinkedQueue Runs Rendezvous

namespace Pinion

inductive Side
  | dead
  | fault
  deriving DecidableEq

def Side.items : Side → Rdv
  | .dead => .dead
  | .fault => .fault

def Side.waiters : Side → Rdv
  | .dead => .reaper
  | .fault => .debug

/-- The link a pull moves along. -/
def Side.out : Side → Tcb → Option Ptr
  | .dead, t => t.nextDead
  | .fault, t => t.next

def Side.push : Side → Kernel → Ptr → Kernel
  | .dead => deadPush
  | .fault => faultPush

def Side.wait : Side → Kernel → Ptr → Kernel
  | .dead => deadWait
  | .fault => faultWait

def Side.pull : Side → Sched → Option Ptr × Sched
  | .dead => deadPull
  | .fault => faultPull

/-- The calls on one side: report a thread, wait as a thread, pull on behalf of
the calling thread; and pushes to and removals from the run queue. -/
inductive RdvOp
  | push (thread : Ptr)
  | wait (waiter : Ptr)
  | pull (caller : Ptr)
  | queue (thread : Ptr)
  | unqueue (thread : Ptr)

/-- The call as the code performs it, with the thread it returns. -/
def RdvOp.exec (v : Side) (s : Kernel) : RdvOp → Except Stop (Option Ptr × Kernel)
  | .push t => .ok (none, v.push s t)
  | .wait r => .ok (none, v.wait s r)
  | .pull _ => .ok ((v.pull s.toSched).1, { s with toSched := (v.pull s.toSched).2 })
  | .queue t => .ok (none, s.onSched (schedulePush · t))
  | .unqueue t => (fun x => (none, { s with toSched := x.2 })) <$> scheduleRemv s.toSched t

def RdvOp.step (v : Side) (s : Kernel) (op : RdvOp) : Except Stop Kernel := (·.2) <$> op.exec v s

/-! ### The abstract rendezvous -/

structure RdvSpec where
  run : List Ptr
  hist : History Ptr

/-- The pair a call brings together: the reported thread and the one it is
reported to. -/
def RdvSpec.meets (q : RdvSpec) : RdvOp → Option (Ptr × Ptr)
  | .push t => q.hist.waiters.head?.map fun w => (t, w)
  | .wait r => q.hist.items.head?.map fun d => (d, r)
  | .pull r => q.hist.items.head?.map fun d => (d, r)
  | _ => none

/-- A pull from an empty queue is no request. -/
def RdvSpec.after (q : RdvSpec) (op : RdvOp) : RdvSpec :=
  match op with
  | .push t =>
    { run := (q.hist.waiters.head?.map (enqueue q.run)).getD q.run, hist := q.hist.offer t }
  | .wait r =>
    { run := (q.hist.items.head?.map fun _ => enqueue q.run r).getD q.run
      hist := q.hist.request r }
  | .pull r => { q with hist := if q.hist.items = [] then q.hist else q.hist.request r }
  | .queue t => { q with run := enqueue q.run t }
  | .unqueue t => { q with run := q.run.erase t }

/-- Every call that brings a pair together adds it to the meetings. -/
theorem RdvSpec.served_after (q : RdvSpec) (op : RdvOp) :
    (q.after op).hist.served = q.hist.served ++ (q.meets op).toList := by
  cases op with
  | push t =>
    cases hw : q.hist.waiters with
    | nil => simp [RdvSpec.after, RdvSpec.meets, hw, (History.offer_idle hw t).2.2]
    | cons w ws => simp [RdvSpec.after, RdvSpec.meets, hw, (History.offer_waiting hw t).2.2]
  | wait r =>
    cases hd : q.hist.items with
    | nil => simp [RdvSpec.after, RdvSpec.meets, hd, (History.request_idle hd r).2.2]
    | cons d ds => simp [RdvSpec.after, RdvSpec.meets, hd, (History.request_waiting hd r).2.2]
  | pull r =>
    cases hd : q.hist.items with
    | nil => simp [RdvSpec.after, RdvSpec.meets, hd]
    | cons d ds => simp [RdvSpec.after, RdvSpec.meets, hd, (History.request_waiting hd r).2.2]
  | queue t => simp [RdvSpec.after, RdvSpec.meets]
  | unqueue t => simp [RdvSpec.after, RdvSpec.meets]

/-! ### Representation -/

/-- A queue of the kernel holds the list `l`. -/
def RdvQ (s : Sched) (q : Rdv) (l : List Ptr) : Prop :=
  Loose (fun p => q.link (s.tcb p)) (s.ends q).tail (s.ends q).head l

structure RdvReps (v : Side) (s : Sched) (q : RdvSpec) : Prop where
  run : RunQ s q.run
  items : RdvQ s v.items q.hist.items
  waiters : RdvQ s v.waiters q.hist.waiters

/-- A reported thread and a waiting thread are on neither queue before the
call. -/
def RdvOp.Legal (q : RdvSpec) : RdvOp → Prop
  | .push t => t ∉ q.hist.items ∧ t ∉ q.hist.waiters
  | .wait r => r ∉ q.hist.items ∧ r ∉ q.hist.waiters
  | _ => True

instance (q : RdvSpec) : ∀ op : RdvOp, Decidable (op.Legal q)
  | .push _ => inferInstanceAs (Decidable (_ ∧ _))
  | .wait _ => inferInstanceAs (Decidable (_ ∧ _))
  | .pull _ => isTrue trivial
  | .queue _ => isTrue trivial
  | .unqueue _ => isTrue trivial

/-- Every call of a run is legal. -/
def RdvSpec.LegalRun : RdvSpec → List RdvOp → Prop
  | _, [] => True
  | q, op :: ops => op.Legal q ∧ (q.after op).LegalRun ops

instance RdvSpec.decidableLegalRun : ∀ (q : RdvSpec) (ops : List RdvOp), Decidable (q.LegalRun ops)
  | _, [] => isTrue trivial
  | q, op :: ops =>
    have := RdvSpec.decidableLegalRun (q.after op) ops
    inferInstanceAs (Decidable (op.Legal q ∧ (q.after op).LegalRun ops))

/-- The call does what the rendezvous does: the queues and the meetings are the
abstract ones; a pull returns the reported thread; the other calls write the
reported id to `eax` of the thread it is reported to, which is ready, and write
no other register of any thread. -/
def RdvOp.Follows (v : Side) (s : Kernel) (q : RdvSpec) (op : RdvOp) : Prop :=
  ∃ ret s', op.exec v s = .ok (ret, s') ∧ RdvReps v s'.toSched (q.after op) ∧
    (q.after op).hist.served = q.hist.served ++ (q.meets op).toList ∧
    match op, q.meets op with
    | .pull _, m => ret = m.map Prod.fst ∧ s'.img = s.img
    | _, none => ret = none ∧ s'.img = s.img
    | _, some (d, w) => ret = none ∧ (s'.tcb w).state = .queued ∧
        s'.img = (s.setEax w (BitVec.ofInt 32 (s.tcb d).id)).img

/-- The link a thread is left by names the thread behind it: null when it is
alone, and otherwise the link of the queue. -/
def LeaveOk (s : Sched) (q : Rdv) (out : Tcb → Option Ptr) : Prop :=
  ∀ a, (s.ends q).tail = some a →
    out (s.tcb a) = if (s.ends q).head = some a then none else q.link (s.tcb a)

/-- The condition on one call: a report leaves the waiters by their own link, a
request leaves the items by the link of the pull. -/
def RdvOp.LeaveOk (v : Side) (s : Kernel) : RdvOp → Prop
  | .push _ => Pinion.LeaveOk s.toSched v.waiters v.waiters.link
  | .wait _ => Pinion.LeaveOk s.toSched v.items v.out
  | .pull _ => Pinion.LeaveOk s.toSched v.items v.out
  | _ => True

/-! ### Links and ends -/

theorem Rdv.link_setLink (q : Rdv) (n : Option Ptr) (t : Tcb) : q.link (q.setLink n t) = n := by
  cases q <;> rfl

theorem Rdv.setLink_next (q : Rdv) (n : Option Ptr) (t : Tcb) : (q.setLink n t).next = t.next := by
  cases q <;> rfl

theorem Side.items_ne_waiters (v : Side) : v.items ≠ v.waiters := by
  cases v <;> decide

theorem Side.push_eq (v : Side) : v.push = rdvPush v.waiters v.items := by
  cases v <;> rfl

theorem Side.wait_eq (v : Side) : v.wait = rdvWait v.waiters v.items v.pull := by
  cases v <;> rfl

theorem Side.pull_none {v : Side} {s : Sched} (h : (s.ends v.items).tail = none) :
    v.pull s = (none, s) := by
  cases v
  · simp only [Side.pull, deadPull, show (s.ends .dead).tail = none from h]
  · simp only [Side.pull, faultPull, show (s.ends .fault).tail = none from h]

theorem Side.pull_some {v : Side} {s : Sched} {d : Ptr} (h : (s.ends v.items).tail = some d) :
    v.pull s = (some d, rdvAdvance v.items s (v.out (s.tcb d))) := by
  cases v
  · simp only [Side.pull, deadPull, show (s.ends .dead).tail = some d from h, Side.out, Side.items]
  · simp only [Side.pull, faultPull, show (s.ends .fault).tail = some d from h, Side.out,
      Side.items]

theorem RdvQ.congr {s k : Sched} {q : Rdv} {l : List Ptr} (h : RdvQ s q l)
    (hl : ∀ p ∈ l, q.link (k.tcb p) = q.link (s.tcb p)) (he : k.ends q = s.ends q) :
    RdvQ k q l := by
  rw [RdvQ, he]
  exact Loose.congr h hl

theorem RdvQ.makeReady {s : Sched} {q : Rdv} {l : List Ptr} {t : Ptr} :
    RdvQ (makeReady s t) q l ↔ RdvQ s q l := by
  have hl : ∀ p, q.link ((Pinion.makeReady s t).tcb p) = q.link (s.tcb p) := by
    intro p
    rw [makeReady_eq]
    cases q <;> rfl
  have he : (Pinion.makeReady s t).ends = s.ends := by rw [makeReady_eq]
  exact ⟨fun h => h.congr (fun p _ => (hl p).symm) (by rw [he]),
    fun h => h.congr (fun p _ => hl p) (by rw [he])⟩

theorem RdvQ.advance_iff {s : Sched} {q : Rdv} {a : Ptr} {l : List Ptr} {n : Option Ptr}
    (h : RdvQ s q (a :: l)) : RdvQ (rdvAdvance q s n) q l ↔ n = l.head? := by
  have hiff := Loose.advance_iff (n := n) h
  simpa only [RdvQ, rdvAdvance, Sched.setEnds, Function.update_self] using hiff

theorem RdvQ.advance_ne {s : Sched} {q q' : Rdv} {l : List Ptr} {n : Option Ptr} (h : RdvQ s q' l)
    (hne : q' ≠ q) : RdvQ (rdvAdvance q s n) q' l :=
  h.congr (fun _ _ => rfl) (by simp [rdvAdvance, Sched.setEnds, hne])

/-- A thread enters at the end; the link of one that enters an empty queue is
free. -/
theorem RdvQ.insert {s : Sched} {q : Rdv} {l : List Ptr} {t : Ptr} (h : RdvQ s q l) (ht : t ∉ l) :
    RdvQ (rdvInsert q s t) q (l ++ [t]) := by
  cases hh : (s.ends q).head with
  | none =>
    rw [RdvQ, hh] at h
    rw [h.eq_nil_of_last]
    simp only [RdvQ, rdvInsert, hh, Sched.setEnds, Function.update_self]
    exact Loose.single _ t
  | some b =>
    rw [RdvQ, hh] at h
    have hbt : b ≠ t := fun hbt => ht (hbt ▸ h.mem_last)
    simp only [RdvQ, rdvInsert, hh, Sched.setEnds, Sched.upd, Function.update_self]
    refine h.push ht ?_ fun c hc hcb => ?_
    · rw [Function.update_of_ne hbt, Function.update_self, Rdv.link_setLink]
    · have hct : c ≠ t := fun hct => ht (hct ▸ hc)
      rw [Function.update_of_ne hct, Function.update_of_ne hcb]

theorem rdvInsert_next (q : Rdv) (s : Sched) (t p : Ptr) :
    ((rdvInsert q s t).tcb p).next = (s.tcb p).next := by
  unfold rdvInsert
  cases (s.ends q).head with
  | none => rfl
  | some b =>
    simp only [Sched.setEnds, Sched.upd, Function.update_apply]
    split_ifs <;> simp_all [Rdv.setLink_next]

theorem rdvInsert_run (q : Rdv) (s : Sched) (t : Ptr) :
    (rdvInsert q s t).schedHead = s.schedHead ∧ (rdvInsert q s t).schedTail = s.schedTail := by
  unfold rdvInsert
  cases (s.ends q).head <;> exact ⟨rfl, rfl⟩

theorem rdvInsert_ends_ne {q q' : Rdv} (hne : q' ≠ q) (s : Sched) (t : Ptr) :
    (rdvInsert q s t).ends q' = s.ends q' := by
  unfold rdvInsert
  cases (s.ends q).head <;> simp [Sched.setEnds, Sched.upd, hne]

theorem RunQ.insert {s : Sched} {l : List Ptr} (h : RunQ s l) (q : Rdv) (t : Ptr) :
    RunQ (rdvInsert q s t) l :=
  h.congr (fun p _ => rdvInsert_next q s t p) (rdvInsert_run q s t).1 (rdvInsert_run q s t).2

/-- An empty queue is left alone by an insertion elsewhere. -/
theorem RdvQ.insert_ne {s : Sched} {q q' : Rdv} {t : Ptr} (h : RdvQ s q' []) (hne : q' ≠ q) :
    RdvQ (rdvInsert q s t) q' [] :=
  h.congr (fun _ hp => absurd hp List.not_mem_nil) (rdvInsert_ends_ne hne s t)

/-- For a queue that holds a list, the condition on the first link. -/
theorem RdvQ.leaveOk_iff {s : Sched} {q : Rdv} {out : Tcb → Option Ptr} {a : Ptr} {l : List Ptr}
    (h : RdvQ s q (a :: l)) : LeaveOk s q out ↔ out (s.tcb a) = l.head? := by
  have htail : (s.ends q).tail = some a := h.first_eq
  have hone : (if (s.ends q).head = some a then none else q.link (s.tcb a)) = l.head? := by
    simp only [Loose.last_eq_first_iff h]
    cases l with
    | nil => simp
    | cons b l => simpa using Loose.next_first h
  constructor
  · intro hok
    rw [hok a htail, hone]
  · intro hout b hb
    rw [htail, Option.some.injEq] at hb
    rw [← hb, hout, hone]

theorem leaveOk_of_empty {s : Sched} {q : Rdv} {out : Tcb → Option Ptr} (h : RdvQ s q []) :
    LeaveOk s q out := by
  intro a ha
  have htail : (s.ends q).tail = none := h.first_eq
  rw [htail] at ha
  exact absurd ha (by simp)

/-! ### One call -/

theorem notify_toSched (s : Kernel) (w d : Ptr) :
    (notify s w d).toSched = makeReady s.toSched w := rfl

/-- A report is right exactly when the first waiter is left by a right link. -/
theorem follows_report_iff {v : Side} {s : Kernel} {q : RdvSpec} {t : Ptr}
    (h : RdvReps v s.toSched q) (ht : t ∉ q.hist.items) :
    (RdvOp.push t).Follows v s q ↔ LeaveOk s.toSched v.waiters v.waiters.link := by
  have hexec : (RdvOp.push t).exec v s = .ok (none, rdvPush v.waiters v.items s t) := by
    rw [RdvOp.exec, v.push_eq]
  cases hw : q.hist.waiters with
  | nil =>
    obtain ⟨hi', hw', -⟩ := History.offer_idle hw t
    have hempty := h.waiters
    rw [hw] at hempty
    have htail : (s.ends v.waiters).tail = none := hempty.first_eq
    refine iff_of_true ⟨none, _, hexec, ?_, q.served_after _, ?_⟩ (leaveOk_of_empty hempty)
    · simp only [rdvPush, htail, RdvSpec.after, hw, List.head?_nil, Option.map_none,
        Option.getD_none]
      refine ⟨h.run.insert v.items t, ?_, ?_⟩
      · rw [hi']
        exact h.items.insert ht
      · rw [hw']
        exact hempty.insert_ne v.items_ne_waiters.symm
    · simp only [rdvPush, htail, RdvSpec.meets, hw, List.head?_nil, Option.map_none]
      exact ⟨trivial, rfl⟩
  | cons w ws =>
    obtain ⟨hi', hw', -⟩ := History.offer_waiting hw t
    have hq := h.waiters
    rw [hw] at hq
    have htail : (s.ends v.waiters).tail = some w := hq.first_eq
    have hitems : q.hist.items = [] :=
      q.hist.items_or_waiters.resolve_right (by rw [hw]; simp)
    have hrep : RdvReps v (rdvPush v.waiters v.items s t).toSched (q.after (.push t)) ↔
        v.waiters.link (s.tcb w) = ws.head? := by
      have hadv := hq.advance_iff (n := v.waiters.link (s.tcb w))
      simp only [rdvPush, htail, notify_toSched, RdvSpec.after, hw, List.head?_cons,
        Option.map_some, Option.getD_some, Kernel.onSched]
      constructor
      · intro hr
        have hnew := hr.waiters
        rw [hw', RdvQ.makeReady] at hnew
        exact hadv.mp hnew
      · intro hlink
        have hrun : RunQ (rdvAdvance v.waiters s.toSched (v.waiters.link (s.tcb w))) q.run := h.run
        refine ⟨hrun.makeReadyAny w, ?_, ?_⟩
        · rw [hi', RdvQ.makeReady]
          have hempty := h.items
          rw [hitems] at hempty
          exact hempty.advance_ne v.items_ne_waiters
        · rw [hw', RdvQ.makeReady]
          exact hadv.mpr hlink
    rw [hq.leaveOk_iff, ← hrep]
    constructor
    · rintro ⟨ret, s', hs', hr, -⟩
      rw [hexec, Except.ok.injEq, Prod.mk.injEq] at hs'
      rwa [hs'.2]
    · intro hr
      refine ⟨none, _, hexec, hr, q.served_after _, ?_⟩
      simp only [rdvPush, htail, RdvSpec.meets, hw, List.head?_cons, Option.map_some]
      refine ⟨trivial, ?_, rfl⟩
      rw [notify_toSched, makeReady_eq]
      simp

/-- A wait is right exactly when the first item is left by a right link. -/
theorem follows_request_iff {v : Side} {s : Kernel} {q : RdvSpec} {r : Ptr}
    (h : RdvReps v s.toSched q) (hr : r ∉ q.hist.waiters) :
    (RdvOp.wait r).Follows v s q ↔ LeaveOk s.toSched v.items v.out := by
  have hexec : (RdvOp.wait r).exec v s = .ok (none, rdvWait v.waiters v.items v.pull s r) := by
    rw [RdvOp.exec, v.wait_eq]
  cases hd : q.hist.items with
  | nil =>
    obtain ⟨hi', hw', -⟩ := History.request_idle hd r
    have hempty := h.items
    rw [hd] at hempty
    have htail : (s.ends v.items).tail = none := hempty.first_eq
    refine iff_of_true ⟨none, _, hexec, ?_, q.served_after _, ?_⟩ (leaveOk_of_empty hempty)
    · simp only [rdvWait, htail, RdvSpec.after, hd, List.head?_nil, Option.map_none,
        Option.getD_none]
      refine ⟨h.run.insert v.waiters r, ?_, ?_⟩
      · rw [hi']
        exact hempty.insert_ne v.items_ne_waiters
      · rw [hw']
        exact h.waiters.insert hr
    · simp only [rdvWait, htail, RdvSpec.meets, hd, List.head?_nil, Option.map_none]
      exact ⟨trivial, rfl⟩
  | cons d ds =>
    obtain ⟨hi', hw', -⟩ := History.request_waiting hd r
    have hq := h.items
    rw [hd] at hq
    have htail : (s.ends v.items).tail = some d := hq.first_eq
    have hwaiters : q.hist.waiters = [] :=
      q.hist.items_or_waiters.resolve_left (by rw [hd]; simp)
    have hrep : RdvReps v (rdvWait v.waiters v.items v.pull s r).toSched (q.after (.wait r)) ↔
        v.out (s.tcb d) = ds.head? := by
      have hadv := hq.advance_iff (n := v.out (s.tcb d))
      simp only [rdvWait, htail, v.pull_some htail, notify_toSched, RdvSpec.after, hd,
        List.head?_cons, Option.map_some, Option.getD_some]
      constructor
      · intro hr
        have hnew := hr.items
        rw [hi', RdvQ.makeReady] at hnew
        exact hadv.mp hnew
      · intro hlink
        have hrun : RunQ (rdvAdvance v.items s.toSched (v.out (s.tcb d))) q.run := h.run
        refine ⟨hrun.makeReadyAny r, ?_, ?_⟩
        · rw [hi', RdvQ.makeReady]
          exact hadv.mpr hlink
        · rw [hw', RdvQ.makeReady]
          have hempty := h.waiters
          rw [hwaiters] at hempty
          exact hempty.advance_ne v.items_ne_waiters.symm
    rw [hq.leaveOk_iff, ← hrep]
    constructor
    · rintro ⟨ret, s', hs', hr, -⟩
      rw [hexec, Except.ok.injEq, Prod.mk.injEq] at hs'
      rwa [hs'.2]
    · intro hr
      refine ⟨none, _, hexec, hr, q.served_after _, ?_⟩
      simp only [rdvWait, htail, v.pull_some htail, RdvSpec.meets, hd, List.head?_cons,
        Option.map_some]
      refine ⟨trivial, ?_, rfl⟩
      rw [notify_toSched, makeReady_eq]
      simp

theorem follows_pull_iff {v : Side} {s : Kernel} {q : RdvSpec} {r : Ptr}
    (h : RdvReps v s.toSched q) :
    (RdvOp.pull r).Follows v s q ↔ LeaveOk s.toSched v.items v.out := by
  cases hd : q.hist.items with
  | nil =>
    have hempty := h.items
    rw [hd] at hempty
    have htail : (s.ends v.items).tail = none := hempty.first_eq
    refine iff_of_true ⟨_, _, rfl, ?_, q.served_after _, ?_⟩ (leaveOk_of_empty hempty)
    · simp only [v.pull_none htail, RdvSpec.after, hd, if_true]
      exact h
    · simp only [v.pull_none htail, RdvSpec.meets, hd, List.head?_nil, Option.map_none]
      exact ⟨trivial, trivial⟩
  | cons d ds =>
    obtain ⟨hi', hw', -⟩ := History.request_waiting hd r
    have hq := h.items
    rw [hd] at hq
    have htail : (s.ends v.items).tail = some d := hq.first_eq
    have hwaiters : q.hist.waiters = [] :=
      q.hist.items_or_waiters.resolve_left (by rw [hd]; simp)
    have hrep : RdvReps v (v.pull s.toSched).2 (q.after (.pull r)) ↔
        v.out (s.tcb d) = ds.head? := by
      have hadv := hq.advance_iff (n := v.out (s.tcb d))
      simp only [v.pull_some htail, RdvSpec.after, hd, reduceCtorEq, if_false]
      constructor
      · intro hr
        have hnew := hr.items
        rw [hi'] at hnew
        exact hadv.mp hnew
      · intro hlink
        refine ⟨h.run, ?_, ?_⟩
        · rw [hi']
          exact hadv.mpr hlink
        · rw [hw']
          have hempty := h.waiters
          rw [hwaiters] at hempty
          exact hempty.advance_ne v.items_ne_waiters.symm
    rw [hq.leaveOk_iff, ← hrep]
    constructor
    · rintro ⟨ret, s', hs', hr, -⟩
      rw [RdvOp.exec, Except.ok.injEq, Prod.mk.injEq] at hs'
      rwa [← hs'.2] at hr
    · intro hr
      refine ⟨_, _, rfl, hr, q.served_after _, ?_⟩
      simp only [v.pull_some htail, RdvSpec.meets, hd, List.head?_cons, Option.map_some]
      exact ⟨trivial, trivial⟩

theorem follows_queue {v : Side} {s : Kernel} {q : RdvSpec} {t : Ptr}
    (h : RdvReps v s.toSched q) : (RdvOp.queue t).Follows v s q := by
  have hlinks : ∀ (d : Rdv) (p : Ptr),
      d.link ((schedulePush s.toSched t).tcb p) = d.link (s.tcb p) := by
    intro d p
    rw [schedulePush_eq]
    cases d <;> rfl
  have hends : (schedulePush s.toSched t).ends = s.ends := by rw [schedulePush_eq]; rfl
  refine ⟨none, _, rfl, ⟨h.run.pushAny t, ?_, ?_⟩, q.served_after _, ⟨rfl, rfl⟩⟩
  · exact h.items.congr (fun p _ => hlinks _ p) (congrFun hends _)
  · exact h.waiters.congr (fun p _ => hlinks _ p) (congrFun hends _)

theorem follows_dequeue {v : Side} {s : Kernel} {q : RdvSpec} {t : Ptr}
    (h : RdvReps v s.toSched q) : (RdvOp.unqueue t).Follows v s q := by
  by_cases ht : t ∈ q.run
  · obtain ⟨k, hk, hrun⟩ := h.run.remv ht
    obtain ⟨n, hd, tl, hw⟩ := scheduleRemv_withRun hk
    have hlinks : ∀ (d : Rdv) (p : Ptr), d.link (k.tcb p) = d.link (s.tcb p) := by
      intro d p
      rw [hw]
      cases d <;> rfl
    have hends : k.ends = s.ends := by rw [hw]; rfl
    refine ⟨none, { s with toSched := k }, ?_, ⟨hrun, ?_, ?_⟩, q.served_after _, ⟨rfl, rfl⟩⟩
    · simp only [RdvOp.exec, hk, Functor.map, Except.map]
    · exact h.items.congr (fun p _ => hlinks _ p) (congrFun hends _)
    · exact h.waiters.congr (fun p _ => hlinks _ p) (congrFun hends _)
  · refine ⟨none, s, ?_, ?_, q.served_after _, ⟨rfl, rfl⟩⟩
    · simp only [RdvOp.exec, h.run.remv_of_notMem ht, Functor.map, Except.map]
    · rw [RdvSpec.after, List.erase_of_not_mem ht]
      exact h

/-- A call does what the rendezvous does exactly when the thread that leaves a
queue, if one does, is left by a right link. -/
theorem follows_iff {v : Side} {s : Kernel} {q : RdvSpec} {op : RdvOp} (h : RdvReps v s.toSched q)
    (hl : op.Legal q) : op.Follows v s q ↔ op.LeaveOk v s := by
  cases op with
  | push t => exact follows_report_iff h hl.1
  | wait r => exact follows_request_iff h hl.2
  | pull r => exact follows_pull_iff h
  | queue t => exact iff_of_true (follows_queue h) trivial
  | unqueue t => exact iff_of_true (follows_dequeue h) trivial

theorem RdvOp.Follows.reps {v : Side} {s s' : Kernel} {q : RdvSpec} {op : RdvOp}
    (h : op.Follows v s q) (hs : op.step v s = .ok s') : RdvReps v s'.toSched (q.after op) := by
  obtain ⟨ret, k, hk, hrep, -⟩ := h
  simp only [RdvOp.step, hk, Functor.map, Except.map, Except.ok.injEq] at hs
  rw [← hs]
  exact hrep

/-! ### Runs -/

/-- The condition holds of every call of a run on side `v`. -/
def RdvAlong (v : Side) (P : Kernel → RdvSpec → RdvOp → Prop) :
    Kernel → RdvSpec → List RdvOp → Prop :=
  Along (RdvOp.step v) (fun _ q op => q.after op) P

theorem RdvSpec.LegalRun.along {v : Side} {ops : List RdvOp} : ∀ {q : RdvSpec} {s : Kernel},
    q.LegalRun ops → RdvAlong v (fun _ q op => op.Legal q) s q ops := by
  induction ops with
  | nil => exact fun _ => trivial
  | cons op ops ih => exact fun h => ⟨h.1, fun _ _ => ih h.2⟩

theorem rendezvous_iff {v : Side} {s : Kernel} {q : RdvSpec} {ops : List RdvOp}
    (h : RdvReps v s.toSched q) (hl : q.LegalRun ops) :
    RdvAlong v (fun s q op => op.Follows v s q) s q ops ↔
      RdvAlong v (fun s _ op => op.LeaveOk v s) s q ops := by
  refine along_congr (R := fun s q => RdvReps v s.toSched q) (fun s q op hR hL => ?_)
    (fun s q op s' _ _ hF hs => ?_) h (RdvSpec.LegalRun.along hl)
  · exact follows_iff hR hL
  · exact hF.reps hs

/-- **The dead and reaper queues are a first come, first served rendezvous along
a run exactly when every thread that leaves one of them alone has a null
`next_dead`.** -/
theorem dead_rendezvous_iff {s : Kernel} {q : RdvSpec} {ops : List RdvOp}
    (h : RdvReps .dead s.toSched q) (hl : q.LegalRun ops) :
    RdvAlong .dead (fun s q op => op.Follows .dead s q) s q ops ↔
      RdvAlong .dead (fun s _ op => op.LeaveOk .dead s) s q ops :=
  rendezvous_iff h hl

def noRdv : RdvSpec := ⟨[], ⟨[], []⟩⟩

theorem pairKernel_rdvReps (v : Side) : RdvReps v pairKernel.toSched noRdv :=
  ⟨Rep.empty _, (Rep.empty _).toLoose, (Rep.empty _).toLoose⟩

/-- One reaper that waits, is told of a death, and later asks for another. -/
theorem dead_rendezvous_once :
    RdvAlong .dead (fun s q op => op.Follows .dead s q) pairKernel noRdv
      [.wait 0xF1000000, .push 0xF1000200, .push 0xF1000300, .pull 0xF1000000] := by
  refine (dead_rendezvous_iff (pairKernel_rdvReps .dead) (by decide)).mpr ?_
  refine ⟨leaveOk_of_empty (pairKernel_rdvReps .dead).items, fun s₁ h₁ => ?_⟩
  cases h₁
  refine ⟨fun a ha => ?_, fun s₂ h₂ => ?_⟩
  · cases ha; rfl
  · cases h₂
    refine ⟨fun a ha => ?_, fun s₃ h₃ => ?_⟩
    · cases ha
    · cases h₃
      refine ⟨fun a ha => ?_, fun _ _ => trivial⟩
      cases ha; rfl

/-- Two reapers wait and are served; the first waits again with the second still
in its link, and the next death leaves the second one queued. -/
theorem dead_rendezvous_fails :
    RdvReps .dead pairKernel.toSched noRdv ∧
    noRdv.LegalRun
      [.wait 0xF1000000, .wait 0xF1000100, .push 0xF1000200, .push 0xF1000300,
        .wait 0xF1000000, .push 0xF1000400] ∧
    ¬RdvAlong .dead (fun s q op => op.Follows .dead s q) pairKernel noRdv
      [.wait 0xF1000000, .wait 0xF1000100, .push 0xF1000200, .push 0xF1000300,
        .wait 0xF1000000, .push 0xF1000400] := by
  refine ⟨pairKernel_rdvReps .dead, by decide, ?_⟩
  rintro ⟨-, h⟩
  obtain ⟨-, h⟩ := h _ rfl
  obtain ⟨-, h⟩ := h _ rfl
  obtain ⟨-, h⟩ := h _ rfl
  obtain ⟨-, h⟩ := h _ rfl
  obtain ⟨⟨r, k, hk, hrep, -⟩, -⟩ := h _ rfl
  cases hk
  exact absurd hrep.waiters.first_eq (by decide)

/-- **The fault and debug queues are a first come, first served rendezvous along
a run exactly when every reported thread is left by a `next` that equals its
`next_fault`, or is null when it is alone, and every debugger that is woken alone
has a null `next_fault`.** -/
theorem fault_rendezvous_iff {s : Kernel} {q : RdvSpec} {ops : List RdvOp}
    (h : RdvReps .fault s.toSched q) (hl : q.LegalRun ops) :
    RdvAlong .fault (fun s q op => op.Follows .fault s q) s q ops ↔
      RdvAlong .fault (fun s _ op => op.LeaveOk .fault s) s q ops :=
  rendezvous_iff h hl

/-- One debugger that waits, is told of a fault, and later asks for another. -/
theorem fault_rendezvous_once :
    RdvAlong .fault (fun s q op => op.Follows .fault s q) pairKernel noRdv
      [.wait 0xF1000000, .push 0xF1000200, .push 0xF1000300, .pull 0xF1000000] := by
  refine (fault_rendezvous_iff (pairKernel_rdvReps .fault) (by decide)).mpr ?_
  refine ⟨leaveOk_of_empty (pairKernel_rdvReps .fault).items, fun s₁ h₁ => ?_⟩
  cases h₁
  refine ⟨fun a ha => ?_, fun s₂ h₂ => ?_⟩
  · cases ha; rfl
  · cases h₂
    refine ⟨fun a ha => ?_, fun s₃ h₃ => ?_⟩
    · cases ha
    · cases h₃
      refine ⟨fun a ha => ?_, fun _ _ => trivial⟩
      cases ha; rfl

/-- Two faults are pending; the first pull loses the second one. -/
theorem fault_rendezvous_fails :
    RdvReps .fault pairKernel.toSched noRdv ∧
    noRdv.LegalRun
      [.push 0xF1000200, .push 0xF1000300, .pull 0xF1000000] ∧
    ¬RdvAlong .fault (fun s q op => op.Follows .fault s q) pairKernel noRdv
      [.push 0xF1000200, .push 0xF1000300, .pull 0xF1000000] := by
  refine ⟨pairKernel_rdvReps .fault, by decide, ?_⟩
  rintro ⟨-, h⟩
  obtain ⟨-, h⟩ := h _ rfl
  obtain ⟨⟨r, k, hk, hrep, -⟩, -⟩ := h _ rfl
  cases hk
  exact absurd hrep.items.first_eq (by decide)

end Pinion
