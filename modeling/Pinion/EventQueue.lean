/-
The event queues represent FIFO lists, as long as no removal goes astray.

`EvQ s e l` says that the waiters linked from `evqueue[e].front_thread` through
`next_evqueue` are the list `l`, ending at `back_thread`.  `event_wait` and
`event_send` keep to that link; `event_remv` walks and writes `next`, the link of
the run queue.

* `evqueuePush_eq`, `eventWake_toSched` — the scheduler after a wait and after a
  wake-up;
* `EvReps.push`, `EvReps.wake` — waiting appends, sending takes the front;
* `RemvOk` — the thread is the front waiter and its two links agree;
* `EvReps.remv` — then `event_remv` deletes the thread and returns 0;
* `not_evQ_erase_of_not_remvOk` — otherwise the queue is wrong afterwards;
* `event_queues_fifo_iff` — a run of waits, sends, removals and run-queue
  operations follows the FIFO lists exactly when every removal is `RemvOk`.
-/
import Pinion.RunQueue
import Pinion.Runs

open LinkedQueue Runs

namespace Pinion

/-- The queue of event `e` holds the list `l`. -/
def EvQ (s : Sched) (e : ℕ) (l : List Ptr) : Prop :=
  Rep (fun p => (s.tcb p).nextEvqueue) (s.evqueue e).frontThread (s.evqueue e).backThread l

/-- The event queues hold the lists `w e`, and no thread waits on two events. -/
structure EvReps (s : Sched) (w : ℕ → List Ptr) : Prop where
  rep : ∀ e, EvQ s e (w e)
  disjoint : ∀ e e', e ≠ e' → ∀ p ∈ w e, p ∉ w e'

/-- Only the `next_evqueue` links and the ends of the queues matter. -/
theorem EvReps.congr {s k : Sched} {w : ℕ → List Ptr} (h : EvReps s w)
    (hl : ∀ p, (k.tcb p).nextEvqueue = (s.tcb p).nextEvqueue) (he : k.evqueue = s.evqueue) :
    EvReps k w := by
  refine ⟨fun e => ?_, h.disjoint⟩
  rw [EvQ, he]
  exact (h.rep e).congr fun p _ => hl p

/-! ### Waiting -/

theorem evqueuePush_eq (s : Sched) (e : ℕ) (t : Ptr) :
    evqueuePush s e t =
      { s with
        tcb := fun p =>
          { s.tcb p with
            event := if p = t then (e : ℤ) else (s.tcb p).event
            nextEvqueue := if p = t then none
              else if (s.evqueue e).backThread = some p then some t else (s.tcb p).nextEvqueue }
        evqueue := Function.update s.evqueue e
          ⟨if (s.evqueue e).backThread = none then some t else (s.evqueue e).frontThread,
            some t⟩ } := by
  unfold evqueuePush Sched.upd Sched.setEvqueue
  cases hb : (s.evqueue e).backThread with
  | none =>
    simp only [Sched.mk.injEq, if_true, and_self, and_true, Function.update_self,
      Function.update_idem]
    funext p
    by_cases hp : p = t
    · subst hp; simp
    · simp [hp]
  | some b =>
    simp only [reduceCtorEq, if_false, Sched.mk.injEq, and_self, and_true]
    funext p
    by_cases hp : p = t
    · subst hp
      by_cases hpb : p = b
      · subst hpb; simp
      · simp [hpb]
    · by_cases hpb : p = b
      · subst hpb; simp [hp]
      · simp [hp, hpb, Ne.symm hpb]

theorem eventWait_latched {env : Env} {s : Kernel} {id : ℤ} {e : ℕ} {t : Ptr}
    (hg : threadGet s.toSched id = some t) (he : e < EV_COUNT) (hl : s.irqstate e ≠ 0) :
    eventWait env s id e = .ok (0, (threadSave s t).onSched (makeReady · t)) := by
  have h₀ : ¬(e : ℤ) < 0 := by omega
  have h₁ : ¬(EV_COUNT : ℤ) ≤ e := by omega
  simp only [eventWait, hg, h₀, h₁, if_false, Int.toNat_natCast, hl, ne_eq, not_false_eq_true,
    if_true]

theorem eventWait_queues {env : Env} {s : Kernel} {id : ℤ} {e : ℕ} {t : Ptr}
    (hg : threadGet s.toSched id = some t) (he : e < EV_COUNT) (hl : s.irqstate e = 0) :
    eventWait env s id e =
      .ok (0, (threadSave (s.onSched (evqueuePush · e t)) t).setState t .waiting) := by
  have h₀ : ¬(e : ℤ) < 0 := by omega
  have h₁ : ¬(EV_COUNT : ℤ) ≤ e := by omega
  simp only [eventWait, hg, h₀, h₁, if_false, Int.toNat_natCast, hl, ne_eq, not_true_eq_false]

/-- A thread that waits on no event goes to the end of the queue it joins. -/
theorem EvReps.push {s : Sched} {w : ℕ → List Ptr} {t : Ptr} (h : EvReps s w) (e : ℕ)
    (ht : ∀ e', t ∉ w e') :
    EvReps (evqueuePush s e t) (Function.update w e (w e ++ [t])) := by
  rw [evqueuePush_eq]
  refine ⟨fun e' => ?_, fun e₁ e₂ hne p hp => ?_⟩
  · by_cases he : e' = e
    · subst he
      simp only [EvQ, Function.update_self]
      exact Rep.push (h.rep e') (ht e') fun c => rfl
    · simp only [EvQ, Function.update_of_ne he]
      -- the written links are those of `t` and of the last waiter on `e`
      refine (h.rep e').congr fun p hp => ?_
      have hpt : p ≠ t := fun h => ht e' (h ▸ hp)
      have hpb : (s.evqueue e).backThread ≠ some p := fun hb => by
        have hmem : p ∈ w e := List.mem_of_getLast? ((h.rep e).last_eq.symm.trans hb)
        exact h.disjoint e' e he p hp hmem
      simp only [hpt, hpb, if_false]
  · simp only [Function.update_apply] at hp ⊢
    by_cases h₁ : e₁ = e
    · have h₂ : e₂ ≠ e := fun h₂ => hne (h₁.trans h₂.symm)
      rw [if_pos h₁] at hp
      rw [if_neg h₂]
      rcases List.mem_append.mp hp with hp | hp
      · exact h.disjoint e e₂ h₂.symm p hp
      · rw [List.mem_singleton.mp hp]
        exact ht e₂
    · rw [if_neg h₁] at hp
      by_cases h₂ : e₂ = e
      · rw [if_pos h₂]
        intro hmem
        rcases List.mem_append.mp hmem with hmem | hmem
        · exact h.disjoint e₁ e h₁ p hp hmem
        · exact ht e₁ (List.mem_singleton.mp hmem ▸ hp)
      · rw [if_neg h₂]
        exact h.disjoint e₁ e₂ hne p hp

/-! ### Sending -/

/-- Drop the front waiter of an event queue. -/
def evqueuePop (s : Sched) (e : ℕ) (t : Ptr) : Sched :=
  s.setEvqueue e ⟨(s.tcb t).nextEvqueue,
    if (s.tcb t).nextEvqueue = none then none else (s.evqueue e).backThread⟩

theorem EvReps.pop {s : Sched} {w : ℕ → List Ptr} {e : ℕ} {t : Ptr} {l : List Ptr}
    (h : EvReps s w) (hw : w e = t :: l) : EvReps (evqueuePop s e t) (Function.update w e l) := by
  refine ⟨fun e' => ?_, fun e₁ e₂ hne p hp => ?_⟩
  · by_cases he : e' = e
    · subst he
      have hrep := h.rep e'
      rw [EvQ, hw] at hrep
      simp only [EvQ, evqueuePop, Sched.setEvqueue, Function.update_self]
      exact hrep.pop
    · simp only [EvQ, evqueuePop, Sched.setEvqueue, Function.update_of_ne he]
      exact h.rep e'
  · have hsub : ∀ e', ∀ q ∈ Function.update w e l e', q ∈ w e' := by
      intro e' q hq
      by_cases he : e' = e
      · subst he
        rw [Function.update_self] at hq
        rw [hw]
        exact List.mem_cons_of_mem t hq
      · rwa [Function.update_of_ne he] at hq
    exact fun hp' => h.disjoint e₁ e₂ hne p (hsub e₁ p hp) (hsub e₂ p hp')

theorem threadSave_toSched (s : Kernel) (p : Ptr) :
    (threadSave s p).toSched = { s.toSched with active := none } := by
  unfold threadSave
  cases (s.img p).fxdata <;> rfl

theorem threadSave_img (s : Kernel) (p : Ptr) : (threadSave s p).img = s.img := by
  unfold threadSave
  cases (s.img p).fxdata <;> rfl

theorem threadSave_mm (s : Kernel) (p : Ptr) : (threadSave s p).mm = s.mm := by
  unfold threadSave
  cases (s.img p).fxdata <;> rfl

theorem eventWake_none {s : Kernel} {e : ℕ} (h : (s.evqueue e).frontThread = none) :
    eventWake s e = s := by
  simp only [eventWake, h]

/-- A wake-up: the front waiter leaves its queue and is ready, with the event in
`eax`; a thread caught running is saved and no longer active. -/
theorem eventWake_some {s : Kernel} {e : ℕ} {t : Ptr}
    (h : (s.evqueue e).frontThread = some t) :
    eventWake s e =
      { (if (s.tcb t).state = .running then threadSave (s.setEax t (BitVec.ofNat 32 e)) t
          else s.setEax t (BitVec.ofNat 32 e)) with
        toSched := makeReady
          { (evqueuePop s.toSched e t).upd t (fun b => { b with event := -1 }) with
          active := if (s.tcb t).state = .running then none else s.active } t } := by
  have hst : ((Function.update s.tcb t { s.tcb t with event := -1 }) t).state =
      (s.tcb t).state := by simp
  simp only [eventWake, h, Kernel.onSched, Kernel.setEax, Kernel.updImg, Sched.upd,
    Sched.setEvqueue, evqueuePop, hst]
  by_cases hr : (s.tcb t).state = .running
  · simp only [hr, if_true, threadSave]
    split <;> rfl
  · simp only [hr, if_false]

theorem eventWake_toSched {s : Kernel} {e : ℕ} {t : Ptr}
    (h : (s.evqueue e).frontThread = some t) :
    (eventWake s e).toSched =
      makeReady { (evqueuePop s.toSched e t).upd t (fun b => { b with event := -1 }) with
        active := if (s.tcb t).state = .running then none else s.active } t := by
  rw [eventWake_some h]

theorem eventWake_img {s : Kernel} {e : ℕ} {t : Ptr} (h : (s.evqueue e).frontThread = some t) :
    (eventWake s e).img = (s.setEax t (BitVec.ofNat 32 e)).img := by
  rw [eventWake_some h]
  dsimp only
  split
  · exact threadSave_img _ _
  · rfl

theorem eventWake_mm (s : Kernel) (e : ℕ) : (eventWake s e).mm = s.mm := by
  cases h : (s.evqueue e).frontThread with
  | none => rw [eventWake_none h]
  | some t =>
    rw [eventWake_some h]
    dsimp only
    split
    · exact threadSave_mm _ _
    · rfl

/-! ### Interrupt lines do not touch the scheduler -/

theorem writeMask_toSched (s : Kernel) (n : ℕ) : (writeMask s n).toSched = s.toSched := by
  unfold writeMask
  split <;> rfl

theorem writeMask_img (s : Kernel) (n : ℕ) : (writeMask s n).img = s.img := by
  unfold writeMask
  split <;> rfl

theorem irqReset_toSched (s : Kernel) (n : ℕ) : (irqReset s n).toSched = s.toSched := by
  unfold irqReset outb
  split
  · rfl
  · dsimp only
    split <;> rfl

theorem irqReset_img (s : Kernel) (n : ℕ) : (irqReset s n).img = s.img := by
  unfold irqReset outb
  split
  · rfl
  · dsimp only
    split <;> rfl

/-- The scheduler after `event_send`: the wake-up and the latch. -/
theorem eventSend_toSched {s : Kernel} {e : ℕ} (he : e < EV_COUNT) :
    (eventSend s e).toSched =
      { (eventWake s e).toSched with
        irqstate := if e < 240 then Function.update s.irqstate e 1 else s.irqstate } := by
  have hirq : (eventWake s e).irqstate = s.irqstate := by
    cases hf : (s.evqueue e).frontThread with
    | none => rw [eventWake_none hf]
    | some t =>
      rw [eventWake_toSched hf, makeReady_eq]
      rfl
  rw [eventSend, if_neg (by omega)]
  by_cases hl : e < 240
  · simp only [hl, if_true, irqMask]
    rw [irqReset_toSched, writeMask_toSched, hirq]
  · simp only [hl, if_false]
    rw [← hirq]

theorem eventSend_img {s : Kernel} {e : ℕ} (he : e < EV_COUNT) :
    (eventSend s e).img = (eventWake s e).img := by
  rw [eventSend, if_neg (by omega)]
  by_cases hl : e < 240
  · simp only [hl, if_true, irqMask]
    rw [irqReset_img, writeMask_img]
  · simp only [hl, if_false]

/-! ### Removal -/

/-- The removals that go right: the thread is the front waiter, and the link
`event_remv` follows agrees with the link of the queue. -/
def RemvOk (s : Sched) (t : Ptr) (e : ℕ) : Prop :=
  (s.evqueue e).frontThread = some t ∧ (s.tcb t).next = (s.tcb t).nextEvqueue

theorem eventRemv_front {s : Sched} {id : ℤ} {e : ℕ} {t : Ptr} (hg : threadGet s id = some t)
    (he : e < EV_COUNT) (hf : (s.evqueue e).frontThread = some t) :
    eventRemv s id e = .ok (0, s.setEvqueue e ⟨(s.tcb t).next,
      if (s.evqueue e).backThread = some t then none else (s.evqueue e).backThread⟩) := by
  have hrange : ¬((e : ℤ) < 0 ∨ (EV_COUNT : ℤ) ≤ e) := by omega
  simp only [eventRemv, hg, hrange, if_false, Int.toNat_natCast, hf, if_true]

/-- Whatever the links look like, `event_remv` writes `next` links and one
event queue only. -/
theorem eventRemv_eq {s k : Sched} {id e r : ℤ} (h : eventRemv s id e = .ok (r, k)) :
    ∃ (next : Ptr → Option Ptr) (q : ℕ → Evqueue),
      k = { s with tcb := fun p => { s.tcb p with next := next p }, evqueue := q } := by
  have hsame : ∃ (next : Ptr → Option Ptr) (q : ℕ → Evqueue),
      s = { s with tcb := fun p => { s.tcb p with next := next p }, evqueue := q } :=
    ⟨fun p => (s.tcb p).next, s.evqueue, rfl⟩
  unfold eventRemv at h
  split at h
  · cases h; exact hsame
  · rename_i t _
    split at h
    · cases h; exact hsame
    · dsimp only at h
      split at h
      · cases h; exact hsame
      · rename_i front _
        split at h
        · cases h; exact ⟨fun p => (s.tcb p).next, _, rfl⟩
        · cases hf : findPrev (fun t => (s.tcb t).next) t addressSpace front with
          | error e => rw [hf] at h; cases h
          | ok o =>
            rw [hf] at h
            cases o with
            | none => cases h; exact hsame
            | some u =>
              have hupd : (s.upd u fun b => { b with next := (s.tcb t).next }).tcb =
                  fun p => { s.tcb p with
                    next := Function.update s.next u (s.tcb t).next p } := by
                funext p
                by_cases hp : p = u
                · subst hp; simp [Sched.upd]
                · simp [Sched.upd, hp, Sched.next]
              simp only [bind, Except.bind, pure, Except.pure, Except.ok.injEq,
                Prod.mk.injEq] at h
              refine ⟨Function.update s.next u (s.tcb t).next, k.evqueue, ?_⟩
              rw [← hupd, ← h.2]
              split <;> rfl

/-- A removal that goes right takes the thread off its queue and touches nothing
else. -/
theorem EvReps.remv_eq {s : Sched} {w : ℕ → List Ptr} {id : ℤ} {e : ℕ} {t : Ptr}
    (h : EvReps s w) (hg : threadGet s id = some t) (he : e < EV_COUNT) (hok : RemvOk s t e) :
    eventRemv s id e = .ok (0, evqueuePop s e t) := by
  rw [eventRemv_front hg he hok.1, evqueuePop, hok.2]
  have hrep := h.rep e
  rw [EvQ, hok.1] at hrep
  obtain ⟨l, hl⟩ := hrep.toLoose.exists_cons
  rw [hl] at hrep
  have hnext : (s.tcb t).nextEvqueue = l.head? := hrep.next_first
  -- the queue has one waiter exactly when its back is the removed thread
  have hback : (s.evqueue e).backThread = some t ↔ (s.tcb t).nextEvqueue = none := by
    rw [hrep.toLoose.last_eq_first_iff, hnext, List.head?_eq_none_iff]
  simp only [hback]

theorem EvReps.remv {s : Sched} {w : ℕ → List Ptr} {e : ℕ} {t : Ptr}
    (h : EvReps s w) (hok : RemvOk s t e) :
    EvReps (evqueuePop s e t) (Function.update w e ((w e).erase t)) := by
  have hrep := h.rep e
  rw [EvQ, hok.1] at hrep
  obtain ⟨l, hl⟩ := hrep.toLoose.exists_cons
  rw [hl, List.erase_cons_head]
  exact h.pop hl

/-- Any other removal leaves the queue wrong. -/
theorem not_evQ_erase_of_not_remvOk {s k : Sched} {w : ℕ → List Ptr} {id : ℤ} {e : ℕ} {t : Ptr}
    {r : ℤ} (h : EvReps s w) (hg : threadGet s id = some t) (he : e < EV_COUNT) (ht : t ∈ w e)
    (hok : ¬RemvOk s t e) (hr : eventRemv s id e = .ok (r, k)) : ¬EvQ k e ((w e).erase t) := by
  intro hk
  have hrep := h.rep e
  obtain ⟨a, l, hl⟩ := List.exists_cons_of_ne_nil (List.ne_nil_of_mem ht)
  have hfront : (s.evqueue e).frontThread = some a := by
    rw [hrep.first_eq, hl]
    rfl
  by_cases hat : a = t
  · subst hat
    rw [eventRemv_front hg he hfront] at hr
    cases hr
    rw [EvQ, hl] at hrep
    have hlink : (s.tcb a).nextEvqueue = l.head? := hrep.next_first
    have hnew := hk.first_eq
    rw [hl, List.erase_cons_head] at hnew
    simp only [Sched.setEvqueue, Function.update_self] at hnew
    exact hok ⟨hfront, hnew.trans hlink.symm⟩
  · -- the walk along `next` writes neither the front nor a `next_evqueue`
    have hkeep : (k.evqueue e).frontThread = (s.evqueue e).frontThread := by
      have hrange : ¬((e : ℤ) < 0 ∨ (EV_COUNT : ℤ) ≤ e) := by omega
      simp only [eventRemv, hg, hrange, if_false, Int.toNat_natCast, hfront, hat] at hr
      cases hf : findPrev (fun t => (s.tcb t).next) t addressSpace a with
      | error e => rw [hf] at hr; cases hr
      | ok o =>
        rw [hf] at hr
        cases o with
        | none => cases hr; rfl
        | some u =>
          simp only [bind, Except.bind, pure, Except.pure, Except.ok.injEq, Prod.mk.injEq] at hr
          rw [← hr.2]
          split
          · simp [Sched.setEvqueue, Sched.upd]
          · rfl
    obtain ⟨next, q, hkq⟩ := eventRemv_eq hr
    have hlinks : ∀ p, (k.tcb p).nextEvqueue = (s.tcb p).nextEvqueue := by
      intro p
      rw [hkq]
    rw [EvQ, hkeep] at hk
    have hsame := Rep.unique hrep (hk.congr fun p _ => (hlinks p).symm)
    have hlen := congrArg List.length hsame
    rw [List.length_erase_of_mem ht] at hlen
    have hpos := List.length_pos_of_mem ht
    omega

/-! ### Runs of queue operations -/

/-- The operations on event queues, with `reset` clearing a latch, and any use
of the run queue in between. -/
inductive EvOp
  | wait (id : ℤ) (event : Fin 256)
  | send (event : Fin 256)
  | remv (id : ℤ) (event : Fin 256)
  | reset (event : Fin 256)
  | push (thread : Ptr)
  | unqueue (thread : Ptr)

/-- The operation as the code performs it, with the value it returns. -/
def EvOp.exec (env : Env) (s : Kernel) : EvOp → Except Stop (ℤ × Kernel)
  | .wait id e => eventWait env s id (e.val : ℕ)
  | .send e => .ok (0, eventSend s e)
  | .remv id e =>
    (fun x => (x.1, { s with toSched := x.2 })) <$> eventRemv s.toSched id (e.val : ℕ)
  | .reset e =>
    .ok (0, if e.val < 240 then
      irqUnmask { s with irqstate := Function.update s.irqstate e 0 } e else s)
  | .push t => .ok (0, s.onSched (schedulePush · t))
  | .unqueue t => (fun x => (x.1, { s with toSched := x.2 })) <$> scheduleRemv s.toSched t

def EvOp.step (env : Env) (s : Kernel) (op : EvOp) : Except Stop Kernel := (·.2) <$> op.exec env s

/-- The abstract queues: the run queue and the waiters of each event. -/
structure Queues where
  run : List Ptr
  ev : ℕ → List Ptr

/-- Append a thread; one that is in the list already loses those behind it. -/
def enqueue (l : List Ptr) (t : Ptr) : List Ptr := l.takeWhile (· ≠ t) ++ [t]

/-- The abstract effect of an operation: a wait appends, a send removes the
front, a removal deletes the thread. -/
def Queues.after (s : Kernel) (q : Queues) : EvOp → Queues
  | .wait id e =>
    match threadGet s.toSched id with
    | none => q
    | some t =>
      if s.irqstate e ≠ 0 then { q with run := enqueue q.run t }
      else { q with ev := Function.update q.ev e (q.ev e ++ [t]) }
  | .send e =>
    match q.ev e with
    | [] => q
    | t :: l => { run := enqueue q.run t, ev := Function.update q.ev e l }
  | .remv id e =>
    match threadGet s.toSched id with
    | none => q
    | some t => { q with ev := Function.update q.ev e ((q.ev e).erase t) }
  | .reset _ => q
  | .push t => { q with run := enqueue q.run t }
  | .unqueue t => { q with run := q.run.erase t }

/-- The kernel's queues hold the abstract lists. -/
structure Represents (s : Kernel) (q : Queues) : Prop where
  run : RunQ s.toSched q.run
  ev : EvReps s.toSched q.ev

/-- The discipline of the callers: a thread that waits already does not wait
again, and a removed thread waits on the event it is removed from. -/
def EvOp.Legal (s : Kernel) (q : Queues) : EvOp → Prop
  | .wait id _ => ∃ t, threadGet s.toSched id = some t ∧ ∀ e, t ∉ q.ev e
  | .remv id e => ∃ t, threadGet s.toSched id = some t ∧ t ∈ q.ev e
  | _ => True

/-- The operation returns, with 0 unless it is a removal from the run queue; the
queues then hold the abstract lists, and the front waiter of a sent event is
ready with the event in `eax`. -/
def EvOp.Follows (env : Env) (s : Kernel) (q : Queues) (op : EvOp) : Prop :=
  ∃ r s', op.exec env s = .ok (r, s') ∧ Represents s' (q.after s op) ∧
    ((∀ t, op ≠ .unqueue t) → r = 0) ∧
    ∀ e t l, op = .send e → q.ev e = t :: l →
      (s'.tcb t).state = .queued ∧ (s'.img t).eax = BitVec.ofNat 32 e

/-- A removal, if the operation is one, goes right. -/
def EvOp.RemvOk (s : Kernel) : EvOp → Prop
  | .remv id e => ∃ t, threadGet s.toSched id = some t ∧ Pinion.RemvOk s.toSched t e
  | _ => True

theorem Represents.makeReady {s k : Kernel} {q : Queues} {t : Ptr} (h : Represents s q)
    (a : Option Ptr) (irq : ℕ → ℤ)
    (hk : k.toSched = { makeReady { s.toSched with active := a } t with irqstate := irq }) :
    Represents k { q with run := enqueue q.run t } := by
  have hrun : RunQ { s.toSched with active := a } q.run := h.run
  refine ⟨?_, ?_⟩
  · rw [hk]
    exact hrun.makeReadyAny t
  · refine h.ev.congr (fun p => ?_) ?_
    · rw [hk, makeReady_eq]
    · rw [hk, makeReady_eq]

/-- A wait appends the thread to the queue of its event, or to the run queue when
the event is latched. -/
theorem follows_wait {env : Env} {s : Kernel} {q : Queues} {id : ℤ} {e : Fin 256} {t : Ptr}
    (h : Represents s q) (hg : threadGet s.toSched id = some t) (ht : ∀ e, t ∉ q.ev e) :
    (EvOp.wait id e).Follows env s q := by
  by_cases hl : s.irqstate e = 0
  · refine ⟨0, _, eventWait_queues hg e.isLt hl, ?_, fun _ => rfl, fun _ _ _ hop => nomatch hop⟩
    have hpush := h.ev.push e.val ht
    simp only [Queues.after, hg, hl, ne_eq, not_true_eq_false, if_false]
    refine ⟨?_, ?_⟩
    · refine RunQ.congr h.run (fun p _ => ?_) ?_ ?_ <;>
        rw [Kernel.setState, Kernel.onSched, threadSave_toSched, Kernel.onSched, evqueuePush_eq]
      · by_cases hp : p = t
        · subst hp; simp [Sched.setState, Sched.upd]
        · simp [Sched.setState, Sched.upd, hp]
      · rfl
      · rfl
    · refine hpush.congr (fun p => ?_) ?_ <;>
        rw [Kernel.setState, Kernel.onSched, threadSave_toSched, Kernel.onSched]
      · by_cases hp : p = t
        · subst hp; simp [Sched.setState, Sched.upd]
        · simp [Sched.setState, Sched.upd, hp]
      · rfl
  · refine ⟨0, _, eventWait_latched hg e.isLt hl, ?_, fun _ => rfl, fun _ _ _ hop => nomatch hop⟩
    simp only [Queues.after, hg, hl, ne_eq, not_false_eq_true, if_true]
    refine h.makeReady none s.irqstate ?_
    rw [Kernel.onSched, threadSave_toSched, makeReady_eq]

/-- A send takes the front waiter to the run queue. -/
theorem follows_send {env : Env} {s : Kernel} {q : Queues} {e : Fin 256} (h : Represents s q) :
    (EvOp.send e).Follows env s q := by
  refine ⟨0, _, rfl, ?_, fun _ => rfl, fun e' t l hop hq => ?_⟩
  · cases hq : q.ev e with
    | nil =>
      simp only [Queues.after, hq]
      have hrep := h.ev.rep e
      rw [hq] at hrep
      have hf : (s.evqueue e).frontThread = none := hrep.first_eq
      have hsched := eventSend_toSched (s := s) e.isLt
      rw [eventWake_none hf] at hsched
      refine ⟨?_, ?_⟩
      · rw [hsched]
        exact h.run
      · refine h.ev.congr (fun p => ?_) ?_ <;> rw [hsched]
    | cons t l =>
      simp only [Queues.after, hq]
      have hf : (s.evqueue e).frontThread = some t := by
        rw [(h.ev.rep e).first_eq, hq]
        rfl
      have hsched := eventSend_toSched (s := s) e.isLt
      rw [eventWake_toSched hf] at hsched
      have hpop : Represents { s with toSched := evqueuePop s.toSched e t }
          ⟨q.run, Function.update q.ev e l⟩ := ⟨h.run, h.ev.pop hq⟩
      have hclear : Represents { s with
          toSched := (evqueuePop s.toSched e t).upd t fun b => { b with event := -1 } }
          ⟨q.run, Function.update q.ev e l⟩ := by
        refine ⟨hpop.run.congr (fun p _ => ?_) rfl rfl, hpop.ev.congr (fun p => ?_) rfl⟩
        · by_cases hp : p = t
          · subst hp; simp [Sched.upd]
          · simp [Sched.upd, hp]
        · by_cases hp : p = t
          · subst hp; simp [Sched.upd]
          · simp [Sched.upd, hp]
      exact hclear.makeReady _ _ hsched
  · cases hop
    have hf : (s.evqueue e).frontThread = some t := by
      rw [(h.ev.rep e).first_eq, hq]
      rfl
    refine ⟨?_, ?_⟩
    · rw [eventSend_toSched e.isLt, eventWake_toSched hf, makeReady_eq]
      simp
    · rw [eventSend_img e.isLt, eventWake_img hf]
      simp [Kernel.setEax, Kernel.updImg]

/-- A removal is right exactly when the thread is the front waiter and its two
links agree. -/
theorem follows_remv_iff {env : Env} {s : Kernel} {q : Queues} {id : ℤ} {e : Fin 256} {t : Ptr}
    (h : Represents s q) (hg : threadGet s.toSched id = some t) (ht : t ∈ q.ev e) :
    (EvOp.remv id e).Follows env s q ↔ RemvOk s.toSched t e := by
  constructor
  · rintro ⟨r, s', hs', hrep, -, -⟩
    by_contra hok
    simp only [Queues.after, hg] at hrep
    cases hr : eventRemv s.toSched id (e.val : ℕ) with
    | error x => simp only [EvOp.exec, hr, Functor.map, Except.map, reduceCtorEq] at hs'
    | ok x =>
      obtain ⟨r', k⟩ := x
      simp only [EvOp.exec, hr, Functor.map, Except.map, Except.ok.injEq, Prod.mk.injEq] at hs'
      refine not_evQ_erase_of_not_remvOk h.ev hg e.isLt ht hok hr ?_
      have hev := hrep.ev.rep e
      simp only [Function.update_self, ← hs'.2] at hev
      exact hev
  · intro hok
    have hexec : (EvOp.remv id e).exec env s =
        .ok (0, { s with toSched := evqueuePop s.toSched e t }) := by
      simp only [EvOp.exec, h.ev.remv_eq hg e.isLt hok, Functor.map, Except.map]
    refine ⟨0, _, hexec, ?_, fun _ => rfl, fun _ _ _ hop => nomatch hop⟩
    simp only [Queues.after, hg]
    exact ⟨h.run, h.ev.remv hok⟩

theorem follows_reset {env : Env} {s : Kernel} {q : Queues} {e : Fin 256} (h : Represents s q) :
    (EvOp.reset e).Follows env s q := by
  refine ⟨0, _, rfl, ?_, fun _ => rfl, fun _ _ _ hop => nomatch hop⟩
  split
  · refine ⟨?_, ?_⟩ <;> rw [irqUnmask, writeMask_toSched]
    · exact h.run
    · exact h.ev.congr (fun _ => rfl) rfl
  · exact h

theorem follows_push {env : Env} {s : Kernel} {q : Queues} {t : Ptr} (h : Represents s q) :
    (EvOp.push t).Follows env s q := by
  refine ⟨0, _, rfl, ⟨h.run.pushAny t, h.ev.congr (fun p => ?_) ?_⟩, fun _ => rfl,
    fun _ _ _ hop => nomatch hop⟩ <;> simp only [Kernel.onSched, schedulePush_eq, Sched.withRun]

theorem follows_unqueue {env : Env} {s : Kernel} {q : Queues} {t : Ptr} (h : Represents s q) :
    (EvOp.unqueue t).Follows env s q := by
  by_cases ht : t ∈ q.run
  · obtain ⟨k, hk, hrun⟩ := h.run.remv ht
    obtain ⟨n, hd, tl, hw⟩ := scheduleRemv_withRun hk
    refine ⟨0, { s with toSched := k }, ?_, ⟨hrun, h.ev.congr (fun p => ?_) ?_⟩, fun _ => rfl,
      fun _ _ _ hop => nomatch hop⟩
    · simp only [EvOp.exec, hk, Functor.map, Except.map]
    · rw [hw, Sched.withRun]
    · rw [hw, Sched.withRun]
  · refine ⟨1, s, ?_, ?_, fun hne => absurd rfl (hne t), fun _ _ _ hop => nomatch hop⟩
    · simp only [EvOp.exec, h.run.remv_of_notMem ht, Functor.map, Except.map]
    · rw [Queues.after, List.erase_of_not_mem ht]
      exact h

theorem EvOp.Follows.represents {env : Env} {s s' : Kernel} {q : Queues} {op : EvOp}
    (h : op.Follows env s q) (hs : op.step env s = .ok s') : Represents s' (q.after s op) := by
  obtain ⟨r, k, hk, hrep, -⟩ := h
  simp only [EvOp.step, hk, Functor.map, Except.map, Except.ok.injEq] at hs
  rw [← hs]
  exact hrep

/-- **The event queues are FIFO queues along a run exactly when every removal in
it takes the front waiter, with equal links.** -/
theorem event_queues_fifo_iff (env : Env) {s : Kernel} {q : Queues} {ops : List EvOp}
    (h : Represents s q) (hl : Along (EvOp.step env) Queues.after EvOp.Legal s q ops) :
    Along (EvOp.step env) Queues.after (fun s q op => op.Follows env s q) s q ops ↔
      Along (EvOp.step env) Queues.after (fun s _ op => op.RemvOk s) s q ops := by
  refine along_congr (fun s q op hR hL => ?_)
    (fun s q op s' _ _ hF hs => hF.represents hs) h hl
  cases op with
  | wait id e =>
    obtain ⟨t, hg, ht⟩ := hL
    exact iff_of_true (follows_wait hR hg ht) trivial
  | send e => exact iff_of_true (follows_send hR) trivial
  | remv id e =>
    obtain ⟨t, hg, ht⟩ := hL
    rw [follows_remv_iff hR hg ht]
    refine ⟨fun hok => ⟨t, hg, hok⟩, ?_⟩
    rintro ⟨t', hg', hok⟩
    rw [hg, Option.some.injEq] at hg'
    rwa [hg']
  | reset e => exact iff_of_true (follows_reset hR) trivial
  | push t => exact iff_of_true (follows_push hR) trivial
  | unqueue t => exact iff_of_true (follows_unqueue hR) trivial

/-- Two threads that exist and are on no queue. -/
def pairKernel : Kernel :=
  { Kernel.bss flatMem with
    table := fun i => if i = 0 then some 0xF1000000 else if i = 1 then some 0xF1000100 else none }

def noEnv : Env := ⟨⟨0, 0, 0, 0, 0, 0, 0, 0, 0, ⟨0, 0, 0, 0, 0, 0, 0, 0, 0, 0, fun _ => 0⟩⟩,
  none, fun _ => none, 0⟩

def noQueues : Queues := ⟨[], fun _ => []⟩

theorem pairKernel_represents : Represents pairKernel noQueues :=
  ⟨Rep.empty _, fun _ => Rep.empty _, fun _ _ _ _ hp => absurd hp List.not_mem_nil⟩

theorem pairKernel_wait_legal (id : ℤ) (e : Fin 256) (h : id = 0 ∨ id = 1) :
    (EvOp.wait id e).Legal pairKernel noQueues := by
  rcases h with rfl | rfl
  · exact ⟨0xF1000000, rfl, fun _ => List.not_mem_nil⟩
  · exact ⟨0xF1000100, rfl, fun _ => List.not_mem_nil⟩

/-- A wait, a send and a removal of the only waiter. -/
theorem event_queues_fifo_pair :
    Along (EvOp.step noEnv) Queues.after (fun s q op => op.Follows noEnv s q) pairKernel noQueues
      [.wait 0 5, .remv 0 5, .wait 1 7, .send 7] := by
  refine (event_queues_fifo_iff noEnv pairKernel_represents ?_).mpr ?_
  · refine ⟨pairKernel_wait_legal 0 5 (Or.inl rfl), fun s₁ h₁ => ?_⟩
    cases h₁
    refine ⟨⟨0xF1000000, rfl, by decide⟩, fun s₂ h₂ => ?_⟩
    cases h₂
    refine ⟨⟨0xF1000100, rfl, fun e => ?_⟩, fun s₃ h₃ => ⟨trivial, fun s₄ h₄ => trivial⟩⟩
    show _ ∉ Function.update (Function.update (fun _ => []) 5 [0xF1000000]) 5 [] e
    rw [Function.update_idem, Function.update_apply]
    split <;> exact List.not_mem_nil
  · refine ⟨trivial, fun s₁ h₁ => ?_⟩
    cases h₁
    exact ⟨⟨0xF1000000, rfl, rfl, rfl⟩,
      fun s₂ _ => ⟨trivial, fun s₃ _ => ⟨trivial, fun _ _ => trivial⟩⟩⟩

/-- Removing the first of two waiters that never ran loses the second. -/
theorem event_queues_fifo_fails :
    Represents pairKernel noQueues ∧
    Along (EvOp.step noEnv) Queues.after EvOp.Legal pairKernel noQueues
      [.wait 0 5, .wait 1 5, .remv 0 5] ∧
    ¬Along (EvOp.step noEnv) Queues.after (fun s q op => op.Follows noEnv s q) pairKernel noQueues
      [.wait 0 5, .wait 1 5, .remv 0 5] := by
  refine ⟨pairKernel_represents, ?_, ?_⟩
  · refine ⟨pairKernel_wait_legal 0 5 (Or.inl rfl), fun s₁ h₁ => ?_⟩
    cases h₁
    refine ⟨⟨0xF1000100, rfl, fun e => ?_⟩, fun s₂ h₂ => ?_⟩
    · show _ ∉ Function.update (fun _ => []) 5 [0xF1000000] e
      rw [Function.update_apply]
      split
      · decide
      · exact List.not_mem_nil
    · cases h₂
      exact ⟨⟨0xF1000000, rfl, by decide⟩, fun _ _ => trivial⟩
  · rintro ⟨-, h⟩
    obtain ⟨-, h⟩ := h _ rfl
    obtain ⟨⟨r, k, hk, hrep, -⟩, -⟩ := h _ rfl
    cases hk
    have hfirst := (hrep.ev.rep 5).first_eq
    exact absurd hfirst (by decide)

end Pinion
