/-
Round-robin preemption.

Each timer interrupt wakes the first waiter of every virtual timer that fires,
puts the interrupted thread behind them on the run queue and runs the head of it.

* `Rotation k c l w` — `c` runs, the run queue holds `l` and the virtual timers have
  the waiters `w`;
* `Rotation.send`, `Rotation.sends` — a timer wakes its first waiter;
* `Rotation.preempt`, `Rotation.pick` — the two halves of the switch;
* `Rotation.next` — one timer interrupt;
* `dispatched`, `enqueued` — who ran and who was queued along a run;
* `round_robin` — any number of timer interrupts.
-/
import Pinion.Partition
import Pinion.Timer

open LinkedQueue Runs

namespace Pinion

/-- The events of the virtual timers. -/
def Virtual (e : ℕ) : Prop := 240 ≤ e ∧ e < EV_COUNT

/-- `c` runs, the run queue holds `l` and each virtual timer `e` has the waiters
`w e`; no thread is in two of these places, and a waiter does not run. -/
structure Rotation (k : Sched) (c : Ptr) (l : List Ptr) (w : ℕ → List Ptr) : Prop where
  active : k.active = some c
  running : (k.tcb c).state = .running
  run : RunQ k l
  fresh : c ∉ l
  timers : ∀ e, Virtual e → EvQ k e (w e)
  waiting : ∀ e, Virtual e → ∀ p ∈ w e, (k.tcb p).state ≠ .running
  off : ∀ e, Virtual e → ∀ p ∈ w e, p ∉ l
  disjoint : ∀ e e', Virtual e → Virtual e' → e ≠ e' → ∀ p ∈ w e, p ∉ w e'

/-- The states of the scheduling core are of this kind. -/
theorem Partition.rotation {k : Sched} {q : Lists} {c : Ptr} (h : Partition k q)
    (hact : k.active = some c) : Rotation k c q.run q.ev := by
  have hrun := (h.place c).active.mp hact
  have hwait : ∀ e, ∀ p ∈ q.ev e, (k.tcb p).state = .waiting := fun e p hp =>
    (((h.place p).ev e).mp hp).1
  refine ⟨hact, hrun, h.links.run, fun hc => ?_, fun e _ => h.links.ev.rep e, fun e _ p hp => ?_,
    fun e _ p hp hl => ?_, fun e e' _ _ hne => h.links.ev.disjoint e e' hne⟩
  · have hqueued := (h.place c).run.mp hc
    rw [hrun] at hqueued
    cases hqueued
  · rw [hwait e p hp]
    decide
  · have hqueued := (h.place p).run.mp hl
    rw [hwait e p hp] at hqueued
    cases hqueued

/-! ### Waking -/

section Rotation

variable {k : Sched} {c : Ptr} {l : List Ptr} {w : ℕ → List Ptr}

theorem wake_irqstate (k : Sched) (e : ℕ) : (k.wake e).irqstate = k.irqstate := by
  unfold Sched.wake
  cases (k.evqueue e).frontThread with
  | none => rfl
  | some t =>
    dsimp only
    rw [makeReady_eq]
    rfl

theorem send_virtual {e : ℕ} (he : Virtual e) : k.send e = k.wake e := by
  simp only [Sched.send, show ¬e < 240 from not_lt.mpr he.1, if_false, ← wake_irqstate k e]

/-- The first waiter of a timer goes to the end of the run queue. -/
theorem Rotation.send (h : Rotation k c l w) {e : ℕ} (he : Virtual e) :
    Rotation (k.send e) c (l ++ (w e).head?.toList) (Function.update w e (w e).tail) := by
  have hq := h.timers e he
  rw [send_virtual he]
  cases hw : w e with
  | nil =>
    have hfront : (k.evqueue e).frontThread = none := by
      rw [hq.first_eq, hw]
      rfl
    rw [Sched.wake, hfront, List.head?_nil, Option.toList_none, List.append_nil, List.tail_nil,
      ← hw, Function.update_eq_self]
    exact h
  | cons t r =>
    have hmem : t ∈ w e := by
      rw [hw]
      exact List.mem_cons_self
    have hfront : (k.evqueue e).frontThread = some t := by
      rw [hq.first_eq, hw]
      rfl
    have hst := h.waiting e he t hmem
    have htl := h.off e he t hmem
    have hct : c ≠ t := by
      rintro rfl
      exact hst h.running
    rw [hw] at hq
    -- the waiters that remain: those of the other timers, and those behind `t`
    have hrest : ∀ e', Virtual e' → ∀ p ∈ Function.update w e r e', p ∈ w e' ∧ p ≠ t := by
      intro e' he' p hp
      by_cases hee : e' = e
      · subst hee
        rw [Function.update_self] at hp
        refine ⟨by rw [hw]; exact List.mem_cons_of_mem t hp, ?_⟩
        rintro rfl
        exact (List.nodup_cons.mp hq.nodup).1 hp
      · rw [Function.update_of_ne hee] at hp
        refine ⟨hp, ?_⟩
        rintro rfl
        exact h.disjoint e' e he' he hee p hp hmem
    have heq := wake_waiter hfront hst
    have hstate : ∀ p, p ≠ t → ((k.wake e).tcb p).state = (k.tcb p).state := by
      intro p hp
      rw [heq, makeReady_state, if_neg hp]
      simp [evqueuePop, Sched.setEvqueue, Sched.upd, hp]
    have hlink : ∀ p, ((k.wake e).tcb p).nextEvqueue = (k.tcb p).nextEvqueue := by
      intro p
      rw [heq, makeReady_eq]
      by_cases hp : p = t
      · subst hp
        simp [evqueuePop, Sched.setEvqueue, Sched.upd]
      · simp [evqueuePop, Sched.setEvqueue, Sched.upd, hp]
    have hends : (k.wake e).evqueue = Function.update k.evqueue e ⟨(k.tcb t).nextEvqueue,
        if (k.tcb t).nextEvqueue = none then none else (k.evqueue e).backThread⟩ := by
      rw [heq, makeReady_eq]
      rfl
    simp only [List.head?_cons, Option.toList_some, List.tail_cons]
    refine ⟨?_, ?_, ?_, ?_, fun e' he' => ?_, fun e' he' p hp => ?_, fun e' he' p hp hpl => ?_,
      fun e₁ e₂ h₁ h₂ hne p hp hp' => ?_⟩
    · rw [heq, makeReady_active]
      exact h.active
    · rw [hstate c hct]
      exact h.running
    · rw [heq]
      refine RunQ.makeReady (h.run.congr (fun p _ => ?_) rfl rfl) htl
      by_cases hp : p = t
      · subst hp
        simp [evqueuePop, Sched.setEvqueue, Sched.upd]
      · simp [evqueuePop, Sched.setEvqueue, Sched.upd, hp]
    · rw [List.mem_append, List.mem_singleton]
      exact fun hc => hc.elim h.fresh hct
    · unfold EvQ
      simp only [hlink, hends]
      by_cases hee : e' = e
      · subst hee
        rw [Function.update_self, Function.update_self]
        exact hq.pop
      · rw [Function.update_of_ne hee, Function.update_of_ne hee]
        exact h.timers e' he'
    · obtain ⟨hpw, hpt⟩ := hrest e' he' p hp
      rw [hstate p hpt]
      exact h.waiting e' he' p hpw
    · obtain ⟨hpw, hpt⟩ := hrest e' he' p hp
      rw [List.mem_append, List.mem_singleton] at hpl
      exact hpl.elim (h.off e' he' p hpw) hpt
    · exact h.disjoint e₁ e₂ h₁ h₂ hne p (hrest e₁ h₁ p hp).1 (hrest e₂ h₂ p hp').1

/-- The timers of a tick, in the order they are sent. -/
theorem Rotation.sends (fired : List ℕ) : ∀ {k : Sched} {l : List Ptr} {w : ℕ → List Ptr},
    Rotation k c l w → (∀ e ∈ fired, Virtual e) → fired.Nodup →
      Rotation (fired.foldl Sched.send k) c (l ++ fired.filterMap fun e => (w e).head?)
        (fun e => if e ∈ fired then (w e).tail else w e) := by
  induction fired with
  | nil =>
    intro k l w h _ _
    simpa using h
  | cons e fired ih =>
    intro k l w h hv hnd
    obtain ⟨hnotin, hnd⟩ := List.nodup_cons.mp hnd
    have hnext := ih (h.send (hv e List.mem_cons_self))
      (fun e' he' => hv e' (List.mem_cons_of_mem e he')) hnd
    -- no other timer of the tick has the waiters of `e`
    have hwoken : (fired.filterMap fun e' => (Function.update w e (w e).tail e').head?) =
        fired.filterMap fun e' => (w e').head? := by
      refine List.filterMap_congr fun e' he' => ?_
      rw [Function.update_of_ne]
      rintro rfl
      exact hnotin he'
    have hwait : (fun e' => if e' ∈ fired then (Function.update w e (w e).tail e').tail
          else Function.update w e (w e).tail e') =
        fun e' => if e' ∈ e :: fired then (w e').tail else w e' := by
      funext e'
      by_cases hee : e' = e
      · subst hee
        simp [hnotin]
      · simp [hee]
    rw [hwoken, hwait, List.append_assoc] at hnext
    have hcons : ((e :: fired).filterMap fun e' => (w e').head?) =
        (w e).head?.toList ++ fired.filterMap fun e' => (w e').head? := by
      rw [List.filterMap_cons]
      cases (w e).head? <;> rfl
    rw [List.foldl_cons, hcons]
    exact hnext

/-- The interrupted thread is queued and the head of the queue runs. -/
theorem Rotation.switch (h : Rotation k c l w) : ∃ t rest r k₁, l ++ [c] = t :: rest ∧
    (makeReady k.release c).active = none ∧ (makeReady k.release c).schedHead = some t ∧
    scheduleRemv (makeReady k.release c) t = .ok (r, k₁) ∧
    Rotation ({ k₁ with active := some t }.setState t .running) t rest w := by
  have hready : RunQ (makeReady k.release c) (l ++ [c]) :=
    RunQ.makeReady (s := k.release) h.run h.fresh
  obtain ⟨t, rest, hcons⟩ : ∃ t rest, l ++ [c] = t :: rest :=
    List.exists_cons_of_ne_nil (by simp)
  rw [hcons] at hready
  obtain ⟨k₁, hremv, hrun⟩ := hready.remv List.mem_cons_self
  rw [List.erase_cons_head] at hrun
  have hmem : ∀ p, p ∈ l ++ [c] ↔ p = t ∨ p ∈ rest := fun p => by rw [hcons, List.mem_cons]
  have hout : ∀ e, Virtual e → ∀ p ∈ w e, p ≠ t ∧ p ∉ rest ∧ p ≠ c := by
    intro e he p hp
    have hpc : p ≠ c := by
      rintro rfl
      exact h.waiting e he p hp h.running
    have hpl : p ∉ l ++ [c] := by
      rw [List.mem_append, List.mem_singleton]
      exact fun hp' => hp'.elim (h.off e he p hp) hpc
    rw [hmem] at hpl
    exact ⟨fun heq => hpl (.inl heq), fun hr => hpl (.inr hr), hpc⟩
  refine ⟨t, rest, 0, k₁, hcons, makeReady_active _ _, hready.first_eq, hremv, ?_⟩
  obtain ⟨n, hd, tl, rfl⟩ := scheduleRemv_withRun hremv
  refine ⟨rfl, ?_, ?_, (List.nodup_cons.mp hready.nodup).1, fun e he => ?_, fun e he p hp => ?_,
    fun e he p hp => (hout e he p hp).2.1, h.disjoint⟩
  · simp [Sched.setState, Sched.upd]
  · refine hrun.congr (fun p _ => ?_) rfl rfl
    by_cases hp : p = t
    · subst hp
      simp [Sched.setState, Sched.upd]
    · simp [Sched.setState, Sched.upd, hp]
  · have hends : ({ (makeReady k.release c).withRun n hd tl with
        active := some t }.setState t .running).evqueue = k.evqueue := by
      rw [makeReady_eq]
      rfl
    unfold EvQ
    rw [hends]
    refine (h.timers e he).congr fun p _ => ?_
    rw [makeReady_eq]
    by_cases hp : p = t
    · subst hp
      simp [Sched.setState, Sched.upd, Sched.withRun, Sched.release]
    · simp [Sched.setState, Sched.upd, Sched.withRun, Sched.release, hp]
  · obtain ⟨hpt, -, hpc⟩ := hout e he p hp
    have hstate : (({ (makeReady k.release c).withRun n hd tl with
        active := some t }.setState t .running).tcb p).state = (k.tcb p).state := by
      rw [makeReady_eq]
      simp [Sched.setState, Sched.upd, Sched.withRun, Sched.release, hpt, hpc]
    rw [hstate]
    exact h.waiting e he p hp

end Rotation

/-! ### One timer interrupt -/

/-- The events a timer interrupt sends, in order. -/
def Kernel.fires (s : Kernel) : List ℕ := (timersFired (s.tick + 1) s.pitFreq).map evVtimer

/-- **One timer interrupt**: the run queue grows by the first waiter of each timer that
fires and then by the interrupted thread, and its head runs. -/
theorem Rotation.next {s : Kernel} {c : Ptr} {l : List Ptr} {w : ℕ → List Ptr}
    (h : Rotation s.toSched c l w) {i : Input} (hi : i.isTimer = true) :
    ∃ t rest s', l ++ (s.fires.filterMap fun e => (w e).head?) ++ [c] = t :: rest ∧
      step s i = .ok (some t, s', i.env.info) ∧
      Rotation s'.toSched t rest fun e => if e ∈ s.fires then (w e).tail else w e := by
  cases i with
  | call r env => cases hi
  | fault n r env => cases hi
  | irq n r env =>
    have hn : n.val = 0 := of_decide_eq_true hi
    set s₀ := irqReset (trap s (.irq n r env)) 0 with hs₀
    have himage : s.image = c := by rw [Sched.image, h.active, Option.getD_some]
    have hsched : s₀.toSched = s.toSched := irqReset_toSched _ _
    obtain ⟨htick, hfreq⟩ := irqReset_tick (trap s (.irq n r env)) 0
    have hsent := h.sends s.fires vtimers_virtual.1 vtimers_virtual.2
    have hhandler : (timerHandler s₀ c).toSched =
        makeReady (s.fires.foldl Sched.send s.toSched).release c := by
      rw [(timerHandler_tick s₀ c).1, hsched, htick, hfreq, Sched.tick]
      exact if_pos hsent.running
    obtain ⟨t, rest, v, k₁, hcons, hnone, hhead, hremv, hrot⟩ := hsent.switch
    rw [← hhandler] at hnone hhead hremv
    have hpick : schedule (timerHandler s₀ c) = .ok (some t,
        (threadLoad { timerHandler s₀ c with toSched := k₁ } t).setState t .running) := by
      unfold schedule
      rw [hnone]
      simp only [scheduleNext, hhead]
      exact bind_eq_ok.mpr ⟨(v, k₁), hremv, rfl⟩
    refine ⟨t, rest, (threadLoad { timerHandler s₀ c with toSched := k₁ } t).setState t .running,
      hcons, ?_, ?_⟩
    · have hh := handled_tick s hn r env
      rw [himage] at hh
      exact bind_eq_ok.mpr ⟨_, hh, bind_eq_ok.mpr ⟨_, hpick, rfl⟩⟩
    · rw [Kernel.setState, Kernel.onSched, (threadLoad_toSched _ _).1]
      exact hrot

/-! ### Any number of timer interrupts -/

/-- The threads the kernel returns to, entry by entry. -/
def dispatched : List Input → Kernel → List Ptr
  | [], _ => []
  | i :: is, s =>
    match step s i with
    | .ok (some t, s', _) => t :: dispatched is s'
    | _ => []

/-- The threads put on the run queue along timer interrupts: at each one the first
waiters of the timers that fire, in the order of the timers, then the thread that is
preempted. -/
def enqueued : List Input → Kernel → List Ptr
  | [], _ => []
  | i :: is, s =>
    match step s i with
    | .ok (_, s', _) =>
      (s.fires.filterMap fun e => (s.evqueue e).frontThread) ++ s.active.toList ++ enqueued is s'
    | .error _ => []

theorem Rotation.woken {k : Sched} {c : Ptr} {l : List Ptr} {w : ℕ → List Ptr}
    (h : Rotation k c l w) {fired : List ℕ} (hv : ∀ e ∈ fired, Virtual e) :
    (fired.filterMap fun e => (k.evqueue e).frontThread) =
      fired.filterMap fun e => (w e).head? :=
  List.filterMap_congr fun e he => (h.timers e (hv e he)).first_eq

/-- **Round robin.**  After any number of timer interrupts the threads have run in the
order they were queued.  Without waiters the thread that runs and the run queue are the
first ones rotated; in general each tick queues the first waiter of each timer that fires
and then the thread it preempts. -/
theorem round_robin {s : Kernel} {c : Ptr} {l : List Ptr} {w : ℕ → List Ptr}
    (h : Rotation s.toSched c l w) (is : List Input) (hi : ∀ i ∈ is, i.isTimer = true) :
    ∃ s' c' l' w', replay Kernel.next (fun s i => i.Enabled s.toSched) is s = some s' ∧
      Rotation s'.toSched c' l' w' ∧
      ((∀ e, Virtual e → w e = []) → c' :: l' = (c :: l).rotate is.length ∧
        (c :: l)[is.length % (l.length + 1)]? = some c') ∧
      (c :: dispatched is s).getLast? = some c' ∧ (dispatched is s).length = is.length ∧
      dispatched is s ++ l' = l ++ enqueued is s ∧
      ∀ i, i.isTimer = true → ∃ t rest s'', step s' i = .ok (some t, s'', i.env.info) ∧
        Rotation s''.toSched t rest (fun e => if e ∈ s'.fires then (w' e).tail else w' e) ∧
        l' ++ (s'.fires.filterMap fun e => (w' e).head?) ++ [c'] = t :: rest := by
  induction is generalizing s c l w with
  | nil =>
    refine ⟨s, c, l, w, rfl, h, fun _ => ⟨by simp, by simp⟩, rfl, rfl,
      by simp [dispatched, enqueued],
      fun i hi => ?_⟩
    obtain ⟨t, rest, s'', hcons, hstep, hrot⟩ := h.next hi
    exact ⟨t, rest, s'', hstep, hrot, hcons⟩
  | cons i is ih =>
    have htimer := hi i List.mem_cons_self
    obtain ⟨t, rest, s₁, hcons, hstep, hrot⟩ := h.next htimer
    obtain ⟨s', c', l', w', hrun, hrot', hcycle, hlast, hlen, hfifo, htick⟩ :=
      ih hrot fun j hj => hi j (List.mem_cons_of_mem i hj)
    have hnext : s.next i = .ok s₁ := map_eq_ok.mpr ⟨_, hstep, rfl⟩
    have hen : i.Enabled s.toSched := by
      cases i with
      | irq n r env => trivial
      | call r env => cases htimer
      | fault n r env => cases htimer
    have hdisp : dispatched (i :: is) s = t :: dispatched is s₁ := by
      rw [dispatched, hstep]
    have hfires : ∀ e ∈ s.fires, Virtual e := vtimers_virtual.1
    have henq : enqueued (i :: is) s =
        (s.fires.filterMap fun e => (w e).head?) ++ [c] ++ enqueued is s₁ := by
      rw [enqueued, hstep]
      simp only
      rw [h.woken hfires, h.active]
      rfl
    refine ⟨s', c', l', w', ?_, hrot', fun hempty => ?_, ?_, ?_, ?_, htick⟩
    · rw [replay, if_pos hen, hnext]
      exact hrun
    · -- no waiters: the tick moves the thread that runs behind the queue
      have hwoken : (s.fires.filterMap fun e => (w e).head?) = [] := by
        refine List.filterMap_eq_nil_iff.mpr fun e he => ?_
        rw [hempty e (hfires e he)]
        rfl
      rw [hwoken, List.append_nil] at hcons
      obtain ⟨hrotate, -⟩ := hcycle fun e he => by
        simp only [hempty e he, List.tail_nil, ite_self]
      have hall : c' :: l' = (c :: l).rotate (i :: is).length := by
        rw [hrotate, ← hcons, List.length_cons, Nat.add_comm, ← List.rotate_rotate,
          List.rotate_cons_succ, List.rotate_zero]
      refine ⟨hall, ?_⟩
      have hmod : (i :: is).length % (c :: l).length < (c :: l).length :=
        Nat.mod_lt _ (by simp)
      have hhead := List.head?_rotate hmod
      rw [List.rotate_mod, ← hall] at hhead
      rw [← List.length_cons (a := c)]
      exact hhead.symm
    · rw [hdisp, List.getLast?_cons_cons]
      exact hlast
    · rw [hdisp, List.length_cons, List.length_cons, hlen]
    · rw [hdisp, henq, List.cons_append, hfifo, ← List.cons_append, ← hcons]
      simp only [List.append_assoc]

/-- Two threads and three timer interrupts: the second one runs, the first is queued. -/
theorem round_robin_three : ∃ (s : Kernel) (c t : Ptr) (s' : Kernel), s.active = some c ∧
    replay Kernel.next (fun s i => i.Enabled s.toSched) [irqOf 0, irqOf 0, irqOf 0] s = some s' ∧
    s'.active = some t ∧ RunQ s'.toSched [c] := by
  have hrun : ((bootstrap flatMem 0 0 0).toOption.bind fun s =>
      replay Kernel.logged (fun x i => i.Enabled x.1.toSched ∧ CoreOk x.1.toSched (i.act x.1))
        [callOf 0x02 0] (s, WaitLog.empty)).any
      (fun x => x.1.active.isSome && x.1.schedHead.isSome &&
        decide (x.1.schedTail = x.1.schedHead) &&
        (List.range EV_COUNT).all fun e => decide ((x.1.evqueue e).frontThread = none)) = true := by
    decide +kernel
  obtain ⟨⟨s, g⟩, hx, htest⟩ := (Option.any_eq_true _ _).mp hrun
  obtain ⟨s₀, h₀, hx⟩ := Option.bind_eq_some_iff.mp hx
  have hreach : CoreReach (s, g) := Reachable.of_replay
    (.start ⟨⟨flatMem, 0, 0, 0, .empty rfl fun _ => rfl, toOption_eq_some.mp h₀⟩, rfl⟩) hx
  simp only [Bool.and_eq_true, decide_eq_true_eq, Option.isSome_iff_exists, List.all_eq_true,
    List.mem_range] at htest
  obtain ⟨⟨⟨⟨c, hc⟩, t, ht⟩, htail⟩, hevs⟩ := htest
  obtain ⟨q, hq⟩ := hreach.inv
  have hrep := hq.part.links.run
  have hone : q.run = [t] := by
    unfold RunQ at hrep
    rw [ht] at hrep
    obtain ⟨rest, hrest⟩ := hrep.exists_cons
    rw [hrest] at hrep ⊢
    rw [hrep.last_eq_first_iff.mp (htail.trans ht)]
  have hempty : ∀ e, Virtual e → q.ev e = [] := by
    intro e he
    have hfront := (hq.part.links.ev.rep e).first_eq
    rw [hevs e he.2] at hfront
    exact List.head?_eq_none_iff.mp hfront.symm
  obtain ⟨s', c', l', w', hs', hrot, hcycle, -⟩ := round_robin (hq.part.rotation hc)
    [irqOf 0, irqOf 0, irqOf 0] (fun i hi => by
      simp only [List.mem_cons, List.not_mem_nil, or_false, or_self] at hi
      rw [hi]
      rfl)
  obtain ⟨hall, -⟩ := hcycle hempty
  rw [hone] at hall
  obtain ⟨rfl, rfl⟩ : c' = t ∧ l' = [c] := by
    have hrotate : [c, t].rotate 3 = [t, c] := by simp [List.rotate]
    rw [show [irqOf 0, irqOf 0, irqOf 0].length = 3 from rfl, hrotate] at hall
    exact ⟨(List.cons.inj hall).1, (List.cons.inj hall).2⟩
  exact ⟨s, c, c', s', hc, hs', hrot.active, hrot.run⟩

end Pinion
