/-
The running thread.

`thread_get_active` promises that the active thread is the only one in state
`TS_RUNNING`.  `thread_save` clears the active thread whatever thread it is given,
so the promise rests on who calls it.

* `Running` — a thread is in `TS_RUNNING` exactly when it is active;
* `RunOk` — the actions that keep it: no `RESUME` of a thread paused while
  waiting, no `SETSTATE` kill that wakes the caller as a reaper, no `SPAWN` or
  `WAIT` by a caller that has been reaped;
* `Effect.running`, `Picks.running` — the step lemmas;
* `unique_running` — along every run of such actions, the promise holds whenever
  a handler ends and whenever `int_handler` returns.
-/
import Pinion.Handlers

open Runs

namespace Pinion

/-- A thread is in `TS_RUNNING` exactly when it is the active one. -/
def Running (k : Sched) : Prop := ∀ p, (k.tcb p).state = .running ↔ k.active = some p

/-- Only one thread changes its state, and it does not run afterwards: then either
another thread is active before and after, or no other thread was active and the
processor is released. -/
theorem Running.set {k k' : Sched} {t : Ptr} (h : Running k)
    (hp : ∀ p, p ≠ t → (k'.tcb p).state = (k.tcb p).state) (ht : (k'.tcb t).state ≠ .running)
    (ha : (k'.active = k.active ∧ k.active ≠ some t) ∨
      (k'.active = none ∧ ∀ p, k.active = some p → p = t)) : Running k' := by
  intro p
  by_cases hpt : p = t
  · subst hpt
    refine iff_of_false ht fun hact => ?_
    rcases ha with ⟨heq, hne⟩ | ⟨hnone, -⟩
    · exact hne (heq ▸ hact)
    · rw [hnone] at hact
      exact absurd hact (by simp)
  · rw [hp p hpt]
    rcases ha with ⟨heq, -⟩ | ⟨hnone, honly⟩
    · rw [heq]
      exact h p
    · refine iff_of_false (fun hr => hpt (honly p ((h p).mp hr))) ?_
      rw [hnone]
      simp

theorem Running.congr {k k' : Sched} (h : Running k)
    (hp : ∀ p, (k'.tcb p).state = (k.tcb p).state) (ha : k'.active = k.active) : Running k' := by
  intro p
  rw [hp, ha]
  exact h p

theorem Running.not_active {k : Sched} (h : Running k) {t : Ptr}
    (ht : (k.tcb t).state ≠ .running) : k.active ≠ some t :=
  fun ha => ht ((h t).mpr ha)

/-! ### States after the scheduler operations -/

theorem setState_state (k : Sched) (t p : Ptr) (st : TState) :
    ((k.setState t st).tcb p).state = if p = t then st else (k.tcb p).state := by
  by_cases hp : p = t
  · subst hp; simp [Sched.setState, Sched.upd]
  · simp [Sched.setState, Sched.upd, hp]

theorem makeReady_state (k : Sched) (t p : Ptr) :
    ((makeReady k t).tcb p).state = if p = t then .queued else (k.tcb p).state := by
  rw [makeReady_eq]

theorem makeReady_active (k : Sched) (t : Ptr) : (makeReady k t).active = k.active := by
  rw [makeReady_eq]

theorem Rdv.setLink_state (q : Rdv) (n : Option Ptr) (b : Tcb) :
    (q.setLink n b).state = b.state := by
  cases q <;> rfl

theorem rdvInsert_state (q : Rdv) (k : Sched) (t p : Ptr) :
    ((rdvInsert q k t).tcb p).state = (k.tcb p).state := by
  unfold rdvInsert
  cases (k.ends q).head with
  | none => rfl
  | some b =>
    simp only [Sched.setEnds, Sched.upd, Function.update_apply]
    split_ifs <;> simp_all [Rdv.setLink_state]

theorem rdvInsert_active (q : Rdv) (k : Sched) (t : Ptr) :
    (rdvInsert q k t).active = k.active := by
  unfold rdvInsert
  cases (k.ends q).head <;> rfl

/-! ### One step -/

/-- The actions that keep the running thread unique. -/
def RunOk (k : Sched) (c : Ptr) : Act → Prop
  | .rewait t => (k.tcb t).event < 0 ∨ (EV_COUNT : ℤ) ≤ (k.tcb t).event
  | .kill t => t = c ∨ (k.ends .reaper).tail ≠ some c
  | .spawn => threadGet k (k.tcb c).id = some c
  | .wait t _ => t = c
  | _ => True

instance (k : Sched) (c : Ptr) : ∀ a, Decidable (RunOk k c a)
  | .rewait _ => inferInstanceAs (Decidable (_ ∨ _))
  | .kill _ => inferInstanceAs (Decidable (_ ∨ _))
  | .spawn => inferInstanceAs (Decidable (_ = _))
  | .wait _ _ => inferInstanceAs (Decidable (_ = _))
  | .other | .reap _ | .yield | .pause _ | .resume _ | .request _ | .reset _ | .fault | .irq _
  | .tick _ => isTrue trivial

theorem Running.makeReady {k : Sched} (h : Running k) {t : Ptr} (ha : k.active ≠ some t) :
    Running (makeReady k t) := by
  refine h.set (t := t) (fun p hp => ?_) ?_ (Or.inl ⟨makeReady_active k t, ha⟩)
  · rw [makeReady_state, if_neg hp]
  · rw [makeReady_state, if_pos rfl]
    decide

/-- The processor is released by the thread that had it, which does not run
afterwards. -/
theorem Running.release {k : Sched} (h : Running k) {c : Ptr} {st : TState}
    (hc : ∀ p, k.active = some p → p = c) (hst : st ≠ .running) :
    Running (k.release.setState c st) := by
  refine h.set (t := c) (fun p hp => ?_) ?_ (Or.inr ⟨rfl, hc⟩)
  · rw [setState_state, if_neg hp]
    rfl
  · rwa [setState_state, if_pos rfl]

theorem Running.releaseReady {k : Sched} (h : Running k) {c : Ptr}
    (hc : ∀ p, k.active = some p → p = c) : Running (Pinion.makeReady k.release c) := by
  refine h.set (t := c) (fun p hp => ?_) ?_ (Or.inr ⟨makeReady_active _ c, hc⟩)
  · rw [makeReady_state, if_neg hp]
    rfl
  · rw [makeReady_state, if_pos rfl]
    decide

theorem Running.insert {k : Sched} (h : Running k) (q : Rdv) (t : Ptr) :
    Running (rdvInsert q k t) :=
  h.congr (fun p => rdvInsert_state q k t p) (rdvInsert_active q k t)

/-- A report keeps the running thread unless the thread it wakes is active. -/
theorem Running.report {k : Sched} (h : Running k) (v : Side) (t : Ptr)
    (hw : ∀ w, (k.ends v.waiters).tail = some w → k.active ≠ some w) :
    Running (k.report v t) := by
  unfold Sched.report
  cases htail : (k.ends v.waiters).tail with
  | none => exact h.insert _ _
  | some w =>
    have hadv : Running (rdvAdvance v.waiters k (v.waiters.link (k.tcb w))) :=
      h.congr (fun _ => rfl) rfl
    exact hadv.makeReady (hw w htail)

theorem Running.waitOn {k : Sched} (h : Running k) {c : Ptr} {e : ℕ}
    (hc : ∀ p, k.active = some p → p = c) : Running (k.waitOn c e) := by
  unfold Sched.waitOn
  split
  · exact h.releaseReady hc
  · have hpush : Running (evqueuePush k e c) := by
      rw [evqueuePush_eq]
      exact h.congr (fun _ => rfl) rfl
    refine hpush.release (fun p hp => hc p ?_) (by decide)
    rwa [evqueuePush_eq] at hp

theorem Running.send {k : Sched} (h : Running k) (e : ℕ) :
    Running (k.send e) ∧ ∀ p, (k.send e).active = some p → k.active = some p := by
  have hwake : Running (k.wake e) ∧ ∀ p, (k.wake e).active = some p → k.active = some p := by
    unfold Sched.wake
    cases (k.evqueue e).frontThread with
    | none => exact ⟨h, fun _ hp => hp⟩
    | some t =>
      refine ⟨h.set (t := t) (fun p hp => ?_) ?_ ?_, fun p hp => ?_⟩
      · rw [makeReady_state, if_neg hp]
        simp [evqueuePop, Sched.setEvqueue, Sched.upd, hp]
      · rw [makeReady_state, if_pos rfl]
        decide
      · rw [makeReady_active]
        by_cases hr : (k.tcb t).state = .running
        · have ht := (h t).mp hr
          refine Or.inr ⟨by simp [hr], fun p hp => ?_⟩
          rw [ht, Option.some.injEq] at hp
          exact hp.symm
        · exact Or.inl ⟨by simp [hr], h.not_active hr⟩
      · rw [makeReady_active] at hp
        by_cases hr : (k.tcb t).state = .running
        · simp [hr] at hp
        · simpa [hr] using hp
  exact ⟨hwake.1.congr (fun _ => rfl) rfl, hwake.2⟩

theorem Running.sends (fired : List ℕ) : ∀ {k : Sched}, Running k →
    Running (fired.foldl Sched.send k) ∧
      ∀ p, (fired.foldl Sched.send k).active = some p → k.active = some p := by
  induction fired with
  | nil => exact fun h => ⟨h, fun _ hp => hp⟩
  | cons e l ih =>
    intro k h
    obtain ⟨hs, ha⟩ := h.send e
    obtain ⟨hs', ha'⟩ := ih hs
    exact ⟨hs', fun p hp => ha p (ha' p hp)⟩

/-- The allowed actions keep the running thread unique. -/
theorem Effect.running {k k' : Sched} {a : Act} (h : Effect k.image k a k') (hr : Running k)
    (hok : RunOk k k.image a) : Running k' := by
  have hc : ∀ p, k.active = some p → p = k.image := by
    intro p hp
    rw [Sched.image, hp, Option.getD_some]
  cases h with
  | other => exact hr
  | spawn fresh slot bound =>
    rename_i p i
    obtain ⟨j, -, -, hj⟩ := threadGet_eq_some hok
    have hne : k.image ≠ p := fun hp => fresh j (hp ▸ hj)
    rw [spawned_eq]
    refine hr.set (t := p) (fun q hq => ?_) ?_ (Or.inl ⟨rfl, fun hp => hne (hc p hp).symm⟩)
    · simp only [hq, if_false]
    · simp
  | spawnFull fresh full =>
    rename_i p
    obtain ⟨j, -, -, hj⟩ := threadGet_eq_some hok
    have hne : k.image ≠ p := fun hp => fresh j (hp ▸ hj)
    refine hr.set (t := p) (fun q hq => ?_) ?_ (Or.inl ⟨rfl, fun hp => hne (hc p hp).symm⟩)
    · simp only [Function.update_of_ne hq]
    · simp [Tcb.zero]
  | reap => exact hr.congr (fun _ => rfl) rfl
  | yield => exact hr.releaseReady hc
  | pauseRunning state =>
    rename_i t
    have ht := (hr t).mp state
    refine hr.release (fun p hp => ?_) (by decide)
    rw [ht, Option.some.injEq] at hp
    exact hp.symm
  | pauseQueued live state remv =>
    rename_i t r k₁
    obtain ⟨n, hd, tl, rfl⟩ := scheduleRemv_withRun remv
    refine hr.set (t := t) (fun p hp => ?_) ?_ (Or.inl ⟨rfl, hr.not_active (by simp [state])⟩)
    · rw [setState_state, if_neg hp]
      rfl
    · simp [setState_state]
  | pauseWaiting state remv =>
    rename_i t r k₁
    obtain ⟨n, q, rfl⟩ := eventRemv_eq remv
    refine hr.set (t := t) (fun p hp => ?_) ?_ (Or.inl ⟨rfl, hr.not_active (by simp [state])⟩)
    · rw [setState_state, if_neg hp]
    · simp [setState_state]
  | resume live state => exact hr.makeReady (hr.not_active (by simp [state]))
  | rewait live state event bound =>
    rcases hok with hneg | hbig
    · rw [event] at hneg
      omega
    · rw [event] at hbig
      omega
  | rewaitBad state event =>
    rename_i t
    refine hr.set (t := t) (fun p hp => ?_) ?_ (Or.inl ⟨rfl, hr.not_active (by simp [state])⟩)
    · rw [setState_state, if_neg hp]
    · simp [setState_state]
  | kill live state =>
    rename_i t
    unfold Sched.kill
    by_cases hrun : (k.tcb t).state = .running
    · have ht := (hr t).mp hrun
      rw [if_pos hrun]
      refine Running.report (hr.release (fun p hp => ?_) (by decide)) _ _ fun w _ => ?_
      · rw [ht, Option.some.injEq] at hp
        exact hp.symm
      · exact fun hact => absurd hact (by simp [Sched.release, Sched.setState, Sched.upd])
    · rw [if_neg hrun]
      refine hr.report _ _ fun w hw hact => ?_
      have hwc := hc w hact
      rcases hok with rfl | hne
      · exact hrun ((hr _).mpr (hwc ▸ hact))
      · exact hne (hwc ▸ hw)
  | request =>
    rename_i v
    unfold Sched.request
    cases (k.ends v.items).tail with
    | none => exact (hr.release hc (by decide)).insert _ _
    | some d => exact hr.congr (fun _ => rfl) rfl
  | wait live bound =>
    rename_i t e
    have ht : t = k.image := hok
    rw [ht]
    exact hr.waitOn hc
  | reset => exact hr.congr (fun _ => rfl) rfl
  | fault =>
    refine Running.report (hr.release hc (by decide)) _ _ fun w _ hact => ?_
    exact absurd hact (by simp [Sched.release, Sched.setState, Sched.upd])
  | irq => exact (hr.send _).1
  | tick =>
    rename_i fired _ _
    obtain ⟨hs, ha⟩ := Running.sends fired hr
    unfold Sched.tick
    dsimp only
    split
    · exact hs.releaseReady fun p hp => hc p (ha p hp)
    · exact hs

theorem Picks.running {k k' : Sched} {o : Option Ptr} (h : Picks k o k') (hr : Running k) :
    Running k' ∧ k'.active = o := by
  cases h with
  | same active => exact ⟨hr, active⟩
  | idle active => exact ⟨hr, active⟩
  | next active head remv =>
    rename_i t r k₁
    obtain ⟨n, hd, tl, rfl⟩ := scheduleRemv_withRun remv
    refine ⟨fun p => ?_, rfl⟩
    rw [setState_state]
    by_cases hp : p = t
    · subst hp
      simp [Sched.setState, Sched.upd]
    · rw [if_neg hp]
      refine iff_of_false (fun hrun => ?_) ?_
      · have hact := (hr p).mp hrun
        rw [active] at hact
        exact absurd hact (by simp)
      · intro hact
        exact hp (Option.some.inj hact).symm

/-! ### Runs -/

/-- The step condition of a run of the kernel. -/
def StepRunOk (s : Kernel) (i : Input) : Prop := RunOk s.toSched s.image (i.act s)

instance (s : Kernel) (i : Input) : Decidable (StepRunOk s i) :=
  inferInstanceAs (Decidable (RunOk _ _ _))

theorem Init.running {s : Kernel} (h : Init s) : Running s.toSched := by
  obtain ⟨-, p, i, hs⟩ := h.cases
  intro q
  rw [hs]
  by_cases hq : q = p
  · subst hq; simp
  · simp only [Function.update_of_ne hq, Tcb.zero, Option.some.injEq, reduceCtorEq, false_iff]
    exact fun hpq => hq hpq.symm

theorem KernelReach.running {s : Kernel} (h : KernelReach StepRunOk s) : Running s.toSched := by
  refine Reachable.invariant (fun s => Running s.toSched) (fun s hs => hs.running)
    (fun s i s' hreach hr hok hs => ?_) h
  obtain ⟨k, o, heff, hpick, -⟩ := next_cases (KernelReach.tableWf hreach) hs
  exact (hpick.running (heff.running hr hok.2)).1

/-- **The running thread is unique**: along every run of allowed actions, when a
handler ends with no active thread no thread of the table runs, and when
`int_handler` returns a thread it is the active one, it runs, and no other thread
of the table does. -/
theorem unique_running {s : Kernel} (h : KernelReach StepRunOk s) {i : Input}
    (hok : StepRunOk s i) :
    (∀ s₁ info, handled s i = .ok (s₁, info) → s₁.active = none →
      ∀ j p, s₁.table j = some p → (s₁.tcb p).state ≠ .running) ∧
    ∀ t s' info, step s i = .ok (some t, s', info) →
      s'.active = some t ∧ (s'.tcb t).state = .running ∧
        ∀ j p, s'.table j = some p → (s'.tcb p).state = .running → p = t := by
  refine ⟨fun s₁ info h₁ hnone j p _ hrun => ?_, fun t s' info hs => ?_⟩
  · have hr := (handled_effect h.tableWf h₁).1.running h.running hok
    have hact := (hr p).mp hrun
    rw [hnone] at hact
    exact absurd hact (by simp)
  · obtain ⟨s₁, h₁, h₂⟩ := step_cases hs
    obtain ⟨heff, hw₁⟩ := handled_effect h.tableWf h₁
    obtain ⟨hr, hact⟩ := (schedule_picks hw₁ h₂).1.running (heff.running h.running hok)
    refine ⟨hact, (hr t).mpr hact, fun j p _ hrun => ?_⟩
    have hp := (hr p).mp hrun
    rw [hact, Option.some.injEq] at hp
    exact hp.symm

/-- A spawn, a preemption and a wait; then the first thread yields. -/
theorem unique_running_yield : ∃ s, KernelReach StepRunOk s ∧ StepRunOk s (callOf 0x04 0) ∧
    ∃ t s' info, step s (callOf 0x04 0) = .ok (some t, s', info) ∧ s'.active = some t := by
  obtain ⟨s, hs, hf⟩ := exists_bootRun StepRunOk [callOf 0x02 0, irqOf 0, callOf 0x0D 5]
    (fun s => decide (StepRunOk s (callOf 0x04 0)) &&
      (step s (callOf 0x04 0)).toOption.any fun x => x.1.isSome)
    (by decide +kernel)
  rw [Bool.and_eq_true, decide_eq_true_eq, Option.any_eq_true] at hf
  obtain ⟨hok, ⟨o, s', info⟩, hx, ho⟩ := hf
  obtain ⟨t, rfl⟩ := Option.isSome_iff_exists.mp ho
  have hstep := toOption_eq_some.mp hx
  exact ⟨s, hs, hok, t, s', info, hstep, ((unique_running hs hok).2 t s' info hstep).1⟩

/-- Thread 1 waits on event 1, thread 0 pauses it and resumes it: the handler ends
with no active thread, and thread 0 is still in `TS_RUNNING`. -/
theorem unique_running_fails : ∃ s s₁ info, KernelReach (fun _ _ => True) s ∧
    (callOf 0x06 1).Enabled s.toSched ∧ handled s (callOf 0x06 1) = .ok (s₁, info) ∧
    s₁.active = none ∧ ∃ p, s₁.table 0 = some p ∧ (s₁.tcb p).state = .running := by
  obtain ⟨s, hs, hf⟩ := exists_bootRun (fun _ _ => True)
    [callOf 0x02 0, irqOf 0, callOf 0x0D 1, callOf 0x05 1]
    (fun s => decide ((callOf 0x06 1).Enabled s.toSched) &&
      (handled s (callOf 0x06 1)).toOption.any fun x => x.1.active.isNone &&
        (x.1.table 0).any fun p => decide ((x.1.tcb p).state = .running))
    (by decide +kernel)
  simp only [Bool.and_eq_true, decide_eq_true_eq, Option.any_eq_true,
    Option.isNone_iff_eq_none] at hf
  obtain ⟨hen, ⟨s₁, info⟩, hx, hnone, p, hp, hrun⟩ := hf
  exact ⟨s, s₁, info, hs, hen, toOption_eq_some.mp hx, hnone, p, hp, hrun⟩

end Pinion
