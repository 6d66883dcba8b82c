/-
Pausing and resuming a thread that waits.

`PAUSE` of a `TS_WAITING` thread leaves it `TS_PAUSEDW`, with its event.  `RESUME`
then runs `event_wait` on its behalf, a routine written for a thread that blocks
itself: `thread_save` stores the FPU in the area of the target and releases the
processor, whoever holds it, and the state is set a second time.

* `Parked` — the thread is `TS_PAUSEDW` on the event;
* `Effect.rested` — a paused thread on no wait queue keeps its state and event;
* `PauseRun` — the runs from a `PAUSE` to a `RESUME`;
* `Restored` — what `RESUME` is meant to establish;
* `resume_waiting_never` — it never does.
-/
import Pinion.Partition

open LinkedQueue Runs

namespace Pinion

/-- The thread was paused while it waited on `e`. -/
def Parked (t : Ptr) (e : ℕ) (k : Sched) : Prop :=
  (k.tcb t).state = .pausedw ∧ (k.tcb t).event = e

instance (t : Ptr) (e : ℕ) (k : Sched) : Decidable (Parked t e k) :=
  inferInstanceAs (Decidable (_ ∧ _))

/-! ### What an entry leaves alone -/

/-- The state and the event of `t` do not differ. -/
def SameAt (t : Ptr) (k k' : Sched) : Prop :=
  (k'.tcb t).state = (k.tcb t).state ∧ (k'.tcb t).event = (k.tcb t).event

theorem SameAt.refl (t : Ptr) (k : Sched) : SameAt t k k := ⟨rfl, rfl⟩

theorem SameAt.trans {t : Ptr} {k₁ k₂ k₃ : Sched} (h : SameAt t k₁ k₂) (h' : SameAt t k₂ k₃) :
    SameAt t k₁ k₃ := ⟨h'.1.trans h.1, h'.2.trans h.2⟩

theorem SameAt.setState {t p : Ptr} (k : Sched) (st : TState) (hp : t ≠ p) :
    SameAt t k (k.setState p st) := by
  refine ⟨?_, setState_event k p t st⟩
  rw [setState_state, if_neg hp]

theorem SameAt.makeReady {t p : Ptr} (k : Sched) (hp : t ≠ p) : SameAt t k (makeReady k p) := by
  refine ⟨?_, ?_⟩
  · rw [makeReady_state, if_neg hp]
  · rw [makeReady_eq]

theorem SameAt.insert (t : Ptr) (q : Rdv) (k : Sched) (p : Ptr) : SameAt t k (rdvInsert q k p) := by
  refine ⟨rdvInsert_state q k p t, ?_⟩
  rw [rdvInsert_eq]
  cases q <;> rfl

theorem SameAt.waitOn {t p : Ptr} (k : Sched) (e : ℕ) (hp : t ≠ p) :
    SameAt t k (k.waitOn p e) := by
  unfold Sched.waitOn
  split
  · exact SameAt.makeReady k.release hp
  · refine SameAt.trans ?_ (SameAt.setState (evqueuePush k e p).release .waiting hp)
    refine ⟨?_, ?_⟩
    · rw [evqueuePush_eq]
      rfl
    · rw [evqueuePush_eq]
      exact if_neg hp

/-- A report wakes a blocked thread or writes links only. -/
theorem SameAt.report {t : Ptr} (k : Sched) (v : Side) (p : Ptr)
    (hw : ∀ w, (k.ends v.waiters).tail = some w → t ≠ w) : SameAt t k (k.report v p) := by
  unfold Sched.report
  cases htail : (k.ends v.waiters).tail with
  | none => exact SameAt.insert t _ k p
  | some w => exact SameAt.makeReady (rdvAdvance v.waiters k _) (hw w htail)

/-- A wake-up touches the front waiter only. -/
theorem SameAt.send {t : Ptr} (k : Sched) (e : ℕ)
    (hf : ∀ w, (k.evqueue e).frontThread = some w → t ≠ w) : SameAt t k (k.send e) := by
  have hwake : SameAt t k (k.wake e) := by
    unfold Sched.wake
    cases hfront : (k.evqueue e).frontThread with
    | none => exact SameAt.refl t k
    | some w =>
      have hne := hf w hfront
      refine SameAt.trans ?_ (SameAt.makeReady _ hne)
      refine ⟨?_, ?_⟩ <;> simp [evqueuePop, Sched.setEvqueue, Sched.upd, hne]
  exact hwake

/-- The waiters of a sound state are `TS_WAITING`. -/
theorem Sound.front_waiting {k : Sched} {q : Lists} {e : ℕ} {w : Ptr} (h : Sound k q)
    (hf : (k.evqueue e).frontThread = some w) : (k.tcb w).state = .waiting := by
  have hmem : w ∈ q.ev e := List.mem_of_head? ((h.links.ev.rep e).first_eq.symm.trans hf)
  exact ((h.placed w).ev e hmem).1

/-- The thread is paused and blocked on no wait queue. -/
structure Rested (k : Sched) (q : Lists) (t : Ptr) : Prop where
  state : (k.tcb t).state = .paused ∨ (k.tcb t).state = .pausedw
  off : ∀ v, t ∉ q.waiters v

theorem Rested.ne {k : Sched} {q : Lists} {t p : Ptr} (h : Rested k q t)
    (hp : (k.tcb p).state ≠ .paused) (hp' : (k.tcb p).state ≠ .pausedw) : t ≠ p := by
  rintro rfl
  exact h.state.elim hp hp'

theorem SameAt.sends {t : Ptr} (fired : List ℕ) : ∀ {k : Sched} {q : Lists}, Sound k q →
    Rested k q t → SameAt t k (fired.foldl Sched.send k) := by
  induction fired with
  | nil =>
    intro k q _ _
    exact SameAt.refl t k
  | cons e l ih =>
    intro k q h ht
    have hsend : SameAt t k (k.send e) := by
      refine SameAt.send k e fun w hw => ?_
      have hst := h.front_waiting hw
      exact ht.ne (by simp [hst]) (by simp [hst])
    obtain ⟨q', h', hw⟩ := h.send e
    refine hsend.trans (ih h' ⟨?_, fun v => ?_⟩)
    · rw [hsend.1]
      exact ht.state
    · rw [hw]
      exact ht.off v

/-- Waking takes the processor from nobody. -/
theorem Sound.send_active {k : Sched} {q : Lists} (h : Sound k q) (e : ℕ) :
    (k.send e).active = k.active := by
  show (k.wake e).active = k.active
  cases hf : (k.evqueue e).frontThread with
  | none =>
    unfold Sched.wake
    rw [hf]
  | some w => rw [wake_waiter hf (by rw [h.front_waiting hf]; decide), makeReady_active]

theorem Sound.sends_active (fired : List ℕ) : ∀ {k : Sched} {q : Lists}, Sound k q →
    (fired.foldl Sched.send k).active = k.active := by
  induction fired with
  | nil => exact fun _ => rfl
  | cons e l ih =>
    intro k q h
    obtain ⟨q', h', -⟩ := h.send e
    exact (ih h').trans (h.send_active e)

/-- Events reach waiting threads only. -/
theorem Sound.sends_same {t : Ptr} (fired : List ℕ) : ∀ {k : Sched} {q : Lists}, Sound k q →
    (k.tcb t).state ≠ .waiting → SameAt t k (fired.foldl Sched.send k) := by
  induction fired with
  | nil => exact fun _ _ => SameAt.refl t _
  | cons e l ih =>
    intro k q h ht
    have hsame : SameAt t k (k.send e) := by
      refine SameAt.send k e fun w hw => ?_
      rintro rfl
      exact ht (h.front_waiting hw)
    obtain ⟨q', h', -⟩ := h.send e
    exact hsame.trans (ih h' (by rw [hsame.1]; exact ht))

/-- **In a sound state a paused thread that is not blocked stays paused** until
`RESUME` names it. -/
theorem Effect.rested {k k' : Sched} {a : Act} {q : Lists} {t : Ptr}
    (h : Effect k.image k a k') (hs : Sound k q) (hid : IdsOk k)
    (hen : k.active = some k.image ∨ (∃ n, a = .irq n) ∨ ∃ f, a = .tick f)
    (hlive : Live k t) (ht : Rested k q t) (har : a ≠ .resume t) (ha : a ≠ .rewait t) :
    SameAt t k k' := by
  have hne : ∀ p, (k.tcb p).state = .queued ∨ (k.tcb p).state = .running ∨
      (k.tcb p).state = .waiting → t ≠ p := by
    intro p hp
    rcases hp with hp | hp | hp <;> exact ht.ne (by simp [hp]) (by simp [hp])
  -- the first waiter of a side is blocked
  have hwait : ∀ (v : Side) w, (k.ends v.waiters).tail = some w → t ≠ w := by
    rintro v w hw rfl
    exact ht.off v (List.mem_of_head? ((hs.links.waiters v).first_eq.symm.trans hw))
  have hcall : (∀ n, a ≠ .irq n) → (∀ f, a ≠ .tick f) → t ≠ k.image := by
    intro hi hf
    rcases hen with hact | ⟨n, hn⟩ | ⟨f, hf'⟩
    · exact hne _ (by simp [(hs.placed _).active hact])
    · exact absurd hn (hi n)
    · exact absurd hf' (hf f)
  cases h with
  | other => exact SameAt.refl t k
  | spawn fresh slot bound =>
    rename_i p i
    have hp : t ≠ p := by
      rintro rfl
      obtain ⟨j, hj⟩ := hlive
      exact fresh j hj
    rw [spawned_eq]
    refine ⟨?_, ?_⟩ <;> simp [hp]
  | spawnFull fresh full =>
    rename_i p
    have hp : t ≠ p := by
      rintro rfl
      obtain ⟨j, hj⟩ := hlive
      exact fresh j hj
    refine ⟨?_, ?_⟩ <;> simp [hp]
  | reap => exact SameAt.refl t _
  | yield => exact SameAt.makeReady k.release (hcall (by simp) (by simp))
  | pauseRunning state => exact SameAt.setState k.release _ (hne _ (by simp [state]))
  | pauseQueued live state remv =>
    obtain ⟨n, hd, tl, rfl⟩ := scheduleRemv_withRun remv
    exact SameAt.setState (k.withRun n hd tl) _ (hne _ (by simp [state]))
  | pauseWaiting state remv =>
    obtain ⟨n, ev, rfl⟩ := eventRemv_eq remv
    exact SameAt.setState { k with tcb := fun p => { k.tcb p with next := n p }, evqueue := ev } _
      (hne _ (by simp [state]))
  | resume => exact SameAt.makeReady k fun htp => har (congrArg Act.resume htp.symm)
  | rewait =>
    have hp := fun htp => ha (congrArg Act.rewait htp)
    exact (SameAt.waitOn k _ (fun h => hp h.symm)).trans (SameAt.setState _ _ fun h => hp h.symm)
  | rewaitBad =>
    have hp := fun htp => ha (congrArg Act.rewait htp)
    exact SameAt.setState k _ fun h => hp h.symm
  | kill =>
    rename_i p _ _
    unfold Sched.kill
    split
    · rename_i hr
      have hp := hne p (by simp [hr])
      exact SameAt.trans (SameAt.setState k.release .paused hp) (SameAt.report _ _ _ (hwait .dead))
    · exact SameAt.report _ _ _ (hwait .dead)
  | request =>
    rename_i v
    unfold Sched.request
    cases (k.ends v.items).tail with
    | none =>
      have hp := hcall (by simp) (by simp)
      exact (SameAt.setState k.release .paused hp).trans (SameAt.insert t _ _ _)
    | some d => exact SameAt.refl t _
  | wait live bound =>
    -- the waiter is the caller, found under its own id
    have hact : k.active = some k.image := by
      rcases hen with hact | ⟨n, hn⟩ | ⟨f, hf⟩
      · exact hact
      · cases hn
      · cases hf
    obtain ⟨i, hi⟩ := (hs.placed _).live ((hs.placed _).active hact)
    rw [hid i _ hi, Option.some.injEq] at live
    rw [← live]
    exact SameAt.waitOn k _ (hcall (by simp) (by simp))
  | reset => exact SameAt.refl t _
  | fault =>
    have hp := hcall (by simp) (by simp)
    exact SameAt.trans (SameAt.setState k.release .paused hp) (SameAt.report _ _ _ (hwait .fault))
  | irq =>
    refine SameAt.send k _ fun w hw => ?_
    exact hne w (by simp [hs.front_waiting hw])
  | tick =>
    rename_i fired _ _
    have hsends := SameAt.sends fired hs ht
    unfold Sched.tick
    dsimp only
    split
    · rename_i hr
      refine hsends.trans (SameAt.makeReady (Sched.release _) ?_)
      rintro rfl
      rw [hsends.1] at hr
      exact ht.ne (p := k.image) (by simp [hr]) (by simp [hr]) rfl
    · exact hsends

theorem Picks.rested {k k' : Sched} {o : Option Ptr} {q : Lists} {t : Ptr} (h : Picks k o k')
    (hs : Sound k q) (ht : Rested k q t) : SameAt t k k' := by
  cases h with
  | same => exact SameAt.refl t k
  | idle => exact SameAt.refl t k
  | next active head remv =>
    rename_i p _ _
    obtain ⟨n, hd, tl, rfl⟩ := scheduleRemv_withRun remv
    have hmem : p ∈ q.run := List.mem_of_head? (hs.links.run.first_eq.symm.trans head)
    refine SameAt.setState { k.withRun n hd tl with active := some p } .running ?_
    rcases ((hs.placed p).run hmem).1 with hst | hst <;> exact ht.ne (by simp [hst]) (by simp [hst])

/-! ### From `PAUSE` to `RESUME` -/

/-- Entry `i` is a `PAUSE` of `t`, which waits on `e`. -/
structure PausesAt (ok : Kernel → Input → Prop) (t : Ptr) (e : ℕ) (s : Kernel) (i : Input)
    (s' : Kernel) : Prop where
  reach : KernelReach ok s
  live : Live s.toSched t
  bound : e < EV_COUNT
  state : (s.tcb t).state = .waiting
  event : (s.tcb t).event = e
  enabled : i.Enabled s.toSched ∧ ok s i
  act : i.act s = .pause t
  step : s.next i = .ok s'

/-- The states of a run from such a `PAUSE` up to a `RESUME` of the thread, by any
entries that meet `ok`. -/
def PauseRun (ok : Kernel → Input → Prop) (t : Ptr) (e : ℕ) : Kernel → Prop :=
  Reachable Kernel.next (fun s i => (i.Enabled s.toSched ∧ ok s i) ∧ i.act s ≠ .rewait t)
    fun s' => ∃ s i, PausesAt ok t e s i s'

theorem PauseRun.reach {ok : Kernel → Input → Prop} {t : Ptr} {e : ℕ} {s : Kernel}
    (h : PauseRun ok t e s) : KernelReach ok s ∧ e < EV_COUNT := by
  refine Reachable.invariant (fun s => KernelReach ok s ∧ e < EV_COUNT) ?_ ?_ h
  · rintro s' ⟨s, i, hp⟩
    exact ⟨.next hp.reach hp.enabled hp.step, hp.bound⟩
  · rintro s i s' - ⟨hs, he⟩ ⟨hen, -⟩ hstep
    exact ⟨.next hs hen hstep, he⟩

/-! ### `RESUME` -/

/-- What `RESUME` of a thread parked on `e` should leave, `c` being the caller: the
thread is the last waiter of `e`, or on the run queue if `e` is latched, its state
says so, the caller still runs, and the stored registers and FPU area of the thread
are as before. -/
structure Restored (c t : Ptr) (e : ℕ) (s s' : Kernel) : Prop where
  waits : s.irqstate e = 0 → (s'.tcb t).state = .waiting ∧ ∃ l, EvQ s'.toSched e (l ++ [t])
  queues : s.irqstate e ≠ 0 → (s'.tcb t).state = .queued ∧ ∃ l, RunQ s'.toSched l ∧ t ∈ l
  caller : s'.active = some c ∧ (s'.tcb c).state = .running
  image : s'.img t = s.img t
  fpu : ∀ p, (s.img t).fxdata = some p → s'.fx p = s.fx p

/-- A `rewait` is a `RESUME` call of the active thread outside user mode. -/
theorem Input.act_rewait {s : Kernel} {i : Input} {t : Ptr} (h : i.act s = .rewait t) :
    ∃ r env, i = .call r env ∧ (s.img s.image).flags &&& TF_USER = 0 ∧
      Call.ofEax r.eax = .resume ∧ threadGet s.toSched r.ebx.toInt = some t ∧
      (s.tcb t).state = .pausedw := by
  cases i with
  | irq n r env =>
    simp only [Input.act] at h
    split at h <;> cases h
  | fault n r env =>
    simp only [Input.act] at h
    split at h <;> cases h
  | call r env =>
    simp only [Input.act] at h
    split at h
    · cases h
    · rename_i hf
      refine ⟨r, env, rfl, not_not.mp hf, ?_⟩
      cases hc : Call.ofEax r.eax <;> rw [hc] at h <;> simp only [callAct] at h
      case resume =>
        cases hg : threadGet s.toSched r.ebx.toInt with
        | none =>
          rw [hg] at h
          cases h
        | some p =>
          rw [hg, Option.map_some, Option.getD_some, resumeAct] at h
          split at h
          · cases h
          · rename_i hst
            cases h
            exact ⟨rfl, rfl, hst⟩
          · cases h
      case pause =>
        cases hn : s.toSched.named s.image r.ebx with
        | none =>
          rw [hn] at h
          cases h
        | some p =>
          rw [hn, Option.map_some, Option.getD_some, pauseAct] at h
          split at h <;> cases h
      all_goals first
        | cases h
        | (split at h <;> first | cases h | (split at h <;> cases h))

/-- `event_wait` on an event in range stores the FPU in the area of the thread it
is given. -/
theorem eventWait_fx {env : Env} {s s' : Kernel} {id r : ℤ} {e : ℕ} {t : Ptr}
    (hg : threadGet s.toSched id = some t) (he : e < EV_COUNT)
    (h : eventWait env s id e = .ok (r, s')) : s'.fx = (threadSave s t).fx := by
  by_cases hl : s.irqstate e = 0
  · rw [eventWait_queues hg he hl] at h
    cases h
    unfold threadSave
    dsimp only [Kernel.setState, Kernel.onSched]
    cases (s.img t).fxdata <;> rfl
  · rw [eventWait_latched hg he hl] at h
    cases h
    rfl

theorem threadSave_fx {s : Kernel} {t p : Ptr} (h : (s.img t).fxdata = some p) :
    (threadSave s t).fx p =
      fun i => if h : i.val < 27 then s.fpu ⟨i.val, h⟩ else s.fx p i := by
  simp only [threadSave, h, fpuSave, Function.update_self]

/-- The FPU area of a thread after `RESUME` found it parked. -/
theorem resume_fx {s s' : Kernel} {i : Input} {t p : Ptr} {e : ℕ} {info : TInfo} (hw : TableWf s)
    (hp : Parked t e s.toSched) (he : e < EV_COUNT) (hi : i.act s = .rewait t)
    (h : handled s i = .ok (s', info)) (hfx : (s.img t).fxdata = some p) :
    s'.fx p = fun j => if hj : j.val < 27 then s.fpu ⟨j.val, hj⟩ else s.fx p j := by
  obtain ⟨r, env, rfl, huser, hcall, hget, hst⟩ := Input.act_rewait hi
  rw [handled_call] at h
  set s₀ := trap s (.call r env) with hs₀
  -- the trap writes registers of the caller's image only
  have himg : s₀.img = Function.update s.img s.image
      (pushFrame s.image 0x81 r (s.img s.image)) := rfl
  have hflags : (s₀.img s.image).flags = (s.img s.image).flags := by
    rw [himg, Function.update_self]
    rfl
  have hregs : (s₀.img s.image).eax = r.eax ∧ (s₀.img s.image).ebx = r.ebx := by
    rw [himg, Function.update_self]
    exact ⟨rfl, rfl⟩
  have hfx₀ : (s₀.img t).fxdata = some p := by
    rw [himg]
    by_cases ht : t = s.image
    · rw [← ht, Function.update_self]
      exact hfx
    · rw [Function.update_of_ne ht]
      exact hfx
  have hget' : threadGet s₀.toSched (s₀.tcb t).id = some t := by
    obtain ⟨j, -, -, hj⟩ := threadGet_eq_some hget
    exact hw.get hj
  unfold kcall at h
  rw [hflags, huser, if_neg (by simp), kernelCall, hregs.1, hcall] at h
  obtain ⟨s₁, h₁, h⟩ := map_eq_ok.mp h
  rw [kcallResume, hregs.2, show s₀.toSched = s.toSched from rfl, hget] at h₁
  dsimp only at h₁
  rw [hst] at h₁
  obtain ⟨⟨v, s₂⟩, h₂, h₁⟩ := bind_eq_ok.mp h₁
  cases h
  cases h₁
  have hev : (s₀.tcb t).event = e := hp.2
  rw [show s.tcb t = s₀.tcb t from rfl, hev] at h₂
  have hfx₂ := congrFun (eventWait_fx hget' he h₂) p
  rw [threadSave_fx hfx₀] at hfx₂
  exact hfx₂

/-- **`RESUME` never restores a parked thread**: however the run came there, when
its handler ends no thread is active, the thread is `TS_WAITING` even if it went to
the run queue, and its FPU area holds the registers of the caller.  In a run of
allowed actions the caller does not run again either. -/
theorem resume_waiting_never {t : Ptr} {e : ℕ} {s : Kernel} {i : Input}
    (h : PauseRun (fun _ _ => True) t e s) (hp : Parked t e s.toSched)
    (hi : i.act s = .rewait t) :
    (∀ s' info, handled s i = .ok (s', info) → ¬Restored s.image t e s s' ∧
      s'.active = none ∧ (s'.tcb t).state = .waiting ∧
      ∀ p, (s.img t).fxdata = some p →
        s'.fx p = fun j => if hj : j.val < 27 then s.fpu ⟨j.val, hj⟩ else s.fx p j) ∧
    (KernelReach StepBlockOk s → i.Enabled s.toSched →
      ∀ o s' info, step s i = .ok (o, s', info) → s'.active ≠ some s.image) := by
  obtain ⟨hreach, he⟩ := h.reach
  have hw := hreach.tableWf
  have hsched : ∀ s' info, handled s i = .ok (s', info) →
      s'.toSched = (s.toSched.waitOn t e).setState t .waiting := by
    intro s' info hh
    have heff := (handled_effect hw hh).1
    rw [hi] at heff
    generalize hk : s'.toSched = k at heff
    cases heff with
    | rewait live state event bound =>
      have hee := event.symm.trans hp.2
      rw [Int.natCast_inj.mp hee]
    | rewaitBad state event =>
      rw [hp.2] at event
      omega
  have hnone : ∀ s' info, handled s i = .ok (s', info) → s'.active = none := by
    intro s' info hh
    rw [hsched s' info hh]
    unfold Sched.waitOn
    split
    · exact makeReady_active _ _
    · rfl
  refine ⟨fun s' info hh => ⟨fun hr => ?_, hnone s' info hh, ?_, fun p hfx => ?_⟩,
    fun hblock hen o s' info hstep hact => ?_⟩
  · have hcaller := hr.caller.1
    rw [hnone s' info hh] at hcaller
    cases hcaller
  · rw [hsched s' info hh, setState_state, if_pos rfl]
  · exact resume_fx hw hp he hi hh hfx
  · -- the caller is still `TS_RUNNING`, so it is not on the run queue
    obtain ⟨s₁, h₁, h₂⟩ := step_cases hstep
    obtain ⟨q, hq⟩ := hblock.sound
    obtain ⟨heff, hw₁⟩ := handled_effect hw h₁
    have hen' := Input.enabled_cases hen
    obtain ⟨q₁, hq₁, -⟩ := heff.sound hq hw.idsOk hen' (by rw [hi]; trivial)
    have hcaller : s.active = some s.image := by
      rw [hi] at hen'
      rcases hen' with hact | ⟨n, hn⟩ | ⟨f, hf⟩
      · exact hact
      · cases hn
      · cases hf
    have hrun := (hq.placed _).active hcaller
    have hct : s.image ≠ t := by
      rintro rfl
      rw [hp.1] at hrun
      cases hrun
    have hrun₁ : (s₁.tcb s.image).state = .running := by
      rw [hsched s₁ info h₁]
      exact ((SameAt.waitOn _ e hct).trans (SameAt.setState _ _ hct)).1.trans hrun
    have hpick := (schedule_picks hw₁ h₂).1
    generalize hk : s'.toSched = k at hpick hact
    cases hpick with
    | same active =>
      rw [hnone s₁ info h₁] at active
      cases active
    | idle active => 
      rw [hnone s₁ info h₁] at hact
      cases hact
    | next active head remv =>
      rename_i p _ _
      have hmem : p ∈ q₁.run := List.mem_of_head? (hq₁.links.run.first_eq.symm.trans head)
      have hpc : p = s.image := Option.some.inj hact
      exact (hq₁.off_running hrun₁).run (hpc ▸ hmem)

/-- Thread 1 waits on event 1, thread 0 pauses it, the entries `is` arrive, and the
state passes a test. -/
theorem exists_pauseRun (is : List Input) (f : Kernel → Ptr → Bool)
    (h : ((bootRun (fun _ _ => True) [callOf 0x02 0, irqOf 0, callOf 0x0D 1]).any fun s₀ =>
      (s₀.table 1).any fun t => decide ((s₀.tcb t).state = .waiting) &&
        decide ((s₀.tcb t).event = 1) && decide ((callOf 0x05 1).Enabled s₀.toSched) &&
        decide ((callOf 0x05 1).act s₀ = .pause t) &&
        (s₀.next (callOf 0x05 1)).toOption.any fun s₁ =>
          (replay Kernel.next (fun s i => (i.Enabled s.toSched ∧ True) ∧ i.act s ≠ .rewait t) is
            s₁).any fun s => decide (Parked t 1 s.toSched) &&
              decide ((callOf 0x06 1).Enabled s.toSched) &&
              decide ((callOf 0x06 1).act s = .rewait t) && f s t) = true) :
    ∃ s t, PauseRun (fun _ _ => True) t 1 s ∧ Parked t 1 s.toSched ∧
      (callOf 0x06 1).Enabled s.toSched ∧ (callOf 0x06 1).act s = .rewait t ∧ f s t = true := by
  simp only [Option.any_eq_true, Bool.and_eq_true, decide_eq_true_eq] at h
  obtain ⟨s₀, h₀, t, ht, ⟨⟨⟨⟨hst, hev⟩, hen⟩, hact⟩, s₁, h₁, s, hs, ⟨⟨hp, hen'⟩, hact'⟩, hf⟩⟩ := h
  have hpause : PausesAt (fun _ _ => True) t 1 s₀ (callOf 0x05 1) s₁ :=
    ⟨bootRun_reach h₀, ⟨1, ht⟩, by decide, hst, by exact_mod_cast hev, ⟨hen, trivial⟩, hact,
      toOption_eq_some.mp h₁⟩
  exact ⟨s, t, Reachable.of_replay (.start ⟨s₀, _, hpause⟩) hs, hp, hen', hact', hf⟩

/-- Thread 0 resumes thread 1 with event 1 not latched. -/
theorem resume_waiting_never_unlatched : ∃ s t s' info, PauseRun (fun _ _ => True) t 1 s ∧
    handled s (callOf 0x06 1) = .ok (s', info) ∧ ¬Restored s.image t 1 s s' := by
  obtain ⟨s, t, hrun, hp, -, hact, hf⟩ := exists_pauseRun []
    (fun s _ => (handled s (callOf 0x06 1)).toOption.isSome) (by decide +kernel)
  obtain ⟨⟨s', info⟩, hx⟩ := Option.isSome_iff_exists.mp hf
  have hh := toOption_eq_some.mp hx
  exact ⟨s, t, s', info, hrun, hh, ((resume_waiting_never hrun hp hact).1 s' info hh).1⟩

/-- The IRQ arrives while thread 1 is paused: `RESUME` leaves it on the run queue in
state `TS_WAITING`, and nobody is active. -/
theorem resume_waiting_fails : ∃ s t s' info, PauseRun (fun _ _ => True) t 1 s ∧
    (callOf 0x06 1).Enabled s.toSched ∧ (callOf 0x06 1).act s = .rewait t ∧
    handled s (callOf 0x06 1) = .ok (s', info) ∧ s.irqstate 1 ≠ 0 ∧ s'.schedHead = some t ∧
    (s'.tcb t).state = .waiting ∧ s'.active = none ∧ ¬Restored s.image t 1 s s' := by
  obtain ⟨s, t, hrun, -, hen, hact, hf⟩ := exists_pauseRun [irqOf 1]
    (fun s t => (handled s (callOf 0x06 1)).toOption.any fun (x : Kernel × TInfo) =>
      decide (s.irqstate 1 ≠ 0) && decide (x.1.schedHead = some t) &&
        decide ((x.1.tcb t).state = .waiting) && decide (x.1.active = none)) (by decide +kernel)
  simp only [Option.any_eq_true, Bool.and_eq_true, decide_eq_true_eq] at hf
  obtain ⟨⟨s', info⟩, hx, ⟨⟨hl, hhead⟩, hst⟩, hnone⟩ := hf
  refine ⟨s, t, s', info, hrun, hen, hact, toOption_eq_some.mp hx, hl, hhead, hst, hnone, ?_⟩
  intro hr
  have hq := (hr.queues hl).1
  rw [hst] at hq
  cases hq

end Pinion
