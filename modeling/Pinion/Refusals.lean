/-
Thread calls with a bad target.

Five calls name a thread in `ebx`.  They are to return `TE_EXIST` if there is none,
`TE_STATE` if the call does not admit its state, with no other effect, and 0 otherwise.
* `TargetCall` — the calls, which of them take `-1` for the caller, and what they admit;
* `Answers` — what is said about a call in a state;
* `pause_answers`, `resume_answers`, `getstate_answers`, `reap_answers`,
  `setstate_answers` — when it holds, call by call;
* `bad_targets_iff` — it fails for a `REAP` of a thread that does not exist, and for the
  first `SETSTATE` of a thread when the heap has no room for its FPU area.
-/
import Pinion.Walks
import Pinion.Exit
import Pinion.Areas

open LinkedQueue Runs

namespace Pinion

/-! ### The calls -/

/-- The calls that name a thread. -/
inductive TargetCall
  | reap
  | pause
  | resume
  | getstate
  | setstate
  deriving DecidableEq

namespace TargetCall

/-- Its number. -/
def call : TargetCall → Call
  | .reap => .reap
  | .pause => .pause
  | .resume => .resume
  | .getstate => .getstate
  | .setstate => .setstate

/-- The call takes `-1` for the caller. -/
def TakesSelf : TargetCall → Prop
  | .reap | .resume => False
  | .pause | .getstate | .setstate => True

instance : ∀ a : TargetCall, Decidable a.TakesSelf
  | .reap | .resume => isFalse id
  | .pause | .getstate | .setstate => isTrue trivial

/-- The thread the call is about. -/
def target (a : TargetCall) (k : Sched) (c : Ptr) (ebx : U32) : Option Ptr :=
  if a.TakesSelf ∧ ebx = -1 then some c else threadGet k ebx.toInt

/-- The call admits the state of its target. -/
def Admits (k : Sched) (c t : Ptr) : TargetCall → Prop
  | .reap => (k.tcb t).state = .paused
  | .pause => (k.tcb t).state = .running ∨ (k.tcb t).state = .queued ∨ (k.tcb t).state = .waiting
  | .resume => (k.tcb t).state = .paused ∨ (k.tcb t).state = .pausedw
  | .getstate => (k.tcb t).state = .paused ∨ (k.tcb t).state = .pausedw ∨ t = c
  | .setstate => Settable (k.tcb t).state

end TargetCall

/-- A call in the state `s`, at the start of its handler, with what it finds in `ebx`. -/
structure Answers (a : TargetCall) (env : Env) (s : Kernel) (c : Ptr) : Prop where
  exist : a.target s.toSched c (s.img c).ebx = none →
    kcall env s c = .ok (s.setEax c TE_EXIST, env.info)
  state : ∀ t, a.target s.toSched c (s.img c).ebx = some t → ¬a.Admits s.toSched c t →
    kcall env s c = .ok (s.setEax c TE_STATE, env.info)
  zero : ∀ t, a.target s.toSched c (s.img c).ebx = some t → a.Admits s.toSched c t →
    ∃ s' info, kcall env s c = .ok (s', info) ∧ (s'.img c).eax = 0

section Answers

variable {env : Env} {s : Kernel} {c t : Ptr}

/-- `c` makes a kernel call from system mode. -/
structure Calls (s : Kernel) (c : Ptr) (call : Call) : Prop where
  mode : (s.img c).flags &&& TF_USER = 0
  call : Call.ofEax (s.img c).eax = call

theorem targetOrSelf_eq (a : TargetCall) (ha : a.TakesSelf) :
    a.target s.toSched c (s.img c).ebx = targetOrSelf s c := by
  unfold TargetCall.target targetOrSelf
  by_cases h : (s.img c).ebx = -1
  · rw [if_pos ⟨ha, h⟩, if_pos h]
  · rw [if_neg fun hc => h hc.2, if_neg h]

theorem threadGet_eq (a : TargetCall) (ha : ¬a.TakesSelf) :
    a.target s.toSched c (s.img c).ebx = threadGet s.toSched (s.img c).ebx.toInt := by
  rw [TargetCall.target, if_neg fun hc => ha hc.1]

/-- `PAUSE` answers as it should. -/
theorem pause_answers (h : Steady s.toSched) (hc : Calls s c .pause) :
    Answers .pause env s c := by
  have hk : kcall env s c = (·, env.info) <$> kcallPause s c := by
    rw [kcall, if_neg (not_not.mpr hc.mode), kernelCall, hc.call]
  refine ⟨fun hnone => ?_, fun t ht hst => ?_, fun t ht hst => ?_⟩
  · rw [targetOrSelf_eq .pause trivial] at hnone
    rw [hk, kcallPause, hnone]
    rfl
  · rw [targetOrSelf_eq .pause trivial] at ht
    obtain ⟨hr, hst⟩ := not_or.mp hst
    obtain ⟨hq, hw⟩ := not_or.mp hst
    rw [hk, kcallPause, ht]
    dsimp only
    cases hstate : (s.tcb t).state with
    | running => exact absurd hstate hr
    | queued => exact absurd hstate hq
    | waiting => exact absurd hstate hw
    | _ => rfl
  · rw [targetOrSelf_eq .pause trivial] at ht
    rw [hk, kcallPause, ht]
    dsimp only
    rcases hst with hr | hq | hw
    · rw [hr]
      exact ⟨_, _, rfl, setEax_eax _ _ _⟩
    · obtain ⟨r, k, hremv, -⟩ := h.scheduleRemv t
      rw [hq]
      dsimp only
      rw [hremv]
      exact ⟨_, _, rfl, setEax_eax _ _ _⟩
    · obtain ⟨r, k, hremv, -⟩ := h.eventRemv (s.tcb t).id (s.tcb t).event
      rw [hw]
      dsimp only
      rw [hremv]
      exact ⟨_, _, rfl, setEax_eax _ _ _⟩

/-- `event_wait` returns for an event in range. -/
theorem eventWait_total (env : Env) (s : Kernel) (id : ℤ) {e : ℤ} (he : 0 ≤ e ∧ e < EV_COUNT) :
    ∃ r s', eventWait env s id e = .ok (r, s') := by
  unfold eventWait
  split
  · exact ⟨_, _, rfl⟩
  · rw [if_neg (by omega), if_neg (by omega)]
    split
    · exact ⟨_, _, rfl⟩
    · exact ⟨_, _, rfl⟩

/-- `RESUME` answers as it should. -/
theorem resume_answers (h : Steady s.toSched) (hc : Calls s c .resume) :
    Answers .resume env s c := by
  have hk : kcall env s c = (·, env.info) <$> kcallResume env s c := by
    rw [kcall, if_neg (not_not.mpr hc.mode), kernelCall, hc.call]
  refine ⟨fun hnone => ?_, fun t ht hst => ?_, fun t ht hst => ?_⟩
  · rw [threadGet_eq .resume id] at hnone
    rw [hk, kcallResume, hnone]
    rfl
  · rw [threadGet_eq .resume id] at ht
    obtain ⟨hp, hw⟩ := not_or.mp hst
    rw [hk, kcallResume, ht]
    dsimp only
    cases hstate : (s.tcb t).state with
    | paused => exact absurd hstate hp
    | pausedw => exact absurd hstate hw
    | _ => rfl
  · rw [threadGet_eq .resume id] at ht
    rw [hk, kcallResume, ht]
    dsimp only
    rcases hst with hp | hw
    · rw [hp]
      exact ⟨_, _, rfl, setEax_eax _ _ _⟩
    · obtain ⟨r, s', hwait⟩ := eventWait_total env s (s.tcb t).id (h.events t (.inr hw))
      rw [hw]
      dsimp only
      rw [hwait]
      exact ⟨_, _, rfl, setEax_eax _ _ _⟩

/-- `GETSTATE` answers as it should. -/
theorem getstate_answers (hc : Calls s c .getstate) : Answers .getstate env s c := by
  have hk : kcall env s c = .ok (kcallGetstate env s c) := by
    rw [kcall, if_neg (not_not.mpr hc.mode), kernelCall, hc.call]
  refine ⟨fun hnone => ?_, fun t ht hst => ?_, fun t ht hst => ?_⟩
  · rw [targetOrSelf_eq .getstate trivial] at hnone
    rw [hk, kcallGetstate, hnone]
  · rw [targetOrSelf_eq .getstate trivial] at ht
    obtain ⟨hp, hst⟩ := not_or.mp hst
    rw [hk, kcallGetstate, ht]
    dsimp only
    rw [if_pos ⟨hp, not_or.mp hst⟩]
  · rw [targetOrSelf_eq .getstate trivial] at ht
    rw [hk, kcallGetstate, ht]
    dsimp only
    rw [if_neg fun hn => hst.elim hn.1 fun hst => hst.elim hn.2.1 hn.2.2]
    exact ⟨_, _, rfl, setEax_eax _ _ _⟩

/-- `REAP` answers as it should if the thread exists. -/
theorem reap_answers (hc : Calls s c .reap) :
    Answers .reap env s c ↔ threadGet s.toSched (s.img c).ebx.toInt ≠ none := by
  have hk : kcall env s c = kcallReap env s c := by
    rw [kcall, if_neg (not_not.mpr hc.mode), kernelCall, hc.call]
  have htarget := @threadGet_eq s c .reap id
  constructor
  · intro h hnone
    have hexist := h.exist (htarget.trans hnone)
    rw [hk, kcallReap, hnone] at hexist
    cases hexist
  · intro hsome
    refine ⟨fun hnone => ?_, fun t ht hst => ?_, fun t ht hst => ?_⟩
    · exact absurd (htarget.symm.trans hnone) hsome
    · rw [htarget] at ht
      rw [hk, kcallReap, ht]
      exact if_pos hst
    · rw [htarget] at ht
      rw [hk, kcallReap, ht]
      refine ⟨_, _, if_neg (not_not.mpr hst), ?_⟩
      by_cases hct : c = t
      · subst hct
        simp [threadKill, Kernel.setEax, Kernel.updImg]
      · simp [threadKill, Kernel.setEax, Kernel.updImg, hct]

/-! ### `SETSTATE` -/

/-- `SETSTATE` gives the target its FPU area: it has none, and it does not run, or dies. -/
def FirstArea (s : Kernel) (t : Ptr) (src : TInfo) : Prop :=
  ((s.tcb t).state ≠ .running ∨ src.flags &&& TF_DEAD ≠ 0) ∧ (s.img t).fxdata = none

/-- Memory with the context that `SETSTATE` loads. -/
def Kernel.loadedFor (s : Kernel) (t : Ptr) (src : TInfo) : Mem :=
  if (s.img t).pctx ≠ src.pctx then (pctxLoad s.mm src.pctx.toInt).2 else s.mm

/-- The heap has a block for an FPU area. -/
def AreaRoom (m : Mem) : Prop := ∃ p m', heapAlloc m 512 = .ok (some p, m')

/-- A killed thread does not run. -/
theorem kill_not_running (k : Sched) (t : Ptr) : ((k.kill t).tcb t).state ≠ .running := by
  unfold Sched.kill
  split
  · refine report_not_running ?_
    rw [setState_state, if_pos rfl]
    exact fun h => by cases h
  · exact report_not_running ‹_›

/-- What the first half of `SETSTATE` leaves for the copy of the registers. -/
theorem setstateBegin_spec (src src' : TInfo) (s : Kernel) (t : Ptr) :
    ((setstateBegin src src' s t).img t).fxdata = (s.img t).fxdata ∧
      (setstateBegin src src' s t).mm = s.loadedFor t src ∧
      (((setstateBegin src src' s t).tcb t).state ≠ .running ↔
        (s.tcb t).state ≠ .running ∨ src.flags &&& TF_DEAD ≠ 0) := by
  obtain ⟨-, hattrs⟩ := setstateBegin_img src src' s t
  refine ⟨congrArg (·.2.1) hattrs, (setstateBegin_mm src src' s t).1, ?_⟩
  have hsched : (setstateBegin src src' s t).toSched =
      if src.flags &&& TF_DEAD ≠ 0 then s.toSched.kill t else s.toSched := by
    unfold setstateBegin setstateOpen setstateLoad
    by_cases hdead : src.flags &&& TF_DEAD ≠ 0
    · simp only [if_pos hdead]
      rw [← (setstateKill_kill s t).1]
      split <;> rfl
    · simp only [if_neg hdead]
      split <;> rfl
  rw [hsched]
  split
  · rename_i hdead
    exact ⟨fun _ => .inr hdead, fun _ => kill_not_running _ _⟩
  · rename_i hdead
    exact ⟨.inl, fun h => h.resolve_right hdead⟩

/-- `SETSTATE` answers as it should if it can read the `t_info` in the context it loads, and
the heap has the FPU area it may need. -/
theorem setstate_answers (hc : Calls s c .setstate) :
    Answers .setstate env s c ↔ ∀ t, targetOrSelf s c = some t → Settable (s.tcb t).state →
      (∃ src, env.stored s t = .ok src) ∧
        (FirstArea s t env.info → AreaRoom (s.loadedFor t env.info)) := by
  have hk : kcall env s c = (·, env.info) <$> kcallSetstate env s c := by
    rw [kcall, if_neg (not_not.mpr hc.mode), kernelCall, hc.call]
  have htarget := @targetOrSelf_eq s c .setstate trivial
  constructor
  · intro h t ht hst
    obtain ⟨s', info, hok, -⟩ := h.zero t (htarget.trans ht) hst
    rw [hk, kcallSetstate_eq ht hst] at hok
    obtain ⟨s₂, hok, -⟩ := map_eq_ok.mp hok
    obtain ⟨src, hsrc, hset⟩ := bind_eq_ok.mp hok
    refine ⟨⟨src, hsrc⟩, ?_⟩
    rintro ⟨hrun, hnone⟩
    obtain ⟨hfx, hmm, hstate⟩ := setstateBegin_spec env.info src s t
    rw [if_pos (hstate.mpr hrun)] at hset
    obtain ⟨s₁, hcopy, -⟩ := bind_eq_ok.mp hset
    obtain ⟨-, q, hq, -⟩ := setstateCopy_img hcopy
    rw [hfx, hmm] at hq
    rcases hq with ⟨hsome, -⟩ | ⟨-, halloc⟩
    · rw [hnone] at hsome
      cases hsome
    · exact ⟨q, _, halloc⟩
  · intro hroom
    refine ⟨fun hnone => ?_, fun t ht hst => ?_, fun t ht hst => ?_⟩
    · rw [hk, kcallSetstate, htarget.symm.trans hnone]
      rfl
    · have hrefused : kcallSetstate env s c = .ok (s.setEax c TE_STATE) := by
        rw [kcallSetstate, htarget.symm.trans ht]
        exact if_neg hst
      rw [hk, hrefused]
      rfl
    · have ht' := htarget.symm.trans ht
      obtain ⟨⟨src, hsrc⟩, hroom⟩ := hroom t ht' hst
      obtain ⟨hfx, hmm, hstate⟩ := setstateBegin_spec env.info src s t
      rw [hk, Stores.kcallSetstate_eq ⟨ht', hst, hsrc⟩]
      by_cases hrun : ((setstateBegin env.info src s t).tcb t).state ≠ .running
      · have hfull : FxRoom (setstateBegin env.info src s t) t := by
          intro hnone
          rw [hmm]
          exact hroom ⟨hstate.mp hrun, hfx.symm.trans hnone⟩
        obtain ⟨s₁, hcopy, -⟩ := setstateCopy_room src hfull
        rw [if_pos hrun, hcopy]
        exact ⟨_, _, rfl, setEax_eax _ _ _⟩
      · rw [if_neg hrun]
        exact ⟨_, _, rfl, setEax_eax _ _ _⟩

end Answers

/-! ### Every call in every reachable state -/

theorem trap_attrs (s : Kernel) (i : Input) (p : Ptr) :
    ((trap s i).img p).pctx = (s.img p).pctx ∧ ((trap s i).img p).fxdata = (s.img p).fxdata := by
  by_cases hp : p = s.active.getD idleImage
  · simp only [trap, Kernel.updImg, hp, Function.update_self]
    exact ⟨rfl, rfl⟩
  · simp only [trap, Kernel.updImg, Function.update_of_ne hp]
    exact ⟨trivial, trivial⟩

theorem trap_loadedFor (s : Kernel) (i : Input) (t : Ptr) (src : TInfo) :
    (trap s i).loadedFor t src = s.loadedFor t src := by
  rw [Kernel.loadedFor, Kernel.loadedFor, (trap_attrs s i t).1]
  rfl

theorem trap_firstArea (s : Kernel) (i : Input) (t : Ptr) (src : TInfo) :
    FirstArea (trap s i) t src ↔ FirstArea s t src := by
  rw [FirstArea, FirstArea, (trap_attrs s i t).2]
  rfl

/-- **A thread call answers as it should** in a reachable state if and only if it is no
`REAP` of a thread that does not exist and, when it is a `SETSTATE`, finds the `t_info`
mapped in the context that it loads and a block in the heap for the FPU area it may give. -/
theorem bad_targets_iff {s : Kernel} {c : Ptr} (a : TargetCall) (r : UserRegs) (env : Env)
    (h : KernelReach (fun _ _ => True) s) (hs : SystemThread c s)
    (hr : Call.ofEax r.eax = a.call) :
    Answers a env (trap s (.call r env)) c ↔
      (a = .reap → threadGet s.toSched r.ebx.toInt ≠ none) ∧
      (a = .setstate → ∀ t, s.toSched.named c r.ebx = some t → Settable (s.tcb t).state →
        (∃ src, env.stored s t = .ok src) ∧
          (FirstArea s t env.info → AreaRoom (s.loadedFor t env.info))) := by
  obtain ⟨hmode, hcall⟩ := kcall_system hs r env hr
  have hcalls : Calls (trap s (.call r env)) c a.call := ⟨hmode, hcall⟩
  have hsteady : Steady s.toSched := KernelReach.steady h
  have hebx := (trap_regs hs r env).2.1
  -- the condition is about two of the calls
  have hother : a ≠ .reap → a ≠ .setstate →
      (a = .reap → threadGet s.toSched r.ebx.toInt ≠ none) ∧
      (a = .setstate → ∀ t, s.toSched.named c r.ebx = some t → Settable (s.tcb t).state →
        (∃ src, env.stored s t = .ok src) ∧
          (FirstArea s t env.info → AreaRoom (s.loadedFor t env.info))) :=
    fun h₁ h₂ => ⟨fun h => absurd h h₁, fun h => absurd h h₂⟩
  cases a with
  | pause => exact iff_of_true (pause_answers hsteady hcalls) (hother (by decide) (by decide))
  | resume => exact iff_of_true (resume_answers hsteady hcalls) (hother (by decide) (by decide))
  | getstate => exact iff_of_true (getstate_answers hcalls) (hother (by decide) (by decide))
  | reap =>
    rw [reap_answers hcalls, hebx]
    have hne : TargetCall.reap ≠ .setstate := by decide
    exact ⟨fun hsome => ⟨fun _ => hsome, fun h => absurd h hne⟩, fun hcond => hcond.1 rfl⟩
  | setstate =>
    have hnamed : targetOrSelf (trap s (.call r env)) c = s.toSched.named c r.ebx := by
      rw [targetOrSelf, hebx]
      rfl
    rw [setstate_answers hcalls, hnamed]
    constructor
    · intro hroom
      have hne : TargetCall.setstate ≠ .reap := by decide
      refine ⟨fun h => absurd h hne, fun _ t ht hst => ?_⟩
      have hsrc := hroom t ht hst
      rwa [trap_stored, trap_loadedFor, trap_firstArea] at hsrc
    · rintro ⟨-, hroom⟩ t ht hst
      rw [trap_stored, trap_loadedFor, trap_firstArea]
      exact hroom rfl t ht hst

/-- `REAP` of a thread that exists. -/
theorem bad_targets_reap : ∃ s c, KernelReach (fun _ _ => True) s ∧ SystemThread c s ∧
    Answers .reap noEnv (trap s (.call (stubRegs idleRegs 0x0B 1 0) noEnv)) c := by
  obtain ⟨s, hs, hf⟩ := exists_bootRun (fun _ _ => True) [callOf 0x02 0]
    (fun s => s.active.any fun c => decide ((s.img c).flags &&& TF_USER = 0) &&
      decide (threadGet s.toSched 1 ≠ none)) (by decide +kernel)
  simp only [Bool.and_eq_true, decide_eq_true_eq, Option.any_eq_true] at hf
  obtain ⟨c, hact, hmode, hget⟩ := hf
  exact ⟨s, c, hs, ⟨hact, hmode⟩,
    (bad_targets_iff .reap (stubRegs idleRegs 0x0B 1 0) noEnv hs ⟨hact, hmode⟩ rfl).mpr
      ⟨fun _ => hget, nofun⟩⟩

/-- `REAP(5)` when there is one thread: the kernel reads through a null pointer. -/
theorem bad_targets_fail : ∃ s c, KernelReach (fun _ _ => True) s ∧ SystemThread c s ∧
    threadGet s.toSched 5 = none ∧
    kcall noEnv (trap s (.call (stubRegs idleRegs 0x0B 5 0) noEnv)) c = .error .kernelFault ∧
    ¬Answers .reap noEnv (trap s (.call (stubRegs idleRegs 0x0B 5 0) noEnv)) c := by
  obtain ⟨s, hs, hf⟩ := exists_bootRun (fun _ _ => True) []
    (fun s => s.active.any fun c => decide ((s.img c).flags &&& TF_USER = 0) &&
      decide (threadGet s.toSched 5 = none)) (by decide +kernel)
  simp only [Bool.and_eq_true, decide_eq_true_eq, Option.any_eq_true] at hf
  obtain ⟨c, hact, hmode, hget⟩ := hf
  have hsys : SystemThread c s := ⟨hact, hmode⟩
  set u := stubRegs idleRegs 0x0B 5 0
  obtain ⟨hmode', hcall⟩ := kcall_system hsys u noEnv (rfl : _ = Call.reap)
  have hebx := (trap_regs hsys u noEnv).2.1
  have hnone : threadGet (trap s (.call u noEnv)).toSched
      ((trap s (.call u noEnv)).img c).ebx.toInt = none := by
    rw [hebx]
    exact hget
  have hfault : kcall noEnv (trap s (.call u noEnv)) c = .error .kernelFault := by
    rw [kcall, if_neg (not_not.mpr hmode'), kernelCall, hcall]
    dsimp only
    rw [kcallReap, hnone]
  refine ⟨s, c, hs, hsys, hget, hfault, fun h => ?_⟩
  have hexist := h.exist ((threadGet_eq .reap id).trans hnone)
  rw [hfault] at hexist
  cases hexist

end Pinion
