/-
System code: the kernel call stub and the wrappers of `kcalls.c`.

A wrapper is one entry of the kernel by the active thread, and it returns when the
kernel goes back to that thread with a value in `eax`.

* `userCall` — the stub `kcall` of the system side;
* `tPause`, `tGetstate`, `tSetstate`, `tGetdead`, `tReap`, `tKill`, `tExit` — the
  wrappers;
* `Returns` — what a call that does not block leaves of the caller's surroundings;
* `tPause_queued`, …, `tReap_paused` — what each call does, one lemma per branch.
-/
import Pinion.Freed
import Pinion.Images

open LinkedQueue Runs

namespace Pinion

/-- A kernel call of thread `c`: the value it returns, the `t_info` it points to and
the kernel, if the kernel goes back to `c` at once. -/
def userCall (c : Ptr) (r : UserRegs) (env : Env) (s : Kernel) : Option (U32 × TInfo × Kernel) :=
  if s.active = some c then
    (step s (.call r env)).toOption.bind fun x =>
      if x.1 = some c then some ((x.2.1.img c).eax, x.2.2, x.2.1) else none
  else none

/-- The registers the stub loads. -/
def stubRegs (r : UserRegs) (call arg0 arg1 : U32) : UserRegs :=
  { r with eax := call, ebx := arg0, ecx := arg1, edx := 0 }

section Wrappers

variable (c : Ptr) (r : UserRegs) (env : Env)

/-- `__t_pause`. -/
def tPause (thread : U32) (s : Kernel) : Option (U32 × TInfo × Kernel) :=
  userCall c (stubRegs r 0x05 thread 0) env s

/-- `__t_getstate`, with the buffer at address `state`. -/
def tGetstate (thread state : U32) (s : Kernel) : Option (U32 × TInfo × Kernel) :=
  userCall c (stubRegs r 0x07 thread state) env s

/-- `__t_setstate`, with `info` at address `state`. -/
def tSetstate (thread state : U32) (info : TInfo) (s : Kernel) : Option (U32 × TInfo × Kernel) :=
  userCall c (stubRegs r 0x08 thread state) { env with info := info } s

/-- `__t_getdead`. -/
def tGetdead (s : Kernel) : Option (U32 × TInfo × Kernel) :=
  userCall c (stubRegs r 0x0A 0 0) env s

/-- `__t_reap`. -/
def tReap (thread info : U32) (s : Kernel) : Option (U32 × TInfo × Kernel) :=
  userCall c (stubRegs r 0x0B thread info) env s

/-- What `__t_kill` writes into the state it read. -/
def killInfo (status : U32) (info : TInfo) : TInfo :=
  { info with flags := info.flags ||| TF_DEAD, regs := { info.regs with eax := status } }

/-- `__t_kill`; `state` is the address of its local variable. -/
def tKill (thread status state : U32) (s : Kernel) : Option (U32 × Kernel) :=
  (tPause c r env thread s).bind fun x =>
    if x.1 ≠ 0 then some (x.1, x.2.2)
    else (tGetstate c r env thread state x.2.2).bind fun y =>
      if y.1 ≠ 0 then some (y.1, y.2.2)
      else (tSetstate c r env thread state (killInfo status y.2.1) y.2.2).bind fun z =>
        if z.1 ≠ 0 then some (z.1, z.2.2) else some (0, z.2.2)

/-- `__t_exit`; `state` is the address of its local variable.  The last call does not
come back to a thread that dies, so the result is the kernel after it. -/
def tExit (status state : U32) (s : Kernel) : Option Kernel :=
  (tGetstate c r env (-1) state s).bind fun x =>
    if x.1 ≠ 0 then some x.2.2
    else (step x.2.2 (.call (stubRegs r 0x08 (-1) state)
        { env with info := killInfo status x.2.1 })).toOption.map fun y => y.2.1

end Wrappers

/-! ### Calls that return -/

/-- The thread runs system code: its kernel calls reach the switch of `kcall`. -/
structure SystemThread (c : Ptr) (s : Kernel) : Prop where
  active : s.active = some c
  mode : (s.img c).flags &&& TF_USER = 0

/-- After a call of `c`: the scheduler is `k`, and of the images only registers of
`c` differ. -/
structure Returns (c : Ptr) (s s' : Kernel) (k : Sched) : Prop where
  sched : s'.toSched = k
  flags : (s'.img c).flags = (s.img c).flags
  img : ∀ p, p ≠ c → s'.img p = s.img p
  mm : s'.mm = s.mm

theorem Returns.system {c : Ptr} {s s' : Kernel} {k : Sched} (h : Returns c s s' k)
    (hs : SystemThread c s) (hk : k.active = some c) : SystemThread c s' := by
  refine ⟨?_, ?_⟩
  · rw [h.sched]
    exact hk
  · rw [h.flags]
    exact hs.mode

/-- The trap writes registers of the caller. -/
theorem trap_returns {c : Ptr} {s : Kernel} (hs : SystemThread c s) (r : UserRegs) (env : Env) :
    Returns c s (trap s (.call r env)) s.toSched := by
  have himage : s.active.getD idleImage = c := by rw [hs.active, Option.getD_some]
  refine ⟨rfl, ?_, ?_, rfl⟩
  · simp only [trap, Kernel.updImg, himage, Function.update_self]
    rfl
  · intro p hp
    simp only [trap, Kernel.updImg, himage, Function.update_of_ne hp]

theorem Returns.setEax {c : Ptr} {s s' : Kernel} {k : Sched} (h : Returns c s s' k) (v : U32) :
    Returns c s (s'.setEax c v) k := by
  refine ⟨h.sched, ?_, ?_, h.mm⟩
  · simp only [Kernel.setEax, Kernel.updImg, Function.update_self]
    exact h.flags
  · intro p hp
    simp only [Kernel.setEax, Kernel.updImg, Function.update_of_ne hp]
    exact h.img p hp

theorem Returns.withSched {c : Ptr} {s s' : Kernel} {k : Sched} (h : Returns c s s' k)
    (k' : Sched) : Returns c s { s' with toSched := k' } k' :=
  ⟨rfl, h.flags, h.img, h.mm⟩

/-- What the trap leaves in the registers of the caller. -/
theorem trap_regs {c : Ptr} {s : Kernel} (hs : SystemThread c s) (r : UserRegs) (env : Env) :
    ((trap s (.call r env)).img c).eax = r.eax ∧ ((trap s (.call r env)).img c).ebx = r.ebx ∧
      ((trap s (.call r env)).img c).ecx = r.ecx := by
  have himage : s.active.getD idleImage = c := by rw [hs.active, Option.getD_some]
  simp only [trap, Kernel.updImg, himage, Function.update_self]
  exact ⟨rfl, rfl, rfl⟩

theorem handled_system {c : Ptr} {s : Kernel} (hs : SystemThread c s) (r : UserRegs) (env : Env) :
    handled s (.call r env) = kcall env (trap s (.call r env)) c := by
  rw [handled_call, Sched.image, hs.active, Option.getD_some]

@[simp] theorem setEax_eax (s : Kernel) (p : Ptr) (v : U32) : ((s.setEax p v).img p).eax = v := by
  simp [Kernel.setEax, Kernel.updImg]

/-- A call whose handler leaves `c` active returns to it. -/
theorem userCall_of_kcall {c : Ptr} {s s' : Kernel} {r : UserRegs} {env : Env} {info : TInfo}
    (hs : SystemThread c s) (hk : kcall env (trap s (.call r env)) c = .ok (s', info))
    (ha : s'.active = some c) : userCall c r env s = some ((s'.img c).eax, info, s') := by
  have hstep : step s (.call r env) = .ok (some c, s', info) := by
    have hh : handled s (.call r env) = .ok (s', info) := (handled_system hs r env).trans hk
    have hsched : schedule s' = .ok (some c, s') := by
      unfold schedule
      rw [ha]
    refine bind_eq_ok.mpr ⟨(s', info), hh, bind_eq_ok.mpr ⟨(some c, s'), hsched, rfl⟩⟩
  rw [userCall, if_pos hs.active, hstep]
  simp [Except.toOption]

/-- A call whose handler stops does not return. -/
theorem userCall_of_stop {c : Ptr} {s : Kernel} {r : UserRegs} {env : Env} {e : Stop}
    (hs : SystemThread c s) (hk : kcall env (trap s (.call r env)) c = .error e) :
    userCall c r env s = none := by
  have hstep : ∃ e, step s (.call r env) = .error e := by
    have hh : handled s (.call r env) = .error e := (handled_system hs r env).trans hk
    refine ⟨e, ?_⟩
    unfold handled at hh
    simp only [step, intHandler, hh]
    rfl
  obtain ⟨e', hstep⟩ := hstep
  rw [userCall, if_pos hs.active, hstep]
  rfl

/-- A call that returns has gone through its handler and the choice of `c`. -/
theorem userCall_cases {c : Ptr} {s s' : Kernel} {r : UserRegs} {env : Env} {v : U32}
    {info : TInfo} (hs : SystemThread c s) (h : userCall c r env s = some (v, info, s')) :
    ∃ s₁, kcall env (trap s (.call r env)) c = .ok (s₁, info) ∧
      schedule s₁ = .ok (some c, s') := by
  rw [userCall, if_pos hs.active, Option.bind_eq_some_iff] at h
  obtain ⟨⟨o, s₂, info₂⟩, hx, h⟩ := h
  dsimp only at h
  split at h
  · rename_i ho
    cases h
    obtain ⟨s₁, h₁, h₂⟩ := step_cases (toOption_eq_some.mp hx)
    rw [handled_system hs] at h₁
    rw [ho] at h₂
    exact ⟨s₁, h₁, h₂⟩
  · cases h

/-! ### The calls, branch by branch -/

section Calls

variable {c t : Ptr} {r : UserRegs} {env : Env} {thread : U32} {s : Kernel}

theorem kcall_system (hs : SystemThread c s) (r : UserRegs) (env : Env) {call : Call}
    (hc : Call.ofEax r.eax = call) :
    ((trap s (.call r env)).img c).flags &&& TF_USER = 0 ∧
      Call.ofEax ((trap s (.call r env)).img c).eax = call := by
  refine ⟨?_, ?_⟩
  · rw [(trap_returns hs r env).flags]
    exact hs.mode
  · rw [(trap_regs hs r env).1]
    exact hc

/-- The thread a call names by its id. -/
theorem target_eq (hs : SystemThread c s) (hebx : r.ebx ≠ -1) :
    targetOrSelf (trap s (.call r env)) c = threadGet s.toSched r.ebx.toInt := by
  rw [targetOrSelf, (trap_regs hs r env).2.1, if_neg hebx]
  rfl

theorem kcall_pause (r : UserRegs) (env : Env) (hs : SystemThread c s) (hne : thread ≠ -1)
    (ht : threadGet s.toSched thread.toInt = some t) :
    targetOrSelf (trap s (.call (stubRegs r 0x05 thread 0) env)) c = some t ∧
    kcall env (trap s (.call (stubRegs r 0x05 thread 0) env)) c =
      (·, env.info) <$> kcallPause (trap s (.call (stubRegs r 0x05 thread 0) env)) c := by
  obtain ⟨hmode, hcall⟩ := kcall_system hs (stubRegs r 0x05 thread 0) env (rfl : _ = Call.pause)
  refine ⟨(target_eq hs hne).trans ht, ?_⟩
  rw [kcall, if_neg (not_not.mpr hmode), kernelCall, hcall]

theorem tPause_refused (r : UserRegs) (env : Env) (hs : SystemThread c s) (hne : thread ≠ -1)
    (ht : threadGet s.toSched thread.toInt = some t) (hr : (s.tcb t).state ≠ .running)
    (hq : (s.tcb t).state ≠ .queued) (hw : (s.tcb t).state ≠ .waiting) :
    ∃ s', tPause c r env thread s = some (TE_STATE, env.info, s') := by
  obtain ⟨htarget, hk⟩ := kcall_pause r env hs hne ht
  have hret := (trap_returns hs (stubRegs r 0x05 thread 0) env).setEax TE_STATE
  have hpause : kcallPause (trap s (.call (stubRegs r 0x05 thread 0) env)) c =
      .ok ((trap s (.call (stubRegs r 0x05 thread 0) env)).setEax c TE_STATE) := by
    rw [kcallPause, htarget]
    dsimp only
    rw [show (trap s (.call (stubRegs r 0x05 thread 0) env)).tcb t = s.tcb t from rfl]
    cases hst : (s.tcb t).state with
    | running => exact absurd hst hr
    | queued => exact absurd hst hq
    | waiting => exact absurd hst hw
    | free | paused | pausedw => rfl
  rw [hpause] at hk
  have hcall := userCall_of_kcall hs hk (by rw [hret.sched]; exact hs.active)
  rw [setEax_eax] at hcall
  exact ⟨_, hcall⟩

/-- `PAUSE` of a queued thread. -/
theorem tPause_queued (r : UserRegs) (env : Env) {k : Sched} {v : ℤ} (hs : SystemThread c s)
    (hne : thread ≠ -1)
    (ht : threadGet s.toSched thread.toInt = some t) (hst : (s.tcb t).state = .queued)
    (remv : scheduleRemv s.toSched t = .ok (v, k)) :
    ∃ s', tPause c r env thread s = some (0, env.info, s') ∧
      Returns c s s' (k.setState t .paused) := by
  obtain ⟨htarget, hk⟩ := kcall_pause r env hs hne ht
  set s₀ := trap s (.call (stubRegs r 0x05 thread 0) env)
  have hret := ((trap_returns hs (stubRegs r 0x05 thread 0) env).withSched
    (k.setState t .paused)).setEax 0
  have hpause : kcallPause s₀ c = .ok ({ s₀ with toSched := k.setState t .paused }.setEax c 0) := by
    rw [kcallPause, htarget]
    dsimp only
    rw [show s₀.tcb t = s.tcb t from rfl, hst]
    exact bind_eq_ok.mpr ⟨(v, k), remv, rfl⟩
  rw [hpause] at hk
  have hact : k.active = some c := by
    obtain ⟨n, hd, tl, rfl⟩ := scheduleRemv_withRun remv
    exact hs.active
  have hcall := userCall_of_kcall hs hk (by rw [hret.sched]; exact hact)
  rw [setEax_eax] at hcall
  exact ⟨_, hcall, hret⟩

/-- `PAUSE` of a waiting thread, if `event_remv` returns. -/
theorem tPause_waiting {w : U32} {info : TInfo} {s' : Kernel} (hs : SystemThread c s)
    (hne : thread ≠ -1) (ht : threadGet s.toSched thread.toInt = some t)
    (hst : (s.tcb t).state = .waiting) (h : tPause c r env thread s = some (w, info, s')) :
    ∃ v k, eventRemv s.toSched (s.tcb t).id (s.tcb t).event = .ok (v, k) ∧
      Returns c s s' (k.setState t .pausedw) := by
  obtain ⟨htarget, hk⟩ := kcall_pause r env hs hne ht
  set s₀ := trap s (.call (stubRegs r 0x05 thread 0) env)
  cases hremv : eventRemv s.toSched (s.tcb t).id (s.tcb t).event with
  | error e =>
    have hpause : kcallPause s₀ c = .error e := by
      rw [kcallPause, htarget]
      dsimp only
      rw [show s₀.tcb t = s.tcb t from rfl, hst, show s₀.toSched = s.toSched from rfl]
      dsimp only
      rw [hremv]
      rfl
    rw [hpause] at hk
    rw [tPause, userCall_of_stop hs hk] at h
    cases h
  | ok x =>
    obtain ⟨v, k⟩ := x
    have hret := ((trap_returns hs (stubRegs r 0x05 thread 0) env).withSched
      (k.setState t .pausedw)).setEax 0
    have hpause : kcallPause s₀ c =
        .ok ({ s₀ with toSched := k.setState t .pausedw }.setEax c 0) := by
      rw [kcallPause, htarget]
      dsimp only
      rw [show s₀.tcb t = s.tcb t from rfl, hst]
      exact bind_eq_ok.mpr ⟨(v, k), hremv, rfl⟩
    rw [hpause] at hk
    have hact : k.active = some c := by
      obtain ⟨n, ev, rfl⟩ := eventRemv_eq hremv
      exact hs.active
    rw [tPause, userCall_of_kcall hs hk (by rw [hret.sched]; exact hact)] at h
    cases h
    exact ⟨v, k, rfl, hret⟩

/-- `PAUSE` of another thread in `TS_RUNNING` releases the processor: it returns only
if the caller is the head of the run queue. -/
theorem tPause_running {w : U32} {info : TInfo} {s' : Kernel} (hs : SystemThread c s)
    (hne : thread ≠ -1) (ht : threadGet s.toSched thread.toInt = some t)
    (hst : (s.tcb t).state = .running) (h : tPause c r env thread s = some (w, info, s')) :
    s.schedHead = some c := by
  obtain ⟨htarget, hk⟩ := kcall_pause r env hs hne ht
  obtain ⟨s₁, h₁, h₂⟩ := userCall_cases hs h
  set s₀ := trap s (.call (stubRegs r 0x05 thread 0) env)
  have hpause : kcallPause s₀ c =
      .ok (((threadSave s₀ t).setState t .paused).setEax c 0) := by
    rw [kcallPause, htarget]
    dsimp only
    rw [show s₀.tcb t = s.tcb t from rfl, hst]
  rw [hk, hpause] at h₁
  cases h₁
  have hsched : (((threadSave s₀ t).setState t .paused).setEax c 0).toSched =
      s.toSched.release.setState t .paused := by
    rw [Kernel.setEax, Kernel.updImg, Kernel.setState, Kernel.onSched, threadSave_toSched]
    rfl
  unfold schedule at h₂
  rw [hsched] at h₂
  cases hhead : s.schedHead with
  | none =>
    simp only [Sched.release, Sched.setState, Sched.upd, scheduleNext, hhead] at h₂
    cases h₂
  | some p =>
    simp only [Sched.release, Sched.setState, Sched.upd, scheduleNext, hhead] at h₂
    obtain ⟨x, -, h₂⟩ := bind_eq_ok.mp h₂
    cases h₂
    rfl

theorem kcall_getstate (r : UserRegs) (env : Env) (state : U32) (hs : SystemThread c s)
    (hne : thread ≠ -1) (ht : threadGet s.toSched thread.toInt = some t) (htc : t ≠ c)
    (hst : (s.tcb t).state = .paused ∨ (s.tcb t).state = .pausedw) :
    kcall env (trap s (.call (stubRegs r 0x07 thread state) env)) c =
      .ok ((trap s (.call (stubRegs r 0x07 thread state) env)).setEax c 0,
        saveInfo s env.info t) := by
  set u := stubRegs r 0x07 thread state
  obtain ⟨hmode, hcall⟩ := kcall_system hs u env (rfl : _ = Call.getstate)
  have htarget : targetOrSelf (trap s (.call u env)) c = some t := (target_eq hs hne).trans ht
  have hinfo : saveInfo (trap s (.call u env)) env.info t = saveInfo s env.info t := by
    rw [saveInfo, (trap_returns hs u env).img t htc]
    rfl
  rw [kcall, if_neg (not_not.mpr hmode), kernelCall, hcall]
  dsimp only
  rw [kcallGetstate, htarget]
  dsimp only
  rw [if_neg, hinfo]
  rintro ⟨hp, hw, -⟩
  exact hst.elim hp hw

/-- `GETSTATE` of another thread that is paused. -/
theorem tGetstate_ok (r : UserRegs) (env : Env) (state : U32) (hs : SystemThread c s)
    (hne : thread ≠ -1)
    (ht : threadGet s.toSched thread.toInt = some t) (htc : t ≠ c)
    (hst : (s.tcb t).state = .paused ∨ (s.tcb t).state = .pausedw) :
    ∃ s', tGetstate c r env thread state s = some (0, saveInfo s env.info t, s') ∧
      Returns c s s' s.toSched := by
  have hret := (trap_returns hs (stubRegs r 0x07 thread state) env).setEax 0
  have hcall := userCall_of_kcall hs (kcall_getstate r env state hs hne ht htc hst)
    (by rw [hret.sched]; exact hs.active)
  rw [setEax_eax] at hcall
  exact ⟨_, hcall, hret⟩

/-- `GETSTATE` of the caller itself. -/
theorem tGetstate_self (r : UserRegs) (env : Env) (state : U32) (hs : SystemThread c s) :
    ∃ x s', tGetstate c r env (-1) state s = some (0, x, s') ∧ Returns c s s' s.toSched := by
  set u := stubRegs r 0x07 (-1) state
  obtain ⟨hmode, hcall⟩ := kcall_system hs u env (rfl : _ = Call.getstate)
  have htarget : targetOrSelf (trap s (.call u env)) c = some c := by
    rw [targetOrSelf, (trap_regs hs u env).2.1]
    exact if_pos rfl
  have hret := trap_returns hs u env
  have hget : kcallGetstate env (trap s (.call u env)) c =
      ((trap s (.call u env)).setEax c 0, saveInfo (trap s (.call u env)) env.info c) := by
    rw [kcallGetstate, htarget]
    exact if_neg fun h => h.2.2 rfl
  have hk : kcall env (trap s (.call u env)) c =
      .ok ((trap s (.call u env)).setEax c 0, saveInfo (trap s (.call u env)) env.info c) := by
    rw [kcall, if_neg (not_not.mpr hmode), kernelCall, hcall, ← hget]
  have hcall := userCall_of_kcall hs hk (by rw [(hret.setEax 0).sched]; exact hs.active)
  rw [setEax_eax] at hcall
  exact ⟨_, _, hcall, hret.setEax 0⟩

theorem report_active (k : Sched) (v : Side) (p : Ptr) : (k.report v p).active = k.active := by
  unfold Sched.report
  split
  · rw [makeReady_active]
    rfl
  · exact rdvInsert_active _ k p

/-- The FPU area of the target is there, or the heap has room for it. -/
def FxRoom (s : Kernel) (t : Ptr) : Prop :=
  (s.img t).fxdata = none → ∃ p m, heapAlloc s.mm 512 = .ok (some p, m)

/-- What `SETSTATE` with `TF_DEAD` leaves: the report, and in the first reaper the
id of the thread. -/
structure Reported (c t : Ptr) (s s' : Kernel) : Prop where
  sched : s'.toSched = s.toSched.report .dead t
  flags : (s'.img c).flags = (s.img c).flags
  eax : ∀ w, (s.ends .reaper).tail = some w → w ≠ c → w ≠ t →
    (s'.img w).eax = BitVec.ofInt 32 (s.tcb t).id

/-- Writing registers of the caller or of the target keeps the report. -/
theorem Reported.updImg {s' : Kernel} {p : Ptr} {f : Image → Image} (h : Reported c t s s')
    (hp : p = c ∨ p = t) (hf : ∀ i, (f i).flags = i.flags ∨ p ≠ c) :
    Reported c t s (s'.updImg p f) := by
  refine ⟨h.sched, ?_, fun w hw hwc hwt => ?_⟩
  · by_cases hpc : c = p
    · subst hpc
      simp only [Kernel.updImg, Function.update_self]
      rw [← h.flags]
      exact (hf _).resolve_right (not_not.mpr rfl)
    · simp only [Kernel.updImg, Function.update_of_ne hpc]
      exact h.flags
  · have hwp : w ≠ p := by
      rintro rfl
      exact hp.elim hwc hwt
    simp only [Kernel.updImg, Function.update_of_ne hwp]
    exact h.eax w hw hwc hwt

/-- The kill branch reports a thread that does not run. -/
theorem setstateKill_reported (hst : (s.tcb t).state ≠ .running)
    (hw : (s.ends .reaper).tail ≠ some c) : Reported c t s (setstateKill s t) := by
  rw [setstateKill, if_neg hst]
  obtain ⟨hsched, -⟩ := push_report .dead s t
  refine ⟨hsched, ?_, fun w htail hwc hwt => ?_⟩
  · cases htail : (s.ends .reaper).tail with
    | none =>
      rw [deadPush, rdvPush, htail]
      rfl
    | some w =>
      have hcw : c ≠ w := by
        rintro rfl
        exact hw htail
      rw [deadPush, rdvPush, htail]
      simp only [notify, Kernel.onSched, Kernel.setEax, Kernel.updImg, Function.update_of_ne hcw]
  · rw [deadPush, rdvPush, htail]
    simp only [notify, Kernel.onSched, Kernel.setEax, Kernel.updImg, Function.update_self]
    rfl

/-- The kill branch writes no image but the return value of a reaper. -/
theorem setstateKill_img (hst : (s.tcb t).state ≠ .running) (p : Ptr) :
    ((setstateKill s t).img p).pctx = (s.img p).pctx ∧
      ((setstateKill s t).img p).fxdata = (s.img p).fxdata := by
  rw [setstateKill, if_neg hst, deadPush, rdvPush]
  cases htail : (s.ends .reaper).tail with
  | none => exact ⟨rfl, rfl⟩
  | some w =>
    simp only [notify, Kernel.onSched, Kernel.setEax, Kernel.updImg]
    by_cases hpw : p = w
    · subst hpw
      rw [Function.update_self]
      exact ⟨rfl, rfl⟩
    · rw [Function.update_of_ne hpw]
      exact ⟨rfl, rfl⟩

theorem report_not_running {k : Sched} {v : Side} {p : Ptr} (hst : (k.tcb t).state ≠ .running) :
    ((k.report v p).tcb t).state ≠ .running := by
  unfold Sched.report
  split
  · rw [makeReady_state]
    split
    · decide
    · exact hst
  · rw [rdvInsert_state]
    exact hst

/-- `SETSTATE` of a paused thread with `TF_DEAD` and the context it has. -/
theorem kcallSetstate_kill (htarget : targetOrSelf s c = some t)
    (hst : (s.tcb t).state = .paused ∨ (s.tcb t).state = .pausedw)
    (hdead : env.info.flags &&& TF_DEAD ≠ 0) (hpctx : env.info.pctx = (s.img t).pctx) :
    kcallSetstate env s c = (·.setEax c 0) <$>
      setstateCopy env.info ((setstateKill s t).updImg t (setstateAttrs env.info)) t := by
  have hnr : (s.tcb t).state ≠ .running := by
    rintro h
    rw [h] at hst
    rcases hst with hst | hst <;> cases hst
  have hkeep : ¬((setstateKill s t).img t).pctx ≠ env.info.pctx := by
    rw [(setstateKill_img hnr t).1, hpctx, not_not]
  have hnr' : (((setstateKill s t).updImg t (setstateAttrs env.info)).tcb t).state ≠ .running := by
    rw [show ((setstateKill s t).updImg t (setstateAttrs env.info)).toSched =
      (setstateKill s t).toSched from rfl, (setstateKill_kill s t).1, Sched.kill, if_neg hnr]
    exact report_not_running hnr
  have hstores : Stores env s c t env.info :=
    ⟨htarget, hst.imp_right Or.inl, Env.stored_keep hpctx.symm⟩
  have hbegin : setstateBegin env.info env.info s t =
      (setstateKill s t).updImg t (setstateAttrs env.info) := by
    rw [setstateBegin, setstateOpen, if_pos hdead, setstateLoad, if_neg hkeep]
  rw [hstores.kcallSetstate_eq, hbegin, if_pos hnr']
  rfl

theorem setstateCopy_room (src : TInfo) (h : FxRoom s t) :
    ∃ s', setstateCopy src s t = .ok s' ∧ s'.toSched = s.toSched ∧
      ∀ p, p ≠ t → s'.img p = s.img p := by
  have himg : (s.updImg t (setstateRegs src.regs)).img t = setstateRegs src.regs (s.img t) := by
    simp only [Kernel.updImg, Function.update_self]
  unfold setstateCopy
  dsimp only
  rw [himg]
  cases hfx : (s.img t).fxdata with
  | some p =>
    rw [show (setstateRegs src.regs (s.img t)).fxdata = some p from hfx]
    refine ⟨_, rfl, rfl, fun q hq => ?_⟩
    simp only [Kernel.updImg, Function.update_of_ne hq]
  | none =>
    obtain ⟨p, m, hm⟩ := h hfx
    rw [show (setstateRegs src.regs (s.img t)).fxdata = none from hfx]
    refine ⟨_, bind_eq_ok.mpr ⟨(some p, m), hm, rfl⟩, rfl, fun q hq => ?_⟩
    simp only [Kernel.updImg, Function.update_of_ne hq]

theorem setstateCopy_full (src : TInfo) (h : ¬FxRoom s t) :
    ∃ e, setstateCopy src s t = .error e := by
  have himg : (s.updImg t (setstateRegs src.regs)).img t = setstateRegs src.regs (s.img t) := by
    simp only [Kernel.updImg, Function.update_self]
  obtain ⟨hfx, hfull⟩ := Classical.not_imp.mp h
  unfold setstateCopy
  dsimp only
  rw [himg, show (setstateRegs src.regs (s.img t)).fxdata = none from hfx,
    show (s.updImg t (setstateRegs src.regs)).mm = s.mm from rfl]
  dsimp only
  cases hm : heapAlloc s.mm 512 with
  | error e => exact ⟨e, rfl⟩
  | ok x =>
    obtain ⟨o, m⟩ := x
    cases o with
    | none => exact ⟨.kernelFault, rfl⟩
    | some p => exact absurd ⟨p, m, hm⟩ hfull

/-- The state of a `SETSTATE` of `t` with `TF_DEAD`, and what is asked of it. -/
structure KillArgs (c t : Ptr) (thread : U32) (info : TInfo) (s : Kernel) : Prop where
  system : SystemThread c s
  named : thread ≠ -1
  get : threadGet s.toSched thread.toInt = some t
  other : t ≠ c
  state : (s.tcb t).state = .paused ∨ (s.tcb t).state = .pausedw
  dead : info.flags &&& TF_DEAD ≠ 0
  pctx : info.pctx = (s.img t).pctx
  reaper : (s.ends .reaper).tail ≠ some c

section Setstate

variable (env) (a : KillArgs c t thread env.info s)

include a

theorem KillArgs.kcall_eq {u : UserRegs} (heax : u.eax = 0x08) (hebx : u.ebx = thread) :
    kcall env (trap s (.call u env)) c = (fun s' => (s'.setEax c 0, env.info)) <$>
      setstateCopy env.info ((setstateKill (trap s (.call u env)) t).updImg t
        (setstateAttrs env.info)) t := by
  have hret := trap_returns a.system u env
  obtain ⟨hmode, hcall⟩ := kcall_system a.system u env
    (show Call.ofEax u.eax = .setstate by rw [heax]; rfl)
  have htarget : targetOrSelf (trap s (.call u env)) c = some t := by
    rw [target_eq a.system (hebx ▸ a.named), hebx]
    exact a.get
  have hst : ((trap s (.call u env)).tcb t).state = .paused ∨
      ((trap s (.call u env)).tcb t).state = .pausedw := a.state
  have hpctx : env.info.pctx = ((trap s (.call u env)).img t).pctx := by
    rw [hret.img t a.other]
    exact a.pctx
  rw [kcall, if_neg (not_not.mpr hmode), kernelCall, hcall]
  dsimp only
  rw [kcallSetstate_kill htarget hst a.dead hpctx, Functor.map_map]

/-- What the copy of the registers starts from. -/
theorem KillArgs.killed (u : UserRegs) :
    Reported c t s ((setstateKill (trap s (.call u env)) t).updImg t (setstateAttrs env.info)) ∧
      (FxRoom ((setstateKill (trap s (.call u env)) t).updImg t (setstateAttrs env.info)) t ↔
        FxRoom s t) := by
  have hret := trap_returns a.system u env
  have hst : ((trap s (.call u env)).tcb t).state ≠ .running := by
    intro h
    have hs : (s.tcb t).state = .running := h
    rcases a.state with hst | hst <;> rw [hst] at hs <;> cases hs
  obtain ⟨hsched, hflags, heax⟩ := setstateKill_reported (c := c) hst a.reaper
  refine ⟨Reported.updImg ⟨hsched, hflags.trans hret.flags, heax⟩ (Or.inr rfl)
    fun _ => Or.inr a.other, ?_⟩
  have hfx : (((setstateKill (trap s (.call u env)) t).updImg t
      (setstateAttrs env.info)).img t).fxdata = (s.img t).fxdata := by
    rw [← hret.img t a.other, ← (setstateKill_img hst t).2]
    simp only [Kernel.updImg, Function.update_self]
    rfl
  have hmm : ((setstateKill (trap s (.call u env)) t).updImg t (setstateAttrs env.info)).mm =
      s.mm := (setstateKill_kill _ t).2
  rw [FxRoom, FxRoom, hfx, hmm]

/-- With room for the FPU area the call returns 0 and reports the thread. -/
theorem KillArgs.room {u : UserRegs} (heax : u.eax = 0x08) (hebx : u.ebx = thread)
    (room : FxRoom s t) :
    ∃ s', userCall c u env s = some (0, env.info, s') ∧ Reported c t s s' := by
  obtain ⟨hrep, hroom⟩ := a.killed env u
  obtain ⟨s₃, hcopy, hsched, himg⟩ := setstateCopy_room env.info (hroom.mpr room)
  have hrep₃ : Reported c t s s₃ := by
    refine ⟨hsched.trans hrep.sched, ?_, fun w hw hwc hwt => ?_⟩
    · rw [himg c a.other.symm]
      exact hrep.flags
    · rw [himg w hwt]
      exact hrep.eax w hw hwc hwt
  have hrep₄ : Reported c t s (s₃.setEax c 0) :=
    hrep₃.updImg (Or.inl rfl) fun _ => Or.inl rfl
  have hk := a.kcall_eq env heax hebx
  rw [hcopy] at hk
  have hact : (s₃.setEax c 0).active = some c := by
    rw [hrep₄.sched, report_active]
    exact a.system.active
  have hcall := userCall_of_kcall a.system hk hact
  rw [setEax_eax] at hcall
  exact ⟨_, hcall, hrep₄⟩

/-- Without it the kernel writes through a null pointer or stops in the heap. -/
theorem KillArgs.full {u : UserRegs} (heax : u.eax = 0x08) (hebx : u.ebx = thread)
    (full : ¬FxRoom s t) : userCall c u env s = none := by
  obtain ⟨-, hroom⟩ := a.killed env u
  obtain ⟨e, hcopy⟩ := setstateCopy_full env.info fun h => full (hroom.mp h)
  have hk := a.kcall_eq env heax hebx
  rw [hcopy] at hk
  exact userCall_of_stop a.system hk
end Setstate

theorem KillArgs.tSetstate_room {info : TInfo} (a : KillArgs c t thread info s) (r : UserRegs)
    (env : Env) (state : U32) (room : FxRoom s t) :
    ∃ s', tSetstate c r env thread state info s = some (0, info, s') ∧ Reported c t s s' :=
  KillArgs.room { env with info := info } a rfl rfl room

theorem KillArgs.tSetstate_full {info : TInfo} (a : KillArgs c t thread info s) (r : UserRegs)
    (env : Env) (state : U32) (full : ¬FxRoom s t) :
    tSetstate c r env thread state info s = none :=
  KillArgs.full { env with info := info } a rfl rfl full

/-- `GETDEAD` while the dead queue holds a thread. -/
theorem tGetdead_some (r : UserRegs) (env : Env) {d : Ptr} (hs : SystemThread c s)
    (hd : (s.ends .dead).tail = some d) :
    ∃ s', tGetdead c r env s = some (BitVec.ofInt 32 (s.tcb d).id, env.info, s') ∧
      Returns c s s' (rdvAdvance .dead s.toSched (s.tcb d).nextDead) := by
  set u := stubRegs r 0x0A 0 0
  obtain ⟨hmode, hcall⟩ := kcall_system hs u env (rfl : _ = Call.getdead)
  have hret := ((trap_returns hs u env).withSched
    (rdvAdvance .dead s.toSched (s.tcb d).nextDead)).setEax (BitVec.ofInt 32 (s.tcb d).id)
  have hk : kcall env (trap s (.call u env)) c = .ok ({ trap s (.call u env) with
      toSched := rdvAdvance .dead s.toSched (s.tcb d).nextDead }.setEax c
        (BitVec.ofInt 32 (s.tcb d).id), env.info) := by
    rw [kcall, if_neg (not_not.mpr hmode), kernelCall, hcall]
    dsimp only
    rw [kcallGetdead, show deadPeek (trap s (.call u env)).toSched = some d from hd, deadPull,
      show ((trap s (.call u env)).ends .dead).tail = some d from hd]
    rfl
  have hcall := userCall_of_kcall hs hk (by rw [hret.sched]; exact hs.active)
  rw [setEax_eax] at hcall
  exact ⟨_, hcall, hret⟩

theorem kcall_reap (r : UserRegs) (env : Env) (info : U32) (hs : SystemThread c s)
    (ht : threadGet s.toSched thread.toInt = some t) :
    kcall env (trap s (.call (stubRegs r 0x0B thread info) env)) c =
      kcallReap env (trap s (.call (stubRegs r 0x0B thread info) env)) c ∧
    threadGet (trap s (.call (stubRegs r 0x0B thread info) env)).toSched
      ((trap s (.call (stubRegs r 0x0B thread info) env)).img c).ebx.toInt = some t := by
  obtain ⟨hmode, hcall⟩ := kcall_system hs (stubRegs r 0x0B thread info) env (rfl : _ = Call.reap)
  refine ⟨?_, ?_⟩
  · rw [kcall, if_neg (not_not.mpr hmode), kernelCall, hcall]
  · rw [(trap_regs hs _ env).2.1]
    exact ht

/-- `REAP` of a thread in `TS_PAUSED` returns 0, tells its state and frees its slot. -/
theorem tReap_paused (r : UserRegs) (env : Env) (info : U32) (hs : SystemThread c s)
    (ht : threadGet s.toSched thread.toInt = some t) (htc : t ≠ c)
    (hst : (s.tcb t).state = .paused) :
    ∃ s', tReap c r env thread info s =
        some (0, if info ≠ 0 then saveInfo s env.info t else env.info, s') ∧
      s'.table = Function.update s.table (s.tcb t).id.toNat none := by
  obtain ⟨hk, hget⟩ := kcall_reap r env info hs ht
  rw [kcallReap, hget] at hk
  dsimp only at hk
  rw [show ((trap s (.call (stubRegs r 0x0B thread info) env)).tcb t).state = .paused from hst,
    if_neg (not_not.mpr rfl)] at hk
  have hcall := userCall_of_kcall hs hk hs.active
  have heax : ((threadKill ((trap s (.call (stubRegs r 0x0B thread info) env)).setEax c 0) t).img
      c).eax = 0 := by
    rw [threadKill]
    dsimp only
    rw [Function.update_of_ne htc.symm, setEax_eax]
  have hecx : ((trap s (.call (stubRegs r 0x0B thread info) env)).img c).ecx = info :=
    (trap_regs hs _ env).2.2
  have hinfo : saveInfo (trap s (.call (stubRegs r 0x0B thread info) env)) env.info t =
      saveInfo s env.info t := by
    rw [saveInfo, (trap_returns hs _ env).img t htc]
    rfl
  rw [heax, hecx, hinfo] at hcall
  exact ⟨_, hcall, rfl⟩

/-- `REAP` of a thread in any other state is refused. -/
theorem tReap_refused (r : UserRegs) (env : Env) (info : U32) (hs : SystemThread c s)
    (ht : threadGet s.toSched thread.toInt = some t) (hst : (s.tcb t).state ≠ .paused) :
    ∃ x s', tReap c r env thread info s = some (TE_STATE, x, s') := by
  obtain ⟨hk, hget⟩ := kcall_reap r env info hs ht
  rw [kcallReap, hget] at hk
  dsimp only at hk
  rw [if_pos (show ((trap s (.call (stubRegs r 0x0B thread info) env)).tcb t).state ≠ .paused
    from hst)] at hk
  have hcall := userCall_of_kcall hs hk hs.active
  rw [setEax_eax] at hcall
  exact ⟨_, _, hcall⟩

end Calls

end Pinion
