/-
`GETSTATE` and then `SETSTATE`.

The two calls have their own lists of fields.  A thread that is paused gets back what was
read, and so the pair changes nothing, unless the thread has no FPU area: `GETSTATE` then
leaves the FPU part of the buffer as it was, and `SETSTATE` gives the thread an area with
that part in it.
* `SameThread` — what the later execution of a thread and a later `GETSTATE` depend on;
* `saveInfo_attrs`, `saveInfo_regs` — writing back what was read;
* `RoundTrip` — the two calls one after the other;
* `getstate_setstate_iff` — they change nothing if and only if the thread has an FPU area.
-/
import Pinion.Exit
import Pinion.Modes

open Runs

namespace Pinion

/-- The FPU image that is loaded when the thread runs, if one is. -/
def Kernel.fxImage (s : Kernel) (t : Ptr) : Option FxArea := (s.img t).fxdata.map s.fx

/-- What the later execution of a thread and a later `GETSTATE` depend on: its place in
the scheduler and its event, its registers and attributes, and its FPU image. -/
structure SameThread (t : Ptr) (s s' : Kernel) : Prop where
  tcb : s'.tcb t = s.tcb t
  img : s'.img t = { s.img t with fxdata := (s'.img t).fxdata }
  fpu : s'.fxImage t = s.fxImage t

/-! ### Writing back what was read -/

section WriteBack

variable {s : Kernel} {t : Ptr}

theorem updImg_eq_self {f : Image → Image} (h : f (s.img t) = s.img t) : s.updImg t f = s := by
  rw [Kernel.updImg, h, Function.update_eq_self]

theorem saveInfo_attrs (s : Kernel) (dest : TInfo) (t : Ptr) :
    setstateAttrs (saveInfo s dest t) (s.img t) = s.img t := rfl

theorem saveInfo_regs (dest : TInfo) (hst : (s.tcb t).state ≠ .running) :
    setstateRegs (saveInfo s dest t).regs (s.img t) = s.img t := by
  rw [saveInfo]
  dsimp only
  rw [if_neg hst]
  rfl

theorem saveInfo_fxdata (dest : TInfo) (hst : (s.tcb t).state ≠ .running) {q : Ptr}
    (hfx : (s.img t).fxdata = some q) : (saveInfo s dest t).regs.fxdata = s.fx q := by
  rw [saveInfo]
  dsimp only
  rw [if_neg hst, hfx]

/-- The registers and the FPU area of a thread that has one are as before. -/
theorem setstateCopy_back (dest : TInfo) (hst : (s.tcb t).state ≠ .running) {q : Ptr}
    (hfx : (s.img t).fxdata = some q) : setstateCopy (saveInfo s dest t) s t = .ok s := by
  unfold setstateCopy
  dsimp only
  rw [updImg_eq_self (saveInfo_regs dest hst), hfx, saveInfo_fxdata dest hst hfx]
  dsimp only
  rw [Function.update_eq_self]
  rfl

end WriteBack

/-! ### The calls -/

section Calls

variable {c t : Ptr} {r : UserRegs} {env : Env} {thread : U32} {s : Kernel}

/-- `SETSTATE` of a paused thread that is not to die and has the context it had. -/
theorem kcallSetstate_alive (htarget : targetOrSelf s c = some t)
    (hst : (s.tcb t).state = .paused ∨ (s.tcb t).state = .pausedw)
    (halive : env.info.flags &&& TF_DEAD = 0) (hpctx : env.info.pctx = (s.img t).pctx) :
    kcallSetstate env s c = (·.setEax c 0) <$>
      setstateCopy env.info (s.updImg t (setstateAttrs env.info)) t := by
  have hnr : ((s.updImg t (setstateAttrs env.info)).tcb t).state ≠ .running := by
    intro h
    have hrun : (s.tcb t).state = .running := h
    rw [hrun] at hst
    rcases hst with hst | hst <;> cases hst
  have hstores : Stores env s c t env.info :=
    ⟨htarget, hst.imp_right Or.inl, Env.stored_keep hpctx.symm⟩
  have hbegin : setstateBegin env.info env.info s t = s.updImg t (setstateAttrs env.info) := by
    rw [setstateBegin, setstateOpen, if_neg (not_not.mpr halive), setstateLoad,
      if_neg (not_not.mpr hpctx.symm)]
  rw [hstores.kcallSetstate_eq, hbegin, if_pos hnr]
  rfl

theorem named_of_get (ht : threadGet s.toSched thread.toInt = some t) : thread ≠ -1 := by
  rintro rfl
  cases ht

/-- `SETSTATE` with what `GETSTATE` has returned. -/
theorem kcall_setstate_back {info : TInfo} {u : UserRegs} (hs : SystemThread c s)
    (heax : u.eax = 0x08) (hebx : u.ebx = thread)
    (ht : threadGet s.toSched thread.toInt = some t) (htc : t ≠ c)
    (hst : (s.tcb t).state = .paused ∨ (s.tcb t).state = .pausedw)
    (hlive : (s.img t).flags &&& TF_DEAD = 0) (hinfo : env.info = saveInfo s info t) :
    kcall env (trap s (.call u env)) c = (fun s' => (s'.setEax c 0, env.info)) <$>
      setstateCopy (saveInfo (trap s (.call u env)) info t) (trap s (.call u env)) t := by
  obtain ⟨hmode, hcall⟩ := kcall_system hs u env
    (show Call.ofEax u.eax = .setstate by rw [heax]; rfl)
  have htarget : targetOrSelf (trap s (.call u env)) c = some t := by
    rw [target_eq hs (hebx ▸ named_of_get ht), hebx]
    exact ht
  have himg := (trap_returns hs u env).img t htc
  have hback : env.info = saveInfo (trap s (.call u env)) info t := by
    rw [hinfo, saveInfo, saveInfo, himg]
    rfl
  rw [kcall, if_neg (not_not.mpr hmode), kernelCall, hcall]
  dsimp only
  rw [kcallSetstate_alive htarget hst (by rw [hinfo]; exact hlive) (by rw [hinfo, himg]; rfl),
    Functor.map_map, hback, updImg_eq_self (saveInfo_attrs _ _ _)]

/-- The two calls one after the other, with the buffer untouched in between: what is left
of the thread and of the context that is loaded. -/
def RoundTrip (c : Ptr) (r r' : UserRegs) (env env' : Env) (t : Ptr) (thread state : U32)
    (s : Kernel) : Prop :=
  ∃ info s₁ s₂, tGetstate c r env thread state s = some (0, info, s₁) ∧
    tSetstate c r' env' thread state info s₁ = some (0, info, s₂) ∧
    SameThread t s s₂ ∧ s₂.mm.activePctx = s.mm.activePctx

/-- **`GETSTATE` and then `SETSTATE`** of another thread that is paused and does not die
change nothing if and only if it has an FPU area. -/
theorem getstate_setstate_iff (r r' : UserRegs) (env env' : Env) (state : U32)
    (hs : SystemThread c s) (ht : threadGet s.toSched thread.toInt = some t) (htc : t ≠ c)
    (hst : (s.tcb t).state = .paused ∨ (s.tcb t).state = .pausedw)
    (hlive : (s.img t).flags &&& TF_DEAD = 0) :
    RoundTrip c r r' env env' t thread state s ↔ (s.img t).fxdata ≠ none := by
  set u := stubRegs r 0x07 thread state
  set u' := stubRegs r' 0x08 thread state
  set s₁ := (trap s (.call u env)).setEax c 0 with hs₁
  have hret : Returns c s s₁ s.toSched := (trap_returns hs u env).setEax 0
  have hsys : SystemThread c s₁ := hret.system hs hs.active
  have hget : tGetstate c r env thread state s = some (0, saveInfo s env.info t, s₁) := by
    have hcall := userCall_of_kcall hs (kcall_getstate r env state hs (named_of_get ht) ht htc hst)
      (by rw [← hs₁, hret.sched]; exact hs.active)
    rw [setEax_eax] at hcall
    exact hcall
  have himg : s₁.img t = s.img t := hret.img t htc
  have hinfo : saveInfo s env.info t = saveInfo s₁ env.info t := by
    rw [saveInfo, saveInfo, himg]
    rfl
  set env₁ := { env' with info := saveInfo s env.info t } with henv₁
  have hret₁ := trap_returns hsys u' env₁
  set s₂ := trap s₁ (.call u' env₁)
  have himg₂ : s₂.img t = s.img t := (hret₁.img t htc).trans himg
  have hk : kcall env₁ s₂ c = (fun s' => (s'.setEax c 0, env₁.info)) <$>
      setstateCopy (saveInfo s₂ env.info t) s₂ t :=
    kcall_setstate_back hsys rfl rfl ht htc hst (by rw [himg]; exact hlive) hinfo
  have hnr : (s₂.tcb t).state ≠ .running := by
    intro h
    have hrun : (s.tcb t).state = .running := h
    rw [hrun] at hst
    rcases hst with hst | hst <;> cases hst
  constructor
  · rintro ⟨info, s₁', s₃, hget', hset, hsame, -⟩ hnone
    cases hget.symm.trans hget'
    -- the copy has given the thread an area
    obtain ⟨s₄, h₁, h₂⟩ := userCall_cases hsys hset
    rw [hk] at h₁
    obtain ⟨s₅, hcopy, h₄⟩ := map_eq_ok.mp h₁
    cases h₄
    obtain ⟨-, q, -, -, himg₅⟩ := setstateCopy_img hcopy
    have hq : (s₃.img t).fxdata = some q := by
      rw [schedule_img h₂, Kernel.setEax, updImg_ne _ _ htc, himg₅, Function.update_self]
    have hfpu := hsame.fpu
    rw [Kernel.fxImage, Kernel.fxImage, hq, hnone] at hfpu
    cases hfpu
  · intro hsome
    obtain ⟨q, hq⟩ := Option.ne_none_iff_exists'.mp hsome
    rw [setstateCopy_back env.info hnr (by rw [himg₂]; exact hq)] at hk
    have hcall := userCall_of_kcall hsys hk hs.active
    rw [setEax_eax] at hcall
    have hfin : (s₂.setEax c 0).img t = s.img t := by
      rw [Kernel.setEax, updImg_ne _ _ htc, himg₂]
    refine ⟨_, s₁, _, hget, hcall, ⟨rfl, ?_, ?_⟩, rfl⟩
    · rw [hfin]
    · rw [Kernel.fxImage, Kernel.fxImage, hfin]
      rfl

end Calls

/-- A thread that a first `SETSTATE` has given its area. -/
theorem getstate_setstate_area : ∃ s c t, KernelReach (fun _ _ => True) s ∧ SystemThread c s ∧
    threadGet s.toSched 1 = some t ∧ RoundTrip c idleRegs idleRegs noEnv noEnv t 1 0 s := by
  obtain ⟨s, hs, hf⟩ := exists_bootRun (fun _ _ => True)
    [callOf 0x02 0, callOf 0x05 1, systemCall 0x08 1 0]
    (fun s => s.active.any fun c => (threadGet s.toSched 1).any fun t =>
      decide ((s.img c).flags &&& TF_USER = 0) && decide (t ≠ c) &&
      decide ((s.tcb t).state = .paused) && decide ((s.img t).flags &&& TF_DEAD = 0) &&
      decide ((s.img t).fxdata ≠ none)) (by decide +kernel)
  simp only [Bool.and_eq_true, decide_eq_true_eq, Option.any_eq_true] at hf
  obtain ⟨c, hact, t, ht, ⟨⟨⟨hmode, htc⟩, hst⟩, hlive⟩, hfx⟩ := hf
  have ht' : threadGet s.toSched (1 : U32).toInt = some t := ht
  exact ⟨s, c, t, hs, ⟨hact, hmode⟩, ht,
    (getstate_setstate_iff idleRegs idleRegs noEnv noEnv 0 ⟨hact, hmode⟩ ht' htc
      (.inl hst) hlive).mpr hfx⟩

/-- The same of a thread that has just been spawned: it gets the FPU part of the buffer. -/
theorem getstate_setstate_fails : ∃ s c t info s₁ s₂, KernelReach (fun _ _ => True) s ∧
    SystemThread c s ∧ threadGet s.toSched 1 = some t ∧ (s.tcb t).state = .paused ∧
    (s.img t).flags &&& TF_DEAD = 0 ∧
    tGetstate c idleRegs noEnv 1 0 s = some (0, info, s₁) ∧
    tSetstate c idleRegs noEnv 1 0 info s₁ = some (0, info, s₂) ∧
    s.fxImage t = none ∧ s₂.fxImage t = some noEnv.info.regs.fxdata ∧
    ¬RoundTrip c idleRegs idleRegs noEnv noEnv t 1 0 s := by
  obtain ⟨s, hs, hf⟩ := exists_bootRun (fun _ _ => True) [callOf 0x02 0, callOf 0x05 1]
    (fun s => s.active.any fun c => (threadGet s.toSched 1).any fun t =>
      decide ((s.img c).flags &&& TF_USER = 0) && decide ((s.tcb t).state = .paused) &&
      decide ((s.img t).flags &&& TF_DEAD = 0) && decide (s.fxImage t = none) &&
      (tGetstate c idleRegs noEnv 1 0 s).any fun (x : U32 × TInfo × Kernel) => decide (x.1 = 0) &&
        (tSetstate c idleRegs noEnv 1 0 x.2.1 x.2.2).any fun (y : U32 × TInfo × Kernel) =>
          decide (y.1 = 0) &&
          decide (y.2.1 = x.2.1) && decide (y.2.2.fxImage t = some noEnv.info.regs.fxdata))
    (by decide +kernel)
  simp only [Bool.and_eq_true, decide_eq_true_eq, Option.any_eq_true] at hf
  obtain ⟨c, hact, t, ht, ⟨⟨⟨hmode, hst⟩, hlive⟩, hnone⟩, ⟨v, info, s₁⟩, hget, hv,
    ⟨w, info', s₂⟩, hset, ⟨hw, hinfo⟩, hsome⟩ := hf
  subst hv hw hinfo
  refine ⟨s, c, t, _, s₁, s₂, hs, ⟨hact, hmode⟩, ht, hst, hlive, hget, hset, hnone, hsome, ?_⟩
  rintro ⟨info', s₁', s₂', hget', hset', hsame, -⟩
  cases hget.symm.trans hget'
  cases hset.symm.trans hset'
  have hfpu := hsame.fpu
  rw [hnone, hsome] at hfpu
  cases hfpu

end Pinion
