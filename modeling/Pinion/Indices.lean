/-
Indices of the kernel's arrays.

The functions that look up `_thread_table`, `irqstate`, `evqueue` and `_pctx_table` are
written once more so that they note each array and index before they use it.  Erasing
the notes gives the functions of the other modules.
* `threadGetW`, `eventWaitW`, `eventRemvW`, `eventSendW`, `pctxFreeW`, `pctxLoadW` — the
  functions with notes, `kcallW` — the calls that use them;
* `kcallW_out` — the notes change nothing else;
* `InArray` — the index is inside the array;
* `indices_iff` — a call leaves an array only in `WAIT` with an event below -256.
-/
import Pinion.Traced
import Pinion.Walks
import Pinion.Exit
import Pinion.Areas

open Runs

namespace Pinion

/-! ### Functions that note their indices -/

/-- The arrays that are indexed by arguments of calls. -/
inductive KArray
  | threadTable
  | irqstate
  | evqueue
  | pctxTable
  deriving DecidableEq

/-- The number of elements. -/
def KArray.size : KArray → ℕ
  | .threadTable => THREAD_COUNT
  | .irqstate => EV_COUNT
  | .evqueue => EV_COUNT
  | .pctxTable => PCTX_COUNT

/-- A computation that notes the arrays and indices it uses. -/
abbrev Watched := Traced Stop (KArray × ℤ)

/-- `a[i]` is about to be used. -/
def index (a : KArray) (i : ℤ) : Watched Unit := Traced.note (a, i) (.ok ())

def threadGetW (s : Sched) (thread : ℤ) : Watched (Option Ptr) :=
  if thread < 0 ∨ (THREAD_COUNT : ℤ) ≤ thread then pure none
  else do
    index .threadTable thread
    return s.table thread.toNat

/-- `irqstate[~event]` for a poll, else the queue of the event. -/
def eventWaitW (env : Env) (s : Kernel) (id event : ℤ) : Watched (ℤ × Kernel) := do
  match ← threadGetW s.toSched id with
  | none => return (1, s)
  | some thread =>
    if event < 0 then do
      index .irqstate (-event - 1)
      let v ← (irqstateAt env s.toSched (-event - 1).toNat : Except Stop ℤ)
      return (if v ≠ 0 then 1 else 0, s)
    else if (EV_COUNT : ℤ) ≤ event then return (1, s)
    else do
      index .irqstate event
      if s.irqstate event.toNat ≠ 0 then
        return (0, (threadSave s thread).onSched (makeReady · thread))
      else do
        index .evqueue event
        let s := s.onSched (evqueuePush · event.toNat thread)
        return (0, (threadSave s thread).setState thread .waiting)

def eventRemvW (s : Sched) (id event : ℤ) : Watched (ℤ × Sched) := do
  match ← threadGetW s id with
  | none => return (1, s)
  | some _ =>
    if event < 0 ∨ (EV_COUNT : ℤ) ≤ event then return (1, s)
    else do
      index .evqueue event
      -- the rest uses the same element of the array
      (eventRemv s id event : Except Stop (ℤ × Sched))

def eventSendW (s : Kernel) (event : ℤ) : Watched Kernel :=
  if event < 0 ∨ (EV_COUNT : ℤ) ≤ event then pure s
  else do
    index .evqueue event
    let s := eventWake s event.toNat
    if event < 240 then do
      let s := irqReset (irqMask s event.toNat) event.toNat
      index .irqstate event
      return { s with irqstate := Function.update s.irqstate event.toNat 1 }
    else return s

def pctxFreeW (m : Mem) (pctx : ℤ) : Watched (ℤ × Mem) :=
  if pctx ≤ 0 ∨ (PCTX_COUNT : ℤ) ≤ pctx then pure (1, m)
  else do
    index .pctxTable pctx
    if m.pctxTable pctx.toNat = 0 then return (1, m)
    else do
      let m ← (spaceFree m (m.pctxTable pctx.toNat) : Except Stop Mem)
      index .pctxTable pctx
      return (0, { m with pctxTable := Function.update m.pctxTable pctx.toNat 0 })

def pctxLoadW (m : Mem) (pctx : ℤ) : Watched (ℤ × Mem) :=
  if pctx ≤ 0 ∨ (PCTX_COUNT : ℤ) ≤ pctx then pure (1, m)
  else do
    index .pctxTable pctx
    if m.pctxTable pctx.toNat = 0 then return (1, m)
    else return (0, { m with cr3 := m.pctxTable pctx.toNat, activePctx := pctx })

/-! ### The calls -/

/-- `thread_get(image->ebx)`, which comes before the test for `-1`. -/
def targetOrSelfW (s : Kernel) (image : Ptr) : Watched (Option Ptr) := do
  let target ← threadGetW s.toSched (s.img image).ebx.toInt
  return if (s.img image).ebx = -1 then some image else target

def kcallSpawnW (env : Env) (s : Kernel) (image : Ptr) : Watched Kernel := do
  let (id, s) ← (threadNew s : Except Stop (ℤ × Kernel))
  if id = -1 then return s.setEax image (-1)
  match ← threadGetW s.toSched id with
  | none => (.error .kernelFault : Except Stop Kernel)
  | some thread =>
    let s := s.updImg thread (spawnImage (s.img image) env.info thread)
    let s := (s.setState thread .queued).onSched (schedulePush · thread)
    return s.setEax image (BitVec.ofInt 32 id)

def kcallReapW (env : Env) (s : Kernel) (image : Ptr) : Watched (Kernel × TInfo) := do
  match ← threadGetW s.toSched (s.img image).ebx.toInt with
  | none => (.error .kernelFault : Except Stop (Kernel × TInfo))
  | some target =>
    if (s.tcb target).state ≠ .paused then return (s.setEax image TE_STATE, env.info)
    else do
      let info := if (s.img image).ecx ≠ 0 then saveInfo s env.info target else env.info
      -- `thread_kill` clears the slot of the thread
      index .threadTable (s.tcb target).id
      return (threadKill (s.setEax image 0) target, info)

def kcallPauseW (s : Kernel) (image : Ptr) : Watched Kernel := do
  match ← targetOrSelfW s image with
  | none => return s.setEax image TE_EXIST
  | some target =>
    match (s.tcb target).state with
    | .running => return ((threadSave s target).setState target .paused).setEax image 0
    | .queued => do
      let (_, k) ← (scheduleRemv s.toSched target : Except Stop (ℤ × Sched))
      return ({ s with toSched := k }.setState target .paused).setEax image 0
    | .waiting => do
      let (_, k) ← eventRemvW s.toSched (s.tcb target).id (s.tcb target).event
      return ({ s with toSched := k }.setState target .pausedw).setEax image 0
    | _ => return s.setEax image TE_STATE

def kcallResumeW (env : Env) (s : Kernel) (image : Ptr) : Watched Kernel := do
  match ← threadGetW s.toSched (s.img image).ebx.toInt with
  | none => return s.setEax image TE_EXIST
  | some target =>
    match (s.tcb target).state with
    | .paused => return (s.onSched (makeReady · target)).setEax image 0
    | .pausedw => do
      let (_, s) ← eventWaitW env s (s.tcb target).id (s.tcb target).event
      return (s.setState target .waiting).setEax image 0
    | _ => return s.setEax image TE_STATE

def kcallGetstateW (env : Env) (s : Kernel) (image : Ptr) : Watched (Kernel × TInfo) := do
  match ← targetOrSelfW s image with
  | none => return (s.setEax image TE_EXIST, env.info)
  | some target =>
    if (s.tcb target).state ≠ .paused ∧ (s.tcb target).state ≠ .pausedw ∧ target ≠ image then
      return (s.setEax image TE_STATE, env.info)
    else return (s.setEax image 0, saveInfo s env.info target)

def setstateLoadW (src : TInfo) (s : Kernel) (target : Ptr) : Watched Kernel :=
  if (s.img target).pctx ≠ src.pctx then do
    let (_, m) ← pctxLoadW s.mm src.pctx.toInt
    return { s with mm := m }
  else return s

def kcallSetstateW (env : Env) (s : Kernel) (image : Ptr) : Watched Kernel := do
  match ← targetOrSelfW s image with
  | none => return s.setEax image TE_EXIST
  | some target =>
    if (s.tcb target).state = .paused ∨ (s.tcb target).state = .pausedw ∨
        (s.tcb target).state = .running then do
      let m := s.mm
      let s := if env.info.flags &&& TF_DEAD ≠ 0 then setstateKill s target else s
      let s ← setstateLoadW env.info s target
      let src ← (env.reread m s.mm : Except Stop TInfo)
      let s := s.updImg target (setstateAttrs src)
      let s ← (if (s.tcb target).state ≠ .running then setstateCopy src s target else pure s :
        Except Stop Kernel)
      return s.setEax image 0
    else return s.setEax image TE_STATE

def kcallWaitW (env : Env) (s : Kernel) (image : Ptr) : Watched Kernel := do
  let (r, s) ← eventWaitW env s (s.tcb image).id (s.img image).ebx.toInt
  return s.setEax image (BitVec.ofInt 32 r)

def kcallResetW (s : Kernel) (image : Ptr) : Watched Kernel := do
  let n := (s.img image).ebx.toNat
  let s ← if n < 240 then do
      index .irqstate n
      pure (irqUnmask { s with irqstate := Function.update s.irqstate n 0 } n)
    else pure s
  return s.setEax image 0

def kcallFreepctxW (s : Kernel) (image : Ptr) : Watched Kernel := do
  let i := s.img image
  let (r, m) ← pctxFreeW s.mm i.ebx.toInt
  return { s with mm := m }.updImg image fun _ => { i with eax := BitVec.ofInt 32 r }

/-- `kcall` with notes; the calls left out use none of the arrays but in the loops of
`thread_alloc` and `pctx_new`. -/
def kcallW (env : Env) (s : Kernel) (image : Ptr) : Watched (Kernel × TInfo) :=
  if (s.img image).flags &&& TF_USER ≠ 0 then pure (s.updImg image syscallEnter, env.info)
  else
    match Call.ofEax (s.img image).eax with
    | .spawn => do return (← kcallSpawnW env s image, env.info)
    | .reap => kcallReapW env s image
    | .pause => do return (← kcallPauseW s image, env.info)
    | .resume => do return (← kcallResumeW env s image, env.info)
    | .getstate => kcallGetstateW env s image
    | .setstate => do return (← kcallSetstateW env s image, env.info)
    | .wait => do return (← kcallWaitW env s image, env.info)
    | .reset => do return (← kcallResetW s image, env.info)
    | .freepctx => do return (← kcallFreepctxW s image, env.info)
    | _ => (kcall env s image : Except Stop (Kernel × TInfo))

/-! ### Without the notes -/

section Erasure

variable {env : Env} {s : Kernel} {c : Ptr}

@[simp] theorem index_out {β : Type} (a : KArray) (i : ℤ) (f : Unit → Watched β) :
    (index a i >>= f).out = (f ()).out := rfl

@[simp] theorem threadGetW_out (k : Sched) (id : ℤ) :
    (threadGetW k id).out = .ok (threadGet k id) := by
  unfold threadGetW threadGet
  split_ifs with hid
  · rfl
  · rfl

theorem threadGetW_bind_out {β : Type} (k : Sched) (id : ℤ) (f : Option Ptr → Watched β) :
    (threadGetW k id >>= f).out = (f (threadGet k id)).out := by
  rw [Traced.out_bind, threadGetW_out]
  rfl

theorem eventWaitW_out (id event : ℤ) :
    (eventWaitW env s id event).out = eventWait env s id event := by
  rw [eventWaitW, threadGetW_bind_out, eventWait]
  cases threadGet s.toSched id with
  | none => rfl
  | some thread =>
    dsimp only
    split_ifs with hneg hbig hset
    · rw [index_out, Traced.out_bind]
      rfl
    · rfl
    · rw [index_out]
      rfl
    · rw [index_out]
      rfl

theorem eventRemvW_out (k : Sched) (id event : ℤ) :
    (eventRemvW k id event).out = eventRemv k id event := by
  rw [eventRemvW, threadGetW_bind_out]
  cases hget : threadGet k id with
  | none =>
    rw [eventRemv, hget]
    rfl
  | some thread =>
    dsimp only
    split_ifs with hout
    · rw [eventRemv, hget]
      dsimp only
      rw [if_pos hout]
      rfl
    · rfl

theorem eventSendW_out (event : ℕ) : (eventSendW s event).out = .ok (eventSend s event) := by
  rw [eventSendW, eventSend]
  by_cases hbig : EV_COUNT ≤ event
  · rw [if_pos (.inr (by exact_mod_cast hbig)), if_pos hbig]
    rfl
  · have hin : ¬((event : ℤ) < 0 ∨ (EV_COUNT : ℤ) ≤ event) := by omega
    rw [if_neg hin, if_neg hbig, index_out, Int.toNat_natCast]
    dsimp only
    by_cases hline : event < 240
    · rw [if_pos (by exact_mod_cast hline), if_pos hline]
      rfl
    · rw [if_neg (by exact_mod_cast hline), if_neg hline]
      rfl

theorem pctxFreeW_out (m : Mem) (pctx : ℤ) : (pctxFreeW m pctx).out = pctxFree m pctx := by
  rw [pctxFreeW, pctxFree]
  split_ifs with hout hfree
  · rfl
  · rw [index_out]
    rfl
  · rw [index_out, Traced.out_bind]
    rfl

theorem pctxLoadW_out (m : Mem) (pctx : ℤ) : (pctxLoadW m pctx).out = .ok (pctxLoad m pctx) := by
  rw [pctxLoadW, pctxLoad]
  split_ifs with hout hfree
  · rfl
  · rw [index_out]
    rfl
  · rw [index_out]
    rfl

theorem targetOrSelfW_bind_out {β : Type} (f : Option Ptr → Watched β) :
    (targetOrSelfW s c >>= f).out = (f (targetOrSelf s c)).out := by
  rw [Traced.out_bind, targetOrSelfW, threadGetW_bind_out]
  rfl

theorem kcallSpawnW_out : (kcallSpawnW env s c).out = kcallSpawn env s c := by
  rw [kcallSpawnW, kcallSpawn, Traced.out_bind]
  refine bind_congr fun r => ?_
  dsimp only
  split_ifs with hfull
  · rfl
  · rw [threadGetW_bind_out]
    cases threadGet r.2.toSched r.1 with
    | none => rfl
    | some thread => rfl

theorem kcallReapW_out : (kcallReapW env s c).out = kcallReap env s c := by
  rw [kcallReapW, kcallReap, threadGetW_bind_out]
  cases threadGet s.toSched (s.img c).ebx.toInt with
  | none => rfl
  | some target =>
    dsimp only
    split_ifs with hst
    · rfl
    · rfl
    · rfl

theorem kcallPauseW_out : (kcallPauseW s c).out = kcallPause s c := by
  rw [kcallPauseW, targetOrSelfW_bind_out, kcallPause]
  cases targetOrSelf s c with
  | none => rfl
  | some target =>
    dsimp only
    cases (s.tcb target).state with
    | queued =>
      dsimp only
      rw [Traced.out_bind]
      rfl
    | waiting =>
      dsimp only
      rw [Traced.out_bind, eventRemvW_out]
      rfl
    | _ => rfl

theorem kcallResumeW_out : (kcallResumeW env s c).out = kcallResume env s c := by
  rw [kcallResumeW, threadGetW_bind_out, kcallResume]
  cases threadGet s.toSched (s.img c).ebx.toInt with
  | none => rfl
  | some target =>
    dsimp only
    cases (s.tcb target).state with
    | pausedw =>
      dsimp only
      rw [Traced.out_bind, eventWaitW_out]
      rfl
    | _ => rfl

theorem kcallGetstateW_out : (kcallGetstateW env s c).out = .ok (kcallGetstate env s c) := by
  rw [kcallGetstateW, targetOrSelfW_bind_out, kcallGetstate]
  cases targetOrSelf s c with
  | none => rfl
  | some target =>
    dsimp only
    split_ifs with hst
    · rfl
    · rfl

theorem kcallWaitW_out : (kcallWaitW env s c).out = kcallWait env s c := by
  rw [kcallWaitW, kcallWait, Traced.out_bind, eventWaitW_out]
  rfl

theorem kcallResetW_out : (kcallResetW s c).out = .ok (kcallReset s c) := by
  rw [kcallResetW, kcallReset]
  dsimp only
  split_ifs with hline
  · rfl
  · rfl

theorem setstateLoadW_out (src : TInfo) (t : Ptr) :
    (setstateLoadW src s t).out = .ok (setstateLoad src s t) := by
  rw [setstateLoadW, setstateLoad]
  split_ifs with hctx
  · rw [Traced.out_bind, pctxLoadW_out]
    rfl
  · rfl

theorem kcallSetstateW_out : (kcallSetstateW env s c).out = kcallSetstate env s c := by
  rw [kcallSetstateW, targetOrSelfW_bind_out, kcallSetstate]
  cases targetOrSelf s c with
  | none => rfl
  | some target =>
    dsimp only
    by_cases hst : (s.tcb target).state = .paused ∨ (s.tcb target).state = .pausedw ∨
      (s.tcb target).state = .running
    · rw [if_pos hst, if_pos hst, Traced.out_bind, setstateLoadW_out]
      generalize (if env.info.flags &&& TF_DEAD ≠ 0 then setstateKill s target else s) = s₁
      refine (pure_bind _ _).trans ?_
      generalize setstateLoad env.info s₁ target = s₂
      rw [Traced.out_bind, Traced.out_lift]
      refine congrArg (Bind.bind _) (funext fun src => ?_)
      rw [Traced.out_bind, Traced.out_lift]
      split_ifs with hrun
      · rfl
      · rfl
    · rw [if_neg hst, if_neg hst]
      rfl

theorem kcallFreepctxW_out :
    (kcallFreepctxW s c).out = (pagingCall .freepctx s.mm (s.img c)).map fun r =>
      { s with mm := r.2 }.updImg c fun _ => r.1 := by
  rw [kcallFreepctxW, Traced.out_bind, pctxFreeW_out, pagingCall]
  cases pctxFree s.mm (s.img c).ebx.toInt with
  | error e => rfl
  | ok r => rfl

/-- The notes change nothing else. -/
theorem kcallW_out : (kcallW env s c).out = kcall env s c := by
  have hmap : ∀ (x : Watched Kernel) (y : Except Stop Kernel), x.out = y →
      (do return (← x, env.info) : Watched (Kernel × TInfo)).out = (·, env.info) <$> y := by
    intro x y h
    rw [Traced.out_bind, h]
    cases y with
    | error e => rfl
    | ok k => rfl
  rw [kcallW]
  split_ifs with huser
  · rw [kcall, if_pos huser]
    rfl
  · cases hcall : Call.ofEax (s.img c).eax with
    | spawn =>
      rw [kcall, if_neg huser, kernelCall, hcall]
      exact hmap _ _ kcallSpawnW_out
    | reap =>
      rw [kcall, if_neg huser, kernelCall, hcall]
      exact kcallReapW_out
    | pause =>
      rw [kcall, if_neg huser, kernelCall, hcall]
      exact hmap _ _ kcallPauseW_out
    | resume =>
      rw [kcall, if_neg huser, kernelCall, hcall]
      exact hmap _ _ kcallResumeW_out
    | getstate =>
      rw [kcall, if_neg huser, kernelCall, hcall]
      exact kcallGetstateW_out
    | setstate =>
      rw [kcall, if_neg huser, kernelCall, hcall]
      exact hmap _ _ kcallSetstateW_out
    | wait =>
      rw [kcall, if_neg huser, kernelCall, hcall]
      exact hmap _ _ kcallWaitW_out
    | reset =>
      rw [kcall, if_neg huser, kernelCall, hcall]
      exact hmap _ _ kcallResetW_out
    | freepctx =>
      rw [kcall, if_neg huser, kernelCall, hcall]
      dsimp only
      rw [hmap _ _ kcallFreepctxW_out]
      cases pagingCall .freepctx s.mm (s.img c) with
      | error e => rfl
      | ok r => rfl
    | _ => rfl

end Erasure

/-! ### Indices inside the arrays -/

/-- The index is inside the array. -/
def InArray (x : KArray × ℤ) : Prop := 0 ≤ x.2 ∧ x.2 < x.1.size

section Bounds

open Traced

variable {β : Type} {env : Env} {s : Kernel} {c : Ptr}

theorem only_index {a : KArray} {i : ℤ} {f : Unit → Watched β} :
    Only InArray (index a i >>= f) ↔ InArray (a, i) ∧ Only InArray (f ()) := by
  rw [only_bind]
  refine and_congr only_note ⟨fun h => h () rfl, fun h u _ => h⟩

theorem threadGetW_only (k : Sched) (id : ℤ) : Only InArray (threadGetW k id) := by
  rw [threadGetW]
  split_ifs with hid
  · exact .pure _
  · push Not at hid
    exact only_index.mpr ⟨hid, .pure _⟩

theorem threadGetW_bind_only (k : Sched) (id : ℤ) (f : Option Ptr → Watched β) :
    Only InArray (threadGetW k id >>= f) ↔ Only InArray (f (threadGet k id)) := by
  rw [only_bind, threadGetW_out]
  refine ⟨fun h => h.2 _ rfl, fun h => ⟨threadGetW_only k id, ?_⟩⟩
  rintro a ⟨rfl⟩
  exact h

/-- The poll `~event` is the one index that is not checked. -/
theorem eventWaitW_only (id event : ℤ) : Only InArray (eventWaitW env s id event) ↔
    (threadGet s.toSched id ≠ none → -EV_COUNT ≤ event) := by
  rw [eventWaitW, threadGetW_bind_only]
  cases threadGet s.toSched id with
  | none => exact iff_of_true (.pure _) fun h => absurd rfl h
  | some thread =>
    dsimp only
    by_cases hneg : event < 0
    · rw [if_pos hneg, only_index]
      constructor
      · rintro ⟨⟨-, hlt⟩, -⟩ -
        have hlt : -event - 1 < (EV_COUNT : ℤ) := hlt
        omega
      · intro h
        have hle := h (Option.some_ne_none thread)
        refine ⟨⟨?_, ?_⟩, .lift_bind fun v _ => .pure _⟩
        · show 0 ≤ -event - 1
          omega
        · show -event - 1 < (EV_COUNT : ℤ)
          omega
    · refine iff_of_true ?_ fun _ => by omega
      rw [if_neg hneg]
      refine .ite (fun _ => .pure _) fun hlt => ?_
      have hin : 0 ≤ event ∧ event < EV_COUNT := by omega
      refine only_index.mpr ⟨hin, .ite (fun _ => .pure _) fun _ => ?_⟩
      exact only_index.mpr ⟨hin, .pure _⟩

theorem eventRemvW_only (k : Sched) (id event : ℤ) : Only InArray (eventRemvW k id event) := by
  rw [eventRemvW, threadGetW_bind_only]
  cases threadGet k id with
  | none => exact .pure _
  | some thread =>
    refine .ite (fun _ => .pure _) fun hin => ?_
    push Not at hin
    exact only_index.mpr ⟨hin, .lift _⟩

theorem eventSendW_only (event : ℤ) : Only InArray (eventSendW s event) := by
  refine .ite (fun _ => .pure _) fun hin => ?_
  push Not at hin
  refine only_index.mpr ⟨hin, .ite (fun _ => ?_) fun _ => .pure _⟩
  exact only_index.mpr ⟨hin, .pure _⟩

theorem pctxFreeW_only (m : Mem) (pctx : ℤ) : Only InArray (pctxFreeW m pctx) := by
  refine .ite (fun _ => .pure _) fun hin => ?_
  have hin : 0 ≤ pctx ∧ pctx < PCTX_COUNT := by omega
  refine only_index.mpr ⟨hin, .ite (fun _ => .pure _) fun _ => ?_⟩
  exact .lift_bind fun m' _ => only_index.mpr ⟨hin, .pure _⟩

theorem pctxLoadW_only (m : Mem) (pctx : ℤ) : Only InArray (pctxLoadW m pctx) := by
  refine .ite (fun _ => .pure _) fun hin => ?_
  have hin : 0 ≤ pctx ∧ pctx < PCTX_COUNT := by omega
  exact only_index.mpr ⟨hin, .ite (fun _ => .pure _) fun _ => .pure _⟩

theorem targetOrSelfW_bind_only (f : Option Ptr → Watched β) :
    Only InArray (targetOrSelfW s c >>= f) ↔ Only InArray (f (targetOrSelf s c)) := by
  have hout : (targetOrSelfW s c).out = .ok (targetOrSelf s c) := by
    rw [targetOrSelfW, threadGetW_bind_out]
    rfl
  rw [only_bind, hout, targetOrSelfW, threadGetW_bind_only]
  refine ⟨fun h => h.2 _ rfl, fun h => ⟨.pure _, ?_⟩⟩
  rintro a ⟨rfl⟩
  exact h

theorem kcallSpawnW_only : Only InArray (kcallSpawnW env s c) := by
  refine .lift_bind fun r _ => .ite (fun _ => .pure _) fun _ => ?_
  rw [threadGetW_bind_only]
  cases threadGet r.2.toSched r.1 with
  | none => exact .lift _
  | some thread => exact .pure _

theorem kcallReapW_only (hw : TableWf s) : Only InArray (kcallReapW env s c) := by
  rw [kcallReapW, threadGetW_bind_only]
  cases hget : threadGet s.toSched (s.img c).ebx.toInt with
  | none => exact .lift _
  | some target =>
    refine .ite (fun _ => .pure _) fun _ => only_index.mpr ⟨?_, .pure _⟩
    -- the thread names its own slot
    obtain ⟨n, -, hlt, hslot⟩ := threadGet_eq_some hget
    rw [hw.id_eq n target hslot]
    exact ⟨Int.natCast_nonneg n, Int.ofNat_lt.mpr hlt⟩

theorem kcallPauseW_only : Only InArray (kcallPauseW s c) := by
  rw [kcallPauseW, targetOrSelfW_bind_only]
  cases targetOrSelf s c with
  | none => exact .pure _
  | some target =>
    dsimp only
    cases (s.tcb target).state with
    | queued => exact .lift_bind fun r _ => .pure _
    | waiting => exact only_bind.mpr ⟨eventRemvW_only _ _ _, fun r _ => .pure _⟩
    | _ => exact .pure _

theorem kcallResumeW_only (hsteady : Steady s.toSched) : Only InArray (kcallResumeW env s c) := by
  rw [kcallResumeW, threadGetW_bind_only]
  cases threadGet s.toSched (s.img c).ebx.toInt with
  | none => exact .pure _
  | some target =>
    dsimp only
    cases hst : (s.tcb target).state with
    | pausedw =>
      -- it was paused while it waited, on an event in range
      have hevent := (hsteady.events target (.inr hst)).1
      refine only_bind.mpr ⟨(eventWaitW_only _ _).mpr fun _ => ?_, fun r _ => .pure _⟩
      omega
    | _ => exact .pure _

theorem kcallGetstateW_only : Only InArray (kcallGetstateW env s c) := by
  rw [kcallGetstateW, targetOrSelfW_bind_only]
  cases targetOrSelf s c with
  | none => exact .pure _
  | some target => exact .ite (fun _ => .pure _) fun _ => .pure _

theorem kcallSetstateW_only : Only InArray (kcallSetstateW env s c) := by
  rw [kcallSetstateW, targetOrSelfW_bind_only]
  cases targetOrSelf s c with
  | none => exact .pure _
  | some target =>
    refine .ite (fun _ => ?_) fun _ => .pure _
    refine only_bind.mpr ⟨?_, fun s₁ _ => .lift_bind fun src _ => .lift_bind fun s₂ _ => .pure _⟩
    exact .ite (fun _ => only_bind.mpr ⟨pctxLoadW_only _ _, fun r _ => .pure _⟩) fun _ => .pure _

theorem kcallWaitW_only : Only InArray (kcallWaitW env s c) ↔
    (threadGet s.toSched (s.tcb c).id ≠ none → -EV_COUNT ≤ (s.img c).ebx.toInt) := by
  rw [kcallWaitW, only_bind, eventWaitW_only]
  exact and_iff_left fun r _ => .pure _

theorem kcallResetW_only : Only InArray (kcallResetW s c) := by
  refine .ite (fun hline => ?_) fun _ => .pure _
  refine only_index.mpr ⟨⟨Int.natCast_nonneg _, ?_⟩, .pure _⟩
  show ((s.img c).ebx.toNat : ℤ) < (256 : ℕ)
  omega

theorem kcallFreepctxW_only : Only InArray (kcallFreepctxW s c) :=
  only_bind.mpr ⟨pctxFreeW_only _ _, fun _ _ => .pure _⟩

/-- A kernel call leaves an array only as a poll. -/
theorem kcallW_only (hw : TableWf s) (hsteady : Steady s.toSched)
    (hmode : (s.img c).flags &&& TF_USER = 0) : Only InArray (kcallW env s c) ↔
      (Call.ofEax (s.img c).eax = .wait → threadGet s.toSched (s.tcb c).id ≠ none →
        -EV_COUNT ≤ (s.img c).ebx.toInt) := by
  have hret : ∀ x : Watched Kernel,
      Only InArray (do return (← x, env.info) : Watched (Kernel × TInfo)) ↔ Only InArray x :=
    fun x => only_bind.trans (and_iff_left fun k _ => .pure _)
  rw [kcallW, if_neg (not_not.mpr hmode)]
  cases hcall : Call.ofEax (s.img c).eax with
  | wait =>
    dsimp only
    rw [hret, kcallWaitW_only]
    exact ⟨fun h _ => h, fun h => h rfl⟩
  | spawn => exact iff_of_true ((hret _).mpr kcallSpawnW_only) nofun
  | reap => exact iff_of_true (kcallReapW_only hw) nofun
  | pause => exact iff_of_true ((hret _).mpr kcallPauseW_only) nofun
  | resume => exact iff_of_true ((hret _).mpr (kcallResumeW_only hsteady)) nofun
  | getstate => exact iff_of_true kcallGetstateW_only nofun
  | setstate => exact iff_of_true ((hret _).mpr kcallSetstateW_only) nofun
  | reset => exact iff_of_true ((hret _).mpr kcallResetW_only) nofun
  | freepctx => exact iff_of_true ((hret _).mpr kcallFreepctxW_only) nofun
  | _ => exact iff_of_true (.lift _) nofun

end Bounds

/-! ### Every call in every reachable state -/

/-- Whatever the arguments are, the other functions stay in their arrays, and without the
notes they are the functions of the kernel. -/
structure Checked (s : Kernel) : Prop where
  threadGet : ∀ id, Traced.Only InArray (threadGetW s.toSched id) ∧
    (threadGetW s.toSched id).out = .ok (threadGet s.toSched id)
  eventRemv : ∀ id event, Traced.Only InArray (eventRemvW s.toSched id event) ∧
    (eventRemvW s.toSched id event).out = eventRemv s.toSched id event
  eventSend : ∀ event, Traced.Only InArray (eventSendW s event) ∧
    (eventSendW s event).out = .ok (if event < 0 then s else eventSend s event.toNat)
  pctxFree : ∀ pctx, Traced.Only InArray (pctxFreeW s.mm pctx) ∧
    (pctxFreeW s.mm pctx).out = pctxFree s.mm pctx
  pctxLoad : ∀ pctx, Traced.Only InArray (pctxLoadW s.mm pctx) ∧
    (pctxLoadW s.mm pctx).out = .ok (pctxLoad s.mm pctx)

theorem checked (s : Kernel) : Checked s := by
  refine ⟨fun id => ⟨threadGetW_only _ id, threadGetW_out _ id⟩,
    fun id event => ⟨eventRemvW_only _ id event, eventRemvW_out _ id event⟩,
    fun event => ⟨eventSendW_only event, ?_⟩,
    fun pctx => ⟨pctxFreeW_only _ pctx, pctxFreeW_out _ pctx⟩,
    fun pctx => ⟨pctxLoadW_only _ pctx, pctxLoadW_out _ pctx⟩⟩
  split
  · rename_i hneg
    rw [eventSendW, if_pos (.inl hneg)]
    rfl
  · obtain ⟨n, rfl⟩ := Int.eq_ofNat_of_zero_le (not_lt.mp ‹_›)
    exact eventSendW_out n

/-- `WAIT` with an event below `-256`, made in system mode by a thread that exists. -/
structure PollsBeyond (s : Kernel) (c : Ptr) (r : UserRegs) : Prop where
  mode : (s.img c).flags &&& TF_USER = 0
  call : Call.ofEax r.eax = .wait
  exist : threadGet s.toSched (s.tcb c).id ≠ none
  below : r.ebx.toInt < -256

/-- **Indices stay inside the arrays** in a call from a reachable state if and only if it
is no `WAIT` that polls below `-256`. -/
theorem indices_iff {s : Kernel} {c : Ptr} (r : UserRegs) (env : Env)
    (h : KernelReach (fun _ _ => True) s) (hact : s.active = some c) :
    (kcallW env (trap s (.call r env)) c).out = kcall env (trap s (.call r env)) c ∧
      (Checked (trap s (.call r env)) ∧
        Traced.Only InArray (kcallW env (trap s (.call r env)) c) ↔ ¬PollsBeyond s c r) := by
  refine ⟨kcallW_out, (and_iff_right (checked _)).trans ?_⟩
  have hflags : ((trap s (.call r env)).img c).flags = (s.img c).flags := by
    simp only [trap, Kernel.updImg, hact, Option.getD_some, Function.update_self]
    rfl
  by_cases hmode : (s.img c).flags &&& TF_USER = 0
  · have hs : SystemThread c s := ⟨hact, hmode⟩
    have hsteady : Steady s.toSched := KernelReach.steady h
    obtain ⟨heax, hebx, -⟩ := trap_regs hs r env
    have hmode' : ((trap s (.call r env)).img c).flags &&& TF_USER = 0 := by
      rw [hflags]
      exact hmode
    rw [kcallW_only (trap_tableWf (KernelReach.tableWf h) _) hsteady hmode', heax, hebx]
    constructor
    · intro hin hpoll
      have hle : -((256 : ℕ) : ℤ) ≤ r.ebx.toInt := hin hpoll.call hpoll.exist
      have hlt := hpoll.below
      omega
    · intro hpoll hcall hexist
      by_contra hlt
      refine hpoll ⟨hmode, hcall, hexist, ?_⟩
      have hlt : ¬-((256 : ℕ) : ℤ) ≤ r.ebx.toInt := hlt
      omega
  · refine iff_of_true ?_ fun hpoll => hmode hpoll.mode
    rw [kcallW, if_pos (hflags ▸ hmode)]
    exact .pure _

/-- A poll of the last element. -/
theorem indices_last : ∃ s c, KernelReach (fun _ _ => True) s ∧ s.active = some c ∧
    Checked (trap s (.call (stubRegs idleRegs 0x0D (-256) 0) noEnv)) ∧
    Traced.Only InArray (kcallW noEnv
      (trap s (.call (stubRegs idleRegs 0x0D (-256) 0) noEnv)) c) := by
  obtain ⟨s, hs, hf⟩ := exists_bootRun (fun _ _ => True) []
    (fun s => s.active.any fun c => decide (s.active = some c)) (by decide +kernel)
  rw [Option.any_eq_true] at hf
  obtain ⟨c, -, hact⟩ := hf
  have hact := of_decide_eq_true hact
  refine ⟨s, c, hs, hact, (indices_iff _ noEnv hs hact).2.mpr fun hpoll => ?_⟩
  exact absurd hpoll.below (by decide)

/-- `WAIT(-257)`: the kernel reads `irqstate[256]`. -/
theorem indices_beyond : ∃ s c, KernelReach (fun _ _ => True) s ∧ s.active = some c ∧
    (KArray.irqstate, 256) ∈ (kcallW noEnv
      (trap s (.call (stubRegs idleRegs 0x0D (-257) 0) noEnv)) c).log ∧
    ¬InArray (KArray.irqstate, 256) := by
  obtain ⟨s, hs, hf⟩ := exists_bootRun (fun _ _ => True) []
    (fun s => s.active.any fun c => decide ((KArray.irqstate, 256) ∈
      (kcallW noEnv (trap s (.call (stubRegs idleRegs 0x0D (-257) 0) noEnv)) c).log))
    (by decide +kernel)
  simp only [Option.any_eq_true, decide_eq_true_eq] at hf
  obtain ⟨c, hact, hlog⟩ := hf
  exact ⟨s, c, hs, hact, hlog, fun h => absurd h.2 (by decide)⟩

end Pinion
