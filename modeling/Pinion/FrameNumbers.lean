/-
Frame numbers at the call interface.

The kernel returns the address of a frame in `eax`.  The stub `kcall` is declared to
return an `int`, and the wrappers that return a frame widen its value to `uint64_t`: the
upper half of the number is the sign of the lower one.
* `newframe`, `pAlloc`, `pSetFrame`, `pSetFlags`, `pGetFrame` — the wrappers;
* `userCall_paging` — a paging call comes back to its caller;
* `Told` — the numbers that programs are told for a frame;
* `frame_numbers_iff` — a frame keeps its number if and only if its address is below
  `2 ^ 31`.
-/
import Pinion.PageCalls
import Pinion.Exit
import Pinion.Modes

open Runs

namespace Pinion

/-! ### The wrappers -/

/-- The value of the stub, an `int`, as a `uint64_t`. -/
def widen (v : U32) : BitVec 64 := v.signExtend 64

section Wrappers

variable (c : Ptr) (r : UserRegs) (env : Env)

def newframe (s : Kernel) : Option (BitVec 64 × Kernel) :=
  (userCall c (stubRegs r 0x1C 0 0) env s).map fun x => (widen x.1, x.2.2)

def pSetFrame (page : U32) (frame : BitVec 64) (s : Kernel) : Option (U32 × Kernel) :=
  (userCall c (stubRegs r 0x12 page (frame.setWidth 32)) env s).map fun x => (x.1, x.2.2)

def pSetFlags (page flags : U32) (s : Kernel) : Option (U32 × Kernel) :=
  (userCall c (stubRegs r 0x13 page flags) env s).map fun x => (x.1, x.2.2)

def pGetFrame (page : U32) (s : Kernel) : Option (BitVec 64 × Kernel) :=
  (userCall c (stubRegs r 0x14 page 0) env s).map fun x => (widen x.1, x.2.2)

/-- The value of `frame` that `p_alloc` takes for an error. -/
def NO_FRAME : BitVec 64 := 0xFFFFFFFFFFFFFFFF

def pAlloc (page flags : U32) (s : Kernel) : Option (U32 × Kernel) :=
  (newframe c r env s).bind fun x =>
    if x.1 = NO_FRAME then some (1, x.2)
    else (pSetFrame c r env page x.1 x.2).bind fun y =>
      (pSetFlags c r env page flags y.2).map fun z => (0, z.2)

end Wrappers

/-! ### Widening -/

theorem widen_toInt (v : U32) : (widen v).toInt = v.toInt := by
  rw [widen, BitVec.toInt_signExtend_of_le (by decide)]

theorem widen_inj {v w : U32} : widen v = widen w ↔ v = w := by
  refine ⟨fun h => ?_, congrArg widen⟩
  have hint := congrArg BitVec.toInt h
  rw [widen_toInt, widen_toInt] at hint
  exact BitVec.eq_of_toInt_eq hint

/-- The lower half is kept. -/
theorem widen_low (v : U32) : (v.setWidth 64).setWidth 32 = v := by
  rw [BitVec.setWidth_setWidth_of_le _ (by decide), BitVec.setWidth_eq]

/-- A number survives if and only if its sign bit is clear. -/
theorem widen_exact (v : U32) : widen v = v.setWidth 64 ↔ v.toNat < 2 ^ 31 := by
  have hv := v.isLt
  have hwide : (v.setWidth 64).toNat = v.toNat := by
    rw [BitVec.toNat_setWidth]
    omega
  have hint := BitVec.toInt_eq_toNat_cond v
  have hint' := BitVec.toInt_eq_toNat_cond (v.setWidth 64)
  rw [hwide, if_pos (by omega)] at hint'
  constructor
  · intro h
    have heq := congrArg BitVec.toInt h
    rw [widen_toInt, hint'] at heq
    split_ifs at hint <;> omega
  · intro h
    rw [if_pos (by omega)] at hint
    refine BitVec.eq_of_toInt_eq ?_
    rw [widen_toInt, hint, hint']

/-- The address of a frame is not the error value. -/
theorem widen_aligned {f : U32} (hf : f &&& 0xFFF = 0) : widen f ≠ NO_FRAME := by
  intro h
  have hall : f = 0xFFFFFFFF := widen_inj.mp (h.trans (by decide))
  rw [hall] at hf
  exact absurd hf (by decide)

theorem ufmt_aligned {f : U32} (hf : f &&& 0xFFF = 0) : pageUfmt f = f := by
  have hsplit : pageUfmt f ||| (f &&& 0xFFF) = f := by
    unfold pageUfmt
    ext i hi
    interval_cases i <;> simp
  rw [hf] at hsplit
  exact (BitVec.or_zero).symm.trans hsplit

/-! ### Paging calls that return -/

section Calls

variable {c : Ptr} {r : UserRegs} {env : Env} {s s' : Kernel} {i' : Image} {m' : Mem}
  {call : Call} {v : U32}

/-- A paging call that the wrappers make. -/
def Call.Wrapped (call : Call) : Prop :=
  call = .newframe ∨ call = .setframe ∨ call = .setflags ∨ call = .getframe

/-- A paging call comes back to its caller. -/
theorem userCall_paging (r : UserRegs) (env : Env) (hs : SystemThread c s)
    (hc : Call.ofEax r.eax = call) (hw : call.Wrapped)
    (h : pagingCall call s.mm ((trap s (.call r env)).img c) = .ok (i', m')) :
    ∃ s', userCall c r env s = some (i'.eax, env.info, s') ∧ SystemThread c s' ∧ s'.mm = m' := by
  obtain ⟨hmode, hcall⟩ := kcall_system hs r env hc
  have hk : kcall env (trap s (.call r env)) c =
      .ok ({ trap s (.call r env) with mm := m' }.updImg c fun _ => i', env.info) := by
    rw [kcall, if_neg (not_not.mpr hmode), kernelCall, hcall]
    rcases hw with rfl | rfl | rfl | rfl
    all_goals exact bind_eq_ok.mpr ⟨_, h, rfl⟩
  have hself : ({ trap s (.call r env) with mm := m' }.updImg c fun _ => i').img c = i' := by
    simp only [Kernel.updImg, Function.update_self]
  have hcall := userCall_of_kcall hs hk hs.active
  rw [hself] at hcall
  refine ⟨_, hcall, ⟨hs.active, ?_⟩, rfl⟩
  have hflags : i'.flags = ((trap s (.call r env)).img c).flags :=
    (pagingCall_counted h).keep fun _ _ _ _ _ => rfl
  rw [hself, hflags]
  exact hmode

variable {f e page : U32} {m : Mem}

theorem newframe_eq (r : UserRegs) (env : Env) (hs : SystemThread c s)
    (hnew : frameNew s.mm = .ok (f, m)) :
    ∃ s', newframe c r env s = some (widen f, s') ∧ SystemThread c s' ∧ s'.mm = m := by
  have hp : pagingCall .newframe s.mm
      ((trap s (.call (stubRegs r 0x1C 0 0) env)).img c) = .ok (_, m) :=
    bind_eq_ok.mpr ⟨_, hnew, rfl⟩
  obtain ⟨s', hcall, hs', hm⟩ := userCall_paging (stubRegs r 0x1C 0 0) env hs rfl (.inl rfl) hp
  refine ⟨s', ?_, hs', hm⟩
  rw [newframe, hcall]
  rfl

theorem pSetFrame_eq (r : UserRegs) (env : Env) (frame : BitVec 64) (hs : SystemThread c s)
    (hget : pageGet s.mm page = .ok e)
    (hset : pageSet s.mm page (pageFmt (frame.setWidth 32) e) = .ok m) :
    ∃ s', pSetFrame c r env page frame s = some (0, s') ∧ SystemThread c s' ∧ s'.mm = m := by
  obtain ⟨-, hebx, hecx⟩ := trap_regs hs (stubRegs r 0x12 page (frame.setWidth 32)) env
  have hebx' : _ = page := hebx
  have hecx' : _ = frame.setWidth 32 := hecx
  have hp : pagingCall .setframe s.mm
      ((trap s (.call (stubRegs r 0x12 page (frame.setWidth 32)) env)).img c) = .ok (_, m) :=
    bind_eq_ok.mpr ⟨e, by rw [hebx']; exact hget, bind_eq_ok.mpr
      ⟨m, by rw [hebx', hecx']; exact hset, rfl⟩⟩
  obtain ⟨s', hcall, hs', hm⟩ :=
    userCall_paging (stubRegs r 0x12 page (frame.setWidth 32)) env hs rfl
      (.inr (.inl rfl)) hp
  refine ⟨s', ?_, hs', hm⟩
  rw [pSetFrame, hcall]
  rfl

theorem pGetFrame_eq (r : UserRegs) (env : Env) (hs : SystemThread c s)
    (hpage : page &&& 0xFFF = 0) (hget : pageGet s.mm page = .ok e) :
    ∃ s', pGetFrame c r env page s = some (widen (pageUfmt e), s') ∧ SystemThread c s' ∧
      s'.mm = s.mm := by
  obtain ⟨-, hebx, -⟩ := trap_regs hs (stubRegs r 0x14 page 0) env
  have hebx' : _ = page := hebx
  have hp : pagingCall .getframe s.mm
      ((trap s (.call (stubRegs r 0x14 page 0) env)).img c) = .ok (_, s.mm) :=
    bind_eq_ok.mpr ⟨e, by rw [hebx', ← pageUfmt, ufmt_aligned hpage]; exact hget, rfl⟩
  obtain ⟨s', hcall, hs', hm⟩ :=
    userCall_paging (stubRegs r 0x14 page 0) env hs rfl (.inr (.inr (.inr rfl))) hp
  refine ⟨s', ?_, hs', hm⟩
  rw [pGetFrame, hcall]
  show some (widen (pageUfmt e ||| (_ &&& 0xFFF)), s') = _
  rw [hebx', hpage, show pageUfmt e ||| 0 = pageUfmt e from BitVec.or_zero]

/-! ### The claim -/

/-- The numbers that programs are told for the frame `f`. -/
inductive Told : U32 → BitVec 64 → Prop
  | new {c : Ptr} {r : UserRegs} {env : Env} {s s' : Kernel} {f : U32} {m : Mem} {v : BitVec 64} :
    SystemThread c s → frameNew s.mm = .ok (f, m) → newframe c r env s = some (v, s') → Told f v
  | get {c : Ptr} {r : UserRegs} {env : Env} {s s' : Kernel} {page e : U32} {v : BitVec 64} :
    SystemThread c s → page &&& 0xFFF = 0 → pageGet s.mm page = .ok e →
      pGetFrame c r env page s = some (v, s') → Told (pageUfmt e) v

theorem Told.eq {v : BitVec 64} (h : Told f v) : v = widen f := by
  cases h with
  | new hs hnew hcall =>
    obtain ⟨s₁, heq, -⟩ := newframe_eq _ _ hs hnew
    cases heq.symm.trans hcall
    rfl
  | get hs hpage hget hcall =>
    obtain ⟨s₁, heq, -⟩ := pGetFrame_eq _ _ hs hpage hget
    cases heq.symm.trans hcall
    rfl

end Calls

/-- A frame keeps its number: `newframe` returns it, `p_get_frame` does after
`p_set_frame`, equal numbers are equal frames, and `p_alloc` sees no error in it. -/
structure FrameSurvives (c : Ptr) (r : UserRegs) (env : Env) (s : Kernel) (page f : U32) :
    Prop where
  new : ∀ m, frameNew s.mm = .ok (f, m) → ∃ s', newframe c r env s = some (f.setWidth 64, s')
  get : ∃ s₁ s₂, pSetFrame c r env page (f.setWidth 64) s = some (0, s₁) ∧
    pGetFrame c r env page s₁ = some (f.setWidth 64, s₂)
  equal : ∀ g v w, Told f v → Told g w → (v = w ↔ f = g)
  error : ∀ v, Told f v → v ≠ NO_FRAME
  alloc : ∀ m flags s', frameNew s.mm = .ok (f, m) →
    pAlloc c r env page flags s ≠ some (1, s')

/-- What `p_get_frame` returns after `p_set_frame`. -/
theorem set_get {c : Ptr} {s : Kernel} (r : UserRegs) (env : Env) {H A : Set (BitVec 20)}
    {page f : U32} (hs : SystemThread c s) (hspace : SpaceBelow 1022 s.mm H A)
    (hp : page < TMP_MAP) (hpage : page &&& 0xFFF = 0) (hf : f &&& 0xFFF = 0)
    (hnew : ¬Pres (s.mm.phys s.mm.dir (pdx page)) → Plenty 1 s.mm) :
    ∃ s₁ s₂, pSetFrame c r env page (f.setWidth 64) s = some (0, s₁) ∧
      pGetFrame c r env page s₁ = some (widen f, s₂) := by
  obtain ⟨set, hset⟩ := hspace.sets hp hnew
  obtain ⟨s₁, hcall₁, hs₁, hm₁⟩ :=
    pSetFrame_eq r env (f.setWidth 64) hs (hspace.self.get page) (hset.first _)
  rw [widen_low] at hm₁
  have hget₁ : pageGet s₁.mm page = .ok (pageFmt f (s.mm.entry s.mm.dir page)) := by
    rw [hm₁]
    exact hset.here _ page rfl
  obtain ⟨s₂, hcall₂, -⟩ := pGetFrame_eq r env hs₁ hpage hget₁
  rw [pageUfmt_fmt, ufmt_aligned hf] at hcall₂
  exact ⟨s₁, s₂, hcall₁, hcall₂⟩

/-- **A frame keeps its number** through the call interface if and only if its address is
below `2 ^ 31`. -/
theorem frame_numbers_iff {c : Ptr} {s : Kernel} (r : UserRegs) (env : Env)
    (H A : Set (BitVec 20)) (page f : U32) (hs : SystemThread c s)
    (hspace : SpaceBelow 1022 s.mm H A) (hp : page < TMP_MAP) (hpage : page &&& 0xFFF = 0)
    (hf : f &&& 0xFFF = 0) (hnew : ¬Pres (s.mm.phys s.mm.dir (pdx page)) → Plenty 1 s.mm) :
    FrameSurvives c r env s page f ↔ f.toNat < 2 ^ 31 := by
  obtain ⟨s₁, s₂, hset, hget⟩ := set_get r env hs hspace hp hpage hf hnew
  constructor
  · intro h
    obtain ⟨t₁, t₂, hset', hget'⟩ := h.get
    cases hset.symm.trans hset'
    have hpair := Option.some.inj (hget.symm.trans hget')
    exact (widen_exact f).mp (congrArg Prod.fst hpair)
  · intro hlt
    have hexact := (widen_exact f).mpr hlt
    refine ⟨fun m hnew => ?_, ⟨s₁, s₂, hset, ?_⟩, fun g v w hv hw => ?_, fun v hv => ?_,
      fun m flags s' hnew halloc => ?_⟩
    · obtain ⟨s', hcall, -⟩ := newframe_eq r env hs hnew
      rw [← hexact]
      exact ⟨s', hcall⟩
    · rw [← hexact]
      exact hget
    · rw [hv.eq, hw.eq]
      exact widen_inj
    · rw [hv.eq]
      exact widen_aligned hf
    · -- the test of `p_alloc` fails, so that it returns 0
      obtain ⟨s₃, hcall, -⟩ := newframe_eq r env hs hnew
      rw [pAlloc, hcall, Option.bind_some, if_neg (widen_aligned hf)] at halloc
      obtain ⟨y, -, halloc⟩ := Option.bind_eq_some_iff.mp halloc
      obtain ⟨z, -, hz⟩ := Option.map_eq_some_iff.mp halloc
      cases hz

/-- The kernel with one page of the kernel mapped, in a call of the first thread. -/
theorem exists_system : ∃ c s, SystemThread c s ∧ s.mm = imageMem [] := by
  obtain ⟨s, -, hf⟩ := exists_bootRun (fun _ _ => True) []
    (fun s => s.active.any fun c => decide ((s.img c).flags &&& TF_USER = 0)) (by decide +kernel)
  simp only [Option.any_eq_true, decide_eq_true_eq] at hf
  obtain ⟨c, hact, hmode⟩ := hf
  exact ⟨c, { s with mm := imageMem [] }, ⟨hact, hmode⟩, rfl⟩

/-- A frame below 2 GiB. -/
theorem frame_numbers_low : ∃ c s, SystemThread c s ∧
    FrameSurvives c idleRegs noEnv s 0x1000 0x7FFFF000 := by
  obtain ⟨c, s, hs, hm⟩ := exists_system
  refine ⟨c, s, hs, (frame_numbers_iff idleRegs noEnv _ bootPool 0x1000 0x7FFFF000 hs
    (by rw [hm]; exact imageMem_below) (by decide) (by decide) (by decide) fun _ => ?_).mpr
      (by decide)⟩
  rw [hm]
  exact plenty_pool rfl (by decide)

/-- The frame of a device at `0xE0000000`: `p_get_frame` returns `0xFFFFFFFFE0000000`. -/
theorem frame_numbers_high : ∃ c s s₁ s₂, SystemThread c s ∧
    SpaceBelow 1022 s.mm (s.mm.fileFrames 0xF0000000 []) bootPool ∧
    pSetFrame c idleRegs noEnv 0x1000 0xE0000000 s = some (0, s₁) ∧
    pGetFrame c idleRegs noEnv 0x1000 s₁ = some (0xFFFFFFFFE0000000, s₂) ∧
    ¬FrameSurvives c idleRegs noEnv s 0x1000 0xE0000000 := by
  obtain ⟨c, s, hs, hm⟩ := exists_system
  have hspace : SpaceBelow 1022 s.mm (s.mm.fileFrames 0xF0000000 []) bootPool := by
    rw [hm]
    exact imageMem_below
  obtain ⟨s₁, s₂, hset, hget⟩ := set_get idleRegs noEnv hs hspace
    (show (0x1000 : U32) < TMP_MAP by decide) (by decide)
    (show (0xE0000000 : U32) &&& 0xFFF = 0 by decide) fun _ => by
      rw [hm]
      exact plenty_pool rfl (by decide)
  refine ⟨c, s, s₁, s₂, hs, hspace, hset, hget, fun h => ?_⟩
  obtain ⟨t₁, t₂, hset', hget'⟩ := h.get
  cases hset.symm.trans hset'
  have hpair := Option.some.inj (hget.symm.trans hget')
  have hvalue : widen 0xE0000000 = (0xE0000000 : U32).setWidth 64 := congrArg Prod.fst hpair
  exact absurd hvalue (by decide)

end Pinion
