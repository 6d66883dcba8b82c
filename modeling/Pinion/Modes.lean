/-
User and system mode.

`kcall` decides by `TF_USER` whether `int 0x81` is a system call, and the processor
runs on the selectors in the image.  `SPAWN`, `SYSRET` and the system call write both
together; `SETSTATE` writes the flags alone.

* `Calm π`, `Keep π` — a part `π` of the image that the return values and counters of
  the kernel are not in, and the steps that leave it alone in every image;
* `kcall_keep`, `handled_keep` — who writes such a part: `SYSRET` and the system call
  that of the caller, `SETSTATE` that of its target, `SPAWN` that of a fresh block;
* `Image.Mode` — the flag and the selectors agree;
* `ModeOk` — the entries that keep them together;
* `mode_coherent` — along every run of them, and what `int 0x81` then does.
-/
import Pinion.Images

open Runs

namespace Pinion

/-! ### Parts of an image -/

/-- A part of the image that is neither a return value nor one of the fields the
kernel counts, records and allocates in. -/
structure Calm {α : Type} (π : Image → α) : Prop where
  eax : ∀ (i : Image) (v : U32), π { i with eax := v } = π i
  ebx : ∀ (i : Image) (v : U32), π { i with ebx := v } = π i
  tick : ∀ (i : Image) (v : BitVec 64), π { i with tick := v } = π i
  fault : ∀ (i : Image) (v : U8), π { i with fault := v } = π i
  faultAddr : ∀ (i : Image) (v : U32), π { i with faultAddr := v } = π i
  fxdata : ∀ (i : Image) (v : Option Ptr), π { i with fxdata := v } = π i

/-- The part is the same in every image. -/
def Keep {α : Type} (π : Image → α) (s s' : Kernel) : Prop := ∀ p, π (s'.img p) = π (s.img p)

theorem Calm.counted {α : Type} {π : Image → α} (hπ : Calm π) {i i' : Image} (h : i.Counted i') :
    π i' = π i := by
  refine h.keep fun eax ebx tick fault addr => ?_
  calc π { i with eax := eax, ebx := ebx, tick := tick, fault := fault, faultAddr := addr }
      = π { i with eax := eax, ebx := ebx, tick := tick, fault := fault } :=
        hπ.faultAddr { i with eax := eax, ebx := ebx, tick := tick, fault := fault } addr
    _ = π { i with eax := eax, ebx := ebx, tick := tick } :=
        hπ.fault { i with eax := eax, ebx := ebx, tick := tick } fault
    _ = π { i with eax := eax, ebx := ebx } := hπ.tick { i with eax := eax, ebx := ebx } tick
    _ = π { i with eax := eax } := hπ.ebx { i with eax := eax } ebx
    _ = π i := hπ.eax i eax

section Keep

variable {α : Type} {π : Image → α} {s s' s'' : Kernel} {env : Env} {c : Ptr}

theorem Keep.of_img (h : s'.img = s.img) : Keep π s s' := fun p => by rw [h]

variable (hπ : Calm π)
include hπ

theorem Keep.setEax (h : Keep π s s') (p : Ptr) (v : U32) : Keep π s (s'.setEax p v) := by
  intro q
  by_cases hq : q = p
  · rw [Kernel.setEax, hq, updImg_self, hπ.eax]
    exact h p
  · rw [Kernel.setEax, updImg_ne _ _ hq]
    exact h q

/-- Up to the copy of the registers `SETSTATE` writes the attributes of its target. -/
theorem setstateBegin_keep (src src' : TInfo) (s : Kernel) (t : Ptr) :
    ∃ i, π i = π (s.img t) ∧ (setstateBegin src src' s t).img t = setstateAttrs src' i := by
  have hopen : Writes .counting s (setstateOpen src s t) :=
    setstateOpen_writes (fun _ p _ => counting_counts p) (.inl trivial) trivial
  refine ⟨(setstateOpen src s t).img t, ?_, updImg_self _ _ _⟩
  exact hopen.keep fun i i' (hi : i.Counted i') => hπ.counted hi

/-- The target of an accepted `SETSTATE`, in a part without registers. -/
theorem setstate_target (hregs : ∀ r i, π (setstateRegs r i) = π i)
    (h : kcallSetstate env s c = .ok s') {t : Ptr} (ht : s.toSched.named c (s.img c).ebx = some t)
    (hst : Settable (s.tcb t).state) :
    ∃ src i, Stores env s c t src ∧ π i = π (s.img t) ∧
      π (s'.img t) = π (setstateAttrs src i) := by
  rcases setstate_cases h with ⟨v, -, -, hrefused⟩ | ⟨u, src, s₁, hstores, rfl, h₁⟩
  · exact absurd hst (hrefused t ht)
  · obtain rfl : t = u := Option.some.inj (ht.symm.trans hstores.named)
    obtain ⟨i, hi, himage⟩ := setstateBegin_keep hπ env.info src s t
    refine ⟨src, i, hstores, hi, ?_⟩
    have hset : π ((s₁.setEax c 0).img t) = π (s₁.img t) := (Keep.of_img rfl).setEax hπ c 0 t
    rw [hset]
    rcases h₁ with ⟨-, hcopy⟩ | ⟨-, rfl⟩
    · obtain ⟨-, q, -, -, himg⟩ := setstateCopy_img hcopy
      rw [himg, Function.update_self, hπ.fxdata, hregs, himage]
    · rw [himage]

end Keep

/-- What `SPAWN` writes: a block that is no thread, and the result in `eax`. -/
theorem spawn_writes {env : Env} {s s' : Kernel} {c : Ptr} (hw : TableWf s)
    (h : kcallSpawn env s c = .ok s') : ∃ p v i, (∀ j, s.table j ≠ some p) ∧
      s'.img = ((s.updImg p fun _ => i).setEax c v).img ∧
      (s'.table = s.table ∨ ∃ i₀, i = spawnImage i₀ env.info p Image.zero) ∧
      ∀ j a, s'.table j = some a → a = p ∨ s.table j = some a := by
  obtain ⟨⟨n, s₁⟩, h₁, h⟩ := bind_eq_ok.mp h
  obtain ⟨⟨o, s₂⟩, h₂, h₁⟩ := bind_eq_ok.mp h₁
  obtain ⟨p, m, q, hm, -, himg, -, -, ho, htab⟩ := threadAlloc_img h₂
  have hfresh : ∀ j, s.table j ≠ some p :=
    fun j hj => (heapAlloc_thread hw.heap hm).2.1 (hw.owned j p hj)
  obtain ⟨p', -, -, -, -, ⟨rfl, -, hs₂⟩ | ⟨i, hi, rfl, -, hs₂⟩⟩ := threadAlloc_cases hw h₂
  · cases h₁
    simp only [if_true] at h
    cases h
    refine ⟨p, -1, Image.zero, hfresh, ?_, .inl ?_, htab⟩
    · simp only [Kernel.setEax, Kernel.updImg, himg]
    · rw [show (s₁.setEax c (-1)).table = s₁.table from rfl, hs₂]
  · cases h₁
    obtain rfl := ho p' rfl
    have hid : (s₁.tcb p').id = i := by rw [hs₂]; simp
    have hget : threadGet s₁.toSched i = some p' := by
      rw [threadGet_natCast hi, hs₂]
      simp
    have hne : ¬(i : ℤ) = -1 := by omega
    simp only [hid, hne, if_false, hget] at h
    cases h
    refine ⟨p', BitVec.ofInt 32 i, spawnImage (s₁.img c) env.info p' Image.zero, hfresh, ?_,
      .inr ⟨_, rfl⟩, fun j a hj => htab j a ?_⟩
    · simp only [Kernel.setEax, Kernel.updImg, Kernel.onSched, Kernel.setState, himg,
        Function.update_self, Function.update_idem]
    · simp only [Kernel.setEax, Kernel.updImg, Kernel.onSched, schedulePush_eq] at hj
      exact hj

/-! ### One entry -/

section Entry

variable {α : Type} {π : Image → α} {s s' : Kernel} {env : Env} {c : Ptr}

/-- The images whose part a kernel call leaves alone. -/
structure Spared (s : Kernel) (c : Ptr) (ebx : U32) (call : Call) (p : Ptr) : Prop where
  sysret : call = .sysret → p ≠ c
  setstate : call = .setstate → s.toSched.named c ebx ≠ some p
  spawn : call = .spawn → ∃ j, s.table j = some p

theorem kcall_keep (hπ : Calm π) {info : TInfo} (hw : TableWf s)
    (hsys : (s.img c).flags &&& TF_USER = 0) (h : kcall env s c = .ok (s', info)) {p : Ptr}
    (hp : Spared s c (s.img c).ebx (Call.ofEax (s.img c).eax) p) :
    π (s'.img p) = π (s.img p) := by
  refine (kcall_writes True hsys (.inl trivial) h).keep fun i i' hi => ?_
  cases hi with
  | counted _ hi => exact hπ.counted hi
  | freed _ _ _ hi => rw [hi, hπ.fxdata]
  | sysret hc hpc => exact absurd hpc (hp.sysret hc)
  | set hc ht => exact absurd ht (hp.setstate hc)
  | new m hc hm =>
    -- what the heap gives is no thread
    obtain ⟨j, hj⟩ := hp.spawn hc
    exact absurd (hw.owned j p hj) (heapAlloc_thread hw.heap hm).2.1

/-- Interrupts and faults write no such part but on entry. -/
theorem handled_keep (hπ : Calm π) {i : Input} {info : TInfo} (hi : ∀ r env, i ≠ .call r env)
    (h : handled s i = .ok (s', info)) : Keep π (trap s i) s' := by
  intro p
  refine (handled_writes True hi (.inl trivial) h).keep fun j j' hj => ?_
  exact hπ.counted hj.2

end Entry

/-! ### The mode of a thread -/

/-- The selectors and the mode flag. -/
def Image.mode (i : Image) : U32 × U32 × U32 × U8 := (i.cs, i.ss, i.ds, i.flags &&& TF_USER)

/-- `TF_USER` and the selectors of ring 3, or neither and those of ring 1. -/
def Image.Mode (i : Image) : Prop :=
  i.flags &&& TF_USER ≠ 0 ∧ i.cs = 0x2B ∧ i.ss = 0x33 ∧ i.ds = 0x33 ∨
    i.flags &&& TF_USER = 0 ∧ i.cs = 0x19 ∧ i.ss = 0x21 ∧ i.ds = 0x21

theorem mode_calm : Calm Image.mode :=
  ⟨fun _ _ => rfl, fun _ _ => rfl, fun _ _ => rfl, fun _ _ => rfl, fun _ _ => rfl, fun _ _ => rfl⟩

theorem Image.Mode.congr {i i' : Image} (h : i.Mode) (heq : i'.mode = i.mode) : i'.Mode := by
  simp only [Image.mode, Prod.mk.injEq] at heq
  obtain ⟨hcs, hss, hds, hflags⟩ := heq
  unfold Image.Mode
  rw [hcs, hss, hds, hflags]
  exact h

theorem syscallEnter_mode (i : Image) : (syscallEnter i).Mode := by
  have hclear : ∀ f : U8, (f &&& ~~~TF_USER) &&& TF_USER = 0 := by decide
  exact .inr ⟨hclear i.flags, rfl, rfl, rfl⟩

theorem sysret_mode (i : Image) : (sysret i).Mode := by
  have hset : ∀ f : U8, (f ||| TF_USER) &&& TF_USER ≠ 0 := by decide
  exact .inl ⟨hset i.flags, rfl, rfl, rfl⟩

theorem spawnImage_mode (i₀ : Image) (info : TInfo) (p : Ptr) :
    (spawnImage i₀ info p Image.zero).Mode := by
  have hzero : Image.zero.flags &&& TF_USER = 0 := by decide
  exact .inr ⟨hzero, rfl, rfl, rfl⟩

/-- The entries that give the caller new selectors: a system call and `SYSRET`. -/
def Input.Switches (s : Kernel) : Input → Prop
  | .call r _ => (s.img s.image).flags &&& TF_USER ≠ 0 ∨ Call.ofEax r.eax = .sysret
  | _ => False

instance (s : Kernel) : ∀ i : Input, Decidable (i.Switches s)
  | .call _ _ => inferInstanceAs (Decidable (_ ∨ _))
  | .irq _ _ _ => isFalse id
  | .fault _ _ _ => isFalse id

/-- The flags that `SETSTATE` stores leave the mode of its target as it is. -/
def Input.KeepsFlag (s : Kernel) (i : Input) : Prop :=
  ∀ x ∈ i.stores s, x.2.flags &&& TF_USER = (s.img x.1).flags &&& TF_USER

instance (s : Kernel) (i : Input) : Decidable (i.KeepsFlag s) :=
  inferInstanceAs (Decidable (∀ x ∈ i.stores s, _ = _))

/-- The entries that keep flag and selectors together: a thread comes with the data
selector it was given, and `SETSTATE` does not change the mode. -/
def ModeOk (s : Kernel) (i : Input) : Prop :=
  (s.active ≠ none → ¬i.Switches s → i.regs.ds = (s.img s.image).ds) ∧ i.KeepsFlag s

instance (s : Kernel) (i : Input) : Decidable (ModeOk s i) := inferInstanceAs (Decidable (_ ∧ _))

/-- Every thread of the table is in one of the two modes. -/
def Modes (s : Kernel) : Prop := ∀ j p, s.table j = some p → (s.img p).Mode

/-- The image an entry works on is that of a thread only if one is active. -/
theorem TableWf.image_active {s : Kernel} (hw : TableWf s) {j : ℕ} (hj : s.table j = some s.image) :
    s.active ≠ none := by
  intro hnone
  have hbase := (hw.owned j s.image hj).base
  rw [Sched.image, hnone, Option.getD_none] at hbase
  exact absurd hbase (by decide)

/-- The trap keeps the mode of a thread that comes with its own data selector. -/
theorem trap_mode {s : Kernel} {i : Input} {p : Ptr}
    (hds : p = s.image → i.regs.ds = (s.img s.image).ds) :
    ((trap s i).img p).mode = (s.img p).mode := by
  by_cases hp : p = s.image
  · subst hp
    rw [trap_img]
    simp only [Image.mode, pushFrame, hds rfl]
  · have himg : (trap s i).img p = s.img p :=
      updImg_ne { s with pic := i.pic s.pic } (pushFrame s.image i.num i.regs) hp
    rw [himg]

/-- A kernel call keeps the modes. -/
theorem kcall_modes {env : Env} {s s' : Kernel} {c : Ptr} {info : TInfo} (hw : TableWf s)
    (hsys : (s.img c).flags &&& TF_USER = 0)
    (hm : ∀ j p, s.table j = some p → (Call.ofEax (s.img c).eax = .sysret → p ≠ c) →
      (s.img p).Mode)
    (hflag : Call.ofEax (s.img c).eax = .setstate → ∀ t src, Stores env s c t src →
      src.flags &&& TF_USER = (s.img t).flags &&& TF_USER)
    (h : kcall env s c = .ok (s', info)) : Modes s' := by
  intro j p hj
  have heff := (kcall_effect hw h).1
  rw [if_neg (not_not.mpr hsys)] at heff
  by_cases hspawn : Call.ofEax (s.img c).eax = .spawn
  · -- the new thread starts in ring 1, the others are as before
    unfold kcall at h
    rw [if_neg (not_not.mpr hsys), kernelCall, hspawn] at h
    obtain ⟨s₁, h₁, h⟩ := map_eq_ok.mp h
    cases h
    obtain ⟨q, v, i, hfresh, himg, hnew, htab⟩ := spawn_writes hw h₁
    have hset := (Keep.of_img (π := Image.mode) (s := s.updImg q fun _ => i) rfl).setEax
      mode_calm c v p
    rw [himg]
    refine Image.Mode.congr ?_ hset
    by_cases hpq : p = q
    · subst hpq
      rw [updImg_self]
      rcases hnew with hsame | ⟨i₀, rfl⟩
      · rw [hsame] at hj
        exact absurd hj (hfresh j)
      · exact spawnImage_mode i₀ env.info p
    · rw [updImg_ne _ _ hpq]
      refine hm j p ((htab j p hj).resolve_left hpq) fun hc => ?_
      rw [hspawn] at hc
      cases hc
  · have hj' : s.table j = some p :=
      heff.table_sub (fun hact => hspawn (callAct_spawn hact)) hj
    by_cases hret : Call.ofEax (s.img c).eax = .sysret ∧ p = c
    · obtain ⟨hc, rfl⟩ := hret
      unfold kcall at h
      rw [if_neg (not_not.mpr hsys), kernelCall, hc] at h
      cases h
      rw [updImg_self]
      exact sysret_mode _
    · have hmode := hm j p hj' fun hc hp => hret ⟨hc, hp⟩
      by_cases hset : Call.ofEax (s.img c).eax = .setstate ∧
          s.toSched.named c (s.img c).ebx = some p
      · obtain ⟨hc, ht⟩ := hset
        have hk := h
        unfold kcall at hk
        rw [if_neg (not_not.mpr hsys), kernelCall, hc] at hk
        obtain ⟨s₁, h₁, hk⟩ := map_eq_ok.mp hk
        cases hk
        by_cases hst : Settable (s.tcb p).state
        · obtain ⟨src, i, hstores, hi, hs'⟩ := setstate_target mode_calm (fun _ _ => rfl) h₁ ht hst
          refine hmode.congr (hs'.trans ?_)
          simp only [Image.mode, Prod.mk.injEq] at hi
          simp only [Image.mode, setstateAttrs, hi, hflag hc p src hstores]
        · rcases setstate_cases h₁ with ⟨v, -, rfl, -⟩ | ⟨t, src, s₂, ⟨ht', hst', -⟩, -⟩
          · exact hmode.congr ((Keep.of_img rfl).setEax mode_calm c v p)
          · rw [ht] at ht'
            cases ht'
            exact absurd hst' hst
      · refine hmode.congr (kcall_keep mode_calm hw hsys h ⟨?_, ?_, ?_⟩)
        · exact fun hc hp => hret ⟨hc, hp⟩
        · exact fun hc ht => hset ⟨hc, ht⟩
        · exact fun hc => absurd hc hspawn

/-- **A handler keeps the modes.** -/
theorem handled_modes {s s' : Kernel} {i : Input} {info : TInfo} (hw : TableWf s)
    (hm : Modes s) (hok : ModeOk s i) (h : handled s i = .ok (s', info)) : Modes s' := by
  have hwt : TableWf (trap s i) := hw.keep ⟨fun _ => rfl, rfl⟩ (Keeps.refl _)
  have htrap : ∀ j p, s.table j = some p → (i.Switches s → p ≠ s.image) →
      ((trap s i).img p).Mode := by
    intro j p hj hsw
    refine (hm j p hj).congr (trap_mode fun hp => ?_)
    exact hok.1 (hw.image_active (hp ▸ hj)) fun hs => hsw hs hp
  have heff := (handled_effect hw h).1
  cases i with
  | call r env =>
    rw [handled_call] at h
    have himg := trap_img s (.call r env)
    have hregs : ((trap s (.call r env)).img s.image).eax = r.eax ∧
        ((trap s (.call r env)).img s.image).ebx = r.ebx ∧
        ((trap s (.call r env)).img s.image).flags = (s.img s.image).flags := by
      rw [himg]
      exact ⟨rfl, rfl, rfl⟩
    by_cases huser : (s.img s.image).flags &&& TF_USER = 0
    · refine kcall_modes hwt (by rw [hregs.2.2]; exact huser) (fun j p hj hsw => ?_)
        (fun hc t src hst => ?_) h
      · rw [hregs.1] at hsw
        refine htrap j p hj fun hs => hsw (hs.resolve_left (not_not.mpr huser))
      · rw [hregs.1] at hc
        have hflags : ((trap s (.call r env)).img t).flags = (s.img t).flags := by
          by_cases hp : t = s.image
          · rw [hp]
            exact hregs.2.2
          · rw [show (trap s (.call r env)).img t = s.img t from updImg_ne _ _ hp]
        rw [hflags]
        exact hok.2 (t, src) (hst.of_trap huser hc)
    · -- a system call: the caller gets the selectors of ring 1
      intro j p hj
      unfold kcall at h
      rw [if_pos (by rw [hregs.2.2]; exact huser)] at h
      cases h
      by_cases hp : p = s.image
      · subst hp
        rw [updImg_self]
        exact syscallEnter_mode _
      · rw [updImg_ne _ _ hp]
        exact htrap j p hj fun _ => hp
  | irq n r env =>
    intro j p hj
    have hact : Input.act s (.irq n r env) ≠ .spawn := fun hs => by
      obtain ⟨_, _, hcall, -⟩ := Input.act_spawn hs
      cases hcall
    have hkeep := handled_keep mode_calm (fun _ _ => by simp) h p
    exact (htrap j p (heff.table_sub hact hj) fun hs => hs.elim).congr hkeep
  | fault n r env =>
    intro j p hj
    have hact : Input.act s (.fault n r env) ≠ .spawn := fun hs => by
      obtain ⟨_, _, hcall, -⟩ := Input.act_spawn hs
      cases hcall
    have hkeep := handled_keep mode_calm (fun _ _ => by simp) h p
    exact (htrap j p (heff.table_sub hact hj) fun hs => hs.elim).congr hkeep

/-! ### Runs -/

/-- The first thread starts in ring 1. -/
theorem Init.modes {s : Kernel} (h : Init s) : Modes s := by
  obtain ⟨m, entry, stack, eflags, -, h⟩ := h
  obtain ⟨⟨id, s₁⟩, h₁, h⟩ := bind_eq_ok.mp h
  obtain ⟨⟨o, s₂⟩, h₂, h₁⟩ := bind_eq_ok.mp h₁
  obtain ⟨p, -, -, -, -, himg, -, -, -, htab⟩ := threadAlloc_img h₂
  obtain rfl : s₂ = s₁ := by cases o <;> cases h₁ <;> rfl
  have honly : ∀ j t, s₂.table j = some t → t = p :=
    fun j t ht => (htab j t ht).resolve_right fun hnone => (nomatch hnone)
  have hzero : s₂.img = fun _ => Image.zero := by
    rw [himg]
    exact Function.update_eq_self p _
  dsimp only at h
  split at h
  · cases h
  · rename_i t ht
    cases h
    obtain ⟨n, -, -, hn⟩ := threadGet_eq_some ht
    intro j q hj
    rw [Kernel.setState, Kernel.onSched, (threadLoad_toSched _ _).1] at hj
    obtain rfl : q = t := (honly j q hj).trans (honly n t hn).symm
    have himage : ((threadLoad (s₂.updImg q fun i =>
        { i with
          useresp := stack, esp := q + 36, ss := 0x21, ds := 0x21
          cs := 0x19, eflags := eflags ||| 0x1200, eip := entry }) q).setState q .running).img q =
        { Image.zero with
          useresp := stack, esp := q + 36, ss := 0x21, ds := 0x21
          cs := 0x19, eflags := eflags ||| 0x1200, eip := entry } := by
      rw [Kernel.setState, Kernel.onSched, (threadLoad_eq _ q).1, updImg_self, hzero]
    rw [himage]
    have hflags : Image.zero.flags &&& TF_USER = 0 := by decide
    exact .inr ⟨hflags, rfl, rfl, rfl⟩

theorem KernelReach.modes {s : Kernel} (h : KernelReach ModeOk s) : Modes s := by
  refine Reachable.invariant Modes (fun s hs => hs.modes) (fun s i s' hreach hm hok hs => ?_) h
  have hw := KernelReach.tableWf hreach
  obtain ⟨⟨o, s₁, info⟩, hstep, rfl⟩ := map_eq_ok.mp hs
  obtain ⟨s₂, h₂, h₁⟩ := step_cases hstep
  have hm₂ := handled_modes hw hm hok.2 h₂
  intro j p hj
  have htab := (schedule_picks (handled_effect hw h₂).2 h₁).1.table
  rw [schedule_img h₁]
  exact hm₂ j p (htab ▸ hj)

/-- All that a system call of `c` does: the thread goes on at its system entry point, with
the user `eip` and `esp` saved. -/
structure Enters (s : Kernel) (c : Ptr) (r : UserRegs) (s' : Kernel) : Prop where
  rest : s' = { s with img := s'.img }
  img : ∀ p, p ≠ c → s'.img p = s.img p
  image : s'.img c = { pushFrame c 0x81 r (s.img c) with
    usrEip := r.eip, usrEsp := r.esp, eip := (s.img c).sysEip, useresp := (s.img c).sysEsp
    ss := 0x21, ds := 0x21, cs := 0x19, flags := (s.img c).flags &&& ~~~TF_USER }

/-- **Flag and selectors agree** in every thread, along every run of entries that keep
them together; then `int 0x81` from ring 3 only enters the system code of the thread, and
`int 0x81` from ring 1 is a kernel call. -/
theorem mode_coherent {s : Kernel} (h : KernelReach ModeOk s) :
    (∀ j p, s.table j = some p → (s.img p).Mode) ∧
    ∀ c, s.active = some c → (∃ j, s.table j = some c) → ∀ r env,
      ((s.img c).cs &&& 3 = 3 → ∃ s', step s (.call r env) = .ok (some c, s', env.info) ∧
        Enters s c r s') ∧
      ((s.img c).cs &&& 3 = 1 →
        handled s (.call r env) = kernelCall env (trap s (.call r env)) c) := by
  refine ⟨h.modes, fun c hact hlive r env => ?_⟩
  obtain ⟨j, hj⟩ := hlive
  have hmode := h.modes j c hj
  have himage : s.image = c := by rw [Sched.image, hact, Option.getD_some]
  have himg := trap_img s (.call r env)
  have hflags : ((trap s (.call r env)).img c).flags = (s.img c).flags := by
    rw [himage] at himg
    rw [himg]
    rfl
  have hh := handled_call s r env
  rw [himage, kcall, hflags] at hh
  constructor
  · intro hring
    have huser : (s.img c).flags &&& TF_USER ≠ 0 := by
      rcases hmode with ⟨huser, -⟩ | ⟨-, hcs, -⟩
      · exact huser
      · rw [hcs] at hring
        exact absurd hring (by decide)
    rw [if_pos huser] at hh
    set s' := (trap s (.call r env)).updImg c syscallEnter with hs'
    have hsched : schedule s' = .ok (some c, s') := by
      unfold schedule
      rw [show s'.active = some c from hact]
    refine ⟨s', bind_eq_ok.mpr ⟨(s', env.info), hh, bind_eq_ok.mpr ⟨(some c, s'), hsched, rfl⟩⟩, ?_⟩
    refine ⟨rfl, fun p hp => ?_, ?_⟩
    · rw [hs', updImg_ne _ _ hp]
      exact updImg_ne _ _ (show p ≠ s.image by rw [himage]; exact hp)
    · rw [himage] at himg
      rw [hs', updImg_self, himg]
      rfl
  · intro hring
    have hsys : (s.img c).flags &&& TF_USER = 0 := by
      rcases hmode with ⟨-, hcs, -⟩ | ⟨hsys, -⟩
      · rw [hcs] at hring
        exact absurd hring (by decide)
      · exact hsys
    rw [if_neg (not_not.mpr hsys)] at hh
    exact hh

/-- A kernel call of a thread in ring 1. -/
def systemCall (eax ebx : U32) (flags : U8) : Input :=
  .call ⟨0x21, 0, 0, 0, ebx, 0, 0, eax, 0, 0, 0⟩ 
    { noEnv with info := { noEnv.info with flags := flags } }

/-- The first thread goes to user mode with `SYSRET` and comes back by a system call. -/
theorem mode_coherent_sysret : ∃ s c r, KernelReach ModeOk s ∧ (s.img c).cs = 0x2B ∧
    ∃ s', step s (.call r noEnv) = .ok (some c, s', noEnv.info) ∧ Enters s c r s' := by
  obtain ⟨s, hs, hf⟩ := exists_bootRun ModeOk [systemCall 0x0F 0 0]
    (fun s => s.active.any fun c => decide (s.table 0 = some c) && decide ((s.img c).cs = 0x2B))
    (by decide +kernel)
  simp only [Option.any_eq_true, Bool.and_eq_true, decide_eq_true_eq] at hf
  obtain ⟨c, hact, hlive, hcs⟩ := hf
  obtain ⟨-, hcall⟩ := mode_coherent hs
  obtain ⟨huser, -⟩ := hcall c hact ⟨0, hlive⟩ ⟨0x33, 0, 0, 0, 0, 0, 0, 0, 0, 0, 0⟩ noEnv
  exact ⟨s, c, _, hs, hcs, huser (by rw [hcs]; decide)⟩

/-- The first thread sets `TF_USER` in its own flags: it runs in ring 1 with the flag
set, and its next kernel call is taken for a system call. -/
theorem mode_coherent_fails : ∃ s c s', KernelReach (fun _ _ => True) s ∧ s.active = some c ∧
    s.table 0 = some c ∧ ¬(s.img c).Mode ∧ (s.img c).cs &&& 3 = 1 ∧
    handled s (systemCall 0x03 0 0) = .ok (s', noEnv.info) ∧
    (s'.img c).eip = (s.img c).sysEip ∧
    s' = (trap s (systemCall 0x03 0 0)).updImg c syscallEnter := by
  obtain ⟨s, hs, hf⟩ := exists_bootRun (fun _ _ => True) [systemCall 0x08 (-1) TF_USER]
    (fun s => s.active.any fun c => decide (s.table 0 = some c) && decide ((s.img c).cs = 0x19) &&
      decide ((s.img c).flags = TF_USER)) (by decide +kernel)
  simp only [Option.any_eq_true, Bool.and_eq_true, decide_eq_true_eq] at hf
  obtain ⟨c, hact, ⟨hlive, hcs⟩, hflags⟩ := hf
  have himage : s.image = c := by rw [Sched.image, hact, Option.getD_some]
  have himg := trap_img s (systemCall 0x03 0 0)
  rw [himage] at himg
  refine ⟨s, c, _, hs, hact, hlive, ?_, by rw [hcs]; decide, ?_, ?_, rfl⟩
  · rintro (⟨-, hcs', -⟩ | ⟨hclear, -⟩)
    · rw [hcs] at hcs'
      exact absurd hcs' (by decide)
    · rw [hflags] at hclear
      exact absurd hclear (by decide)
  · have hh := handled_call s ⟨0x21, 0, 0, 0, 0, 0, 0, 0x03, 0, 0, 0⟩
      { noEnv with info := { noEnv.info with flags := 0 } }
    have htrap : ((trap s (systemCall 0x03 0 0)).img c).flags &&& TF_USER ≠ 0 := by
      rw [himg]
      change (s.img c).flags &&& TF_USER ≠ 0
      rw [hflags]
      decide
    rw [himage, kcall] at hh
    rw [show systemCall 0x03 0 0 = .call _ _ from rfl, hh]
    exact if_pos htrap
  · rw [updImg_self, himg]
    rfl

end Pinion
