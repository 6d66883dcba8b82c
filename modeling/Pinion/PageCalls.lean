/-
The calls that map pages.

`SETFRAME` and `SETFLAGS` each change one half of a table entry; the table may have to be
made first.  In memory whose loaded directory names itself and its tables once each, and
where `frame_new` returns frames that are neither,
* `Sets` — `page_set` of one page, whatever was set before;
* `page_calls` — the two calls commute, the queries return what they have set, and every
  other page reads as before;
* `mem_alloc_pages` — `mem_alloc` returns, and maps the pages of its range that were not
  present to new frames.
-/
import Pinion.Loader

open Runs

namespace Pinion

/-! ### Halves of an entry -/

section Halves

variable (e f g : U32)

theorem pageUfmt_fmt : pageUfmt (pageFmt f e) = pageUfmt f := by
  unfold pageUfmt pageFmt
  ext i hi
  interval_cases i <;> simp [PF_MASK]

theorem pageFmt_ufmt : pageFmt (pageUfmt f) g = pageFmt f g := by
  unfold pageUfmt pageFmt
  ext i hi
  interval_cases i <;> simp

theorem pageFmt_mask : pageFmt f e &&& PF_MASK = e &&& PF_MASK := by
  unfold pageFmt
  ext i hi
  interval_cases i <;> simp [PF_MASK]

theorem pageFmt_fmt : pageFmt f (pageFmt e g) = pageFmt f g := by
  rw [pageFmt, pageFmt_mask, pageFmt]

end Halves

/-! ### One page -/

theorem poke_poke (m : Mem) (f : BitVec 20) (i : BitVec 10) (v w : U32) :
    (m.poke f i v).poke f i w = m.poke f i w := by
  rw [Mem.poke, Mem.poke, fill_fill, fill_self, Function.update_idem, Mem.poke]

theorem page_lt {p : U32} (hp : p < TMP_MAP) : (pdx p).toNat < 1022 := by
  rw [BitVec.lt_def, show TMP_MAP.toNat = 4194304 * 1022 from rfl] at hp
  exact pdx_lt hp

theorem samePage_shift (p q : U32) : SamePage p q ↔ p >>> 12 = q >>> 12 := by
  rw [samePage_iff, ← BitVec.toNat_inj, BitVec.toNat_ushiftRight, BitVec.toNat_ushiftRight,
    Nat.shiftRight_eq_div_pow, Nat.shiftRight_eq_div_pow]

/-- The other pages below `TMP_MAP` read through `page_get` as before. -/
def KeepsOthers (p : U32) (m m' : Mem) : Prop :=
  ∀ q < TMP_MAP, q >>> 12 ≠ p >>> 12 → pageGet m' q = pageGet m q

/-- `page_set` of a page leaves `set v`, also when the page has been set before. -/
structure Sets (m : Mem) (p : U32) (set : U32 → Mem) : Prop where
  first : ∀ v, pageSet m p v = .ok (set v)
  again : ∀ v w, pageSet (set v) p w = .ok (set w)
  here : ∀ v q : U32, q >>> 12 = p >>> 12 → pageGet (set v) q = .ok v
  others : ∀ v, KeepsOthers p m (set v)

/-- What `page_set` does to a page below `TMP_MAP`, with or without a table. -/
theorem SpaceBelow.sets {m : Mem} {H A : Set (BitVec 20)} {p : U32} (h : SpaceBelow 1022 m H A)
    (hp : p < TMP_MAP) (hnew : ¬Pres (m.phys m.dir (pdx p)) → Plenty 1 m) :
    ∃ set, Sets m p set := by
  have hlt := page_lt hp
  have hn : 1022 ≤ 1023 := by decide
  obtain ⟨t, A', hr, hset⟩ := h.ready hn fun habs => by
    obtain ⟨f, m₁, hf, -⟩ := (hnew habs).new
    exact ⟨f, m₁, hf⟩
  have htab := hr.space.tab_ne_dir hr.pres hn hlt
  refine ⟨fun v => t.poke (t.tab p) (ptx p) v, hset, fun v w => ?_, fun v q hq => ?_,
    fun v q hq hne => ?_⟩
  · -- the directory, and so the table, is the same after the first call
    obtain ⟨hspace, -⟩ := hr.space.poke hr.pres hn hlt v
    have hd : (t.poke (t.tab p) (ptx p) v).phys t.dir = t.phys t.dir := fill_of_ne _ _ _ _ htab.symm
    have hpres : Pres ((t.poke (t.tab p) (ptx p) v).phys t.dir (pdx p)) := by
      rw [hd]
      exact hr.pres
    have hsame : (t.poke (t.tab p) (ptx p) v).tab p = t.tab p := by
      show frameNo ((t.poke (t.tab p) (ptx p) v).phys t.dir (pdx p)) = _
      rw [hd]
      rfl
    rw [hspace.self.set_present hpres w, hsame, poke_poke]
  · obtain ⟨hspace, -, hpte, -⟩ := hr.space.poke hr.pres hn hlt v
    rw [hspace.self.get q]
    exact congrArg _ (hpte q ((samePage_shift q p).mpr hq))
  · obtain ⟨hspace, -, -, hother, -⟩ := hr.space.poke hr.pres hn hlt v
    rw [hspace.self.get q, h.self.get q]
    refine congrArg _ ((hother q (.inl (page_lt hq)) fun hs => ?_).trans (hr.pte q (page_lt hq)))
    exact hne ((samePage_shift q p).mp hs)

/-! ### The calls -/

/-- A paging call with two arguments: what it returns in `eax`, and the memory after it. -/
def Call.on (c : Call) (i : Image) (a b : U32) (m : Mem) : Except Stop (U32 × Mem) := do
  let (i, m) ← pagingCall c m { i with ebx := a, ecx := b }
  return (i.eax, m)

/-- The entries of the pages below `TMP_MAP` carry only flags in `PF_MASK`. -/
def Mem.Masked (m : Mem) : Prop :=
  ∀ q < TMP_MAP, ∀ e, pageGet m q = .ok e → e &&& PF_MASK = e &&& 0xFFF

section Calls

variable {m m' : Mem} {i : Image} {p q a b e : U32}

theorem setframe_on (hget : pageGet m p = .ok e) (hset : pageSet m p (pageFmt b e) = .ok m') :
    Call.setframe.on i p b m = .ok (0, m') :=
  bind_eq_ok.mpr ⟨_, bind_eq_ok.mpr ⟨_, hget, bind_eq_ok.mpr ⟨_, hset, rfl⟩⟩, rfl⟩

theorem setflags_on (hget : pageGet m p = .ok e)
    (hset : pageSet m p (pageFmt (pageUfmt e) b) = .ok m') :
    Call.setflags.on i p b m = .ok (0, m') :=
  bind_eq_ok.mpr ⟨_, bind_eq_ok.mpr ⟨_, hget, bind_eq_ok.mpr ⟨_, hset, rfl⟩⟩, rfl⟩

theorem getframe_on (hget : pageGet m (p &&& 0xFFFFF000) = .ok e) :
    Call.getframe.on i p b m = .ok (pageUfmt e ||| (p &&& 0xFFF), m) :=
  bind_eq_ok.mpr ⟨_, bind_eq_ok.mpr ⟨_, hget, rfl⟩, rfl⟩

theorem getflags_on (hget : pageGet m p = .ok e) :
    Call.getflags.on i p b m = .ok (e &&& PF_MASK, m) :=
  bind_eq_ok.mpr ⟨_, bind_eq_ok.mpr ⟨_, hget, rfl⟩, rfl⟩

end Calls

theorem frame_and_offset {w : U32} (f : U32) (hw : w &&& PF_MASK = w &&& 0xFFF) :
    pageFmt f w = (f &&& 0xFFFFF000) ||| (w &&& 0xFFF) := by
  rw [pageFmt, hw]

theorem page_offset (p : U32) : (p &&& 0xFFFFF000) >>> 12 = p >>> 12 := by
  ext i hi
  interval_cases i <;> simp

/-- **`SETFRAME` and `SETFLAGS`** of a page below `TMP_MAP` change one half of its entry
each, in either order, and no other page. -/
theorem page_calls (m : Mem) (H A : Set (BitVec 20)) (i : Image) (p f g : U32)
    (hs : SpaceBelow 1022 m H A) (hmask : m.Masked) (hp : p < TMP_MAP)
    (hnew : ¬Pres (m.phys m.dir (pdx p)) → Plenty 1 m) :
    ∃ e m₁ m₂ m₃, pageGet m p = .ok e ∧
      Call.setframe.on i p f m = .ok (0, m₁) ∧ Call.setflags.on i p g m = .ok (0, m₂) ∧
      Call.setflags.on i p g m₁ = .ok (0, m₃) ∧ Call.setframe.on i p f m₂ = .ok (0, m₃) ∧
      pageGet m₁ p = .ok ((f &&& 0xFFFFF000) ||| (e &&& 0xFFF)) ∧
      pageGet m₂ p = .ok ((e &&& 0xFFFFF000) ||| (g &&& PF_MASK)) ∧
      (∀ b, Call.getframe.on i p b m₃ = .ok ((f &&& 0xFFFFF000) ||| (p &&& 0xFFF), m₃)) ∧
      (∀ b, Call.getflags.on i p b m₃ = .ok (g &&& PF_MASK, m₃)) ∧
      KeepsOthers p m m₁ ∧ KeepsOthers p m m₂ ∧ KeepsOthers p m m₃ := by
  obtain ⟨set, hset⟩ := hs.sets hp hnew
  have hget : pageGet m p = .ok (m.pte p) := hs.self.get p
  have hlow := hmask p hp _ hget
  set e := m.pte p
  refine ⟨e, set (pageFmt f e), set (pageFmt e g), set (pageFmt f g), hget,
    setframe_on hget (hset.first _), setflags_on hget ?_,
    setflags_on (hset.here _ p rfl) ?_, setframe_on (hset.here _ p rfl) ?_, ?_,
    hset.here _ p rfl, fun b => ?_, fun b => ?_, hset.others _, hset.others _, hset.others _⟩
  · rw [pageFmt_ufmt]
    exact hset.first _
  · rw [pageUfmt_fmt, pageFmt_ufmt]
    exact hset.again _ _
  · rw [pageFmt_fmt]
    exact hset.again _ _
  · rw [hset.here _ p rfl, frame_and_offset f hlow]
  · rw [getframe_on (hset.here _ _ (page_offset p)), pageUfmt_fmt]
    rfl
  · rw [getflags_on (hset.here _ p rfl), pageFmt_mask]

theorem imageMem_pte (ws : List U32) {va : U32} (hva : va < TMP_MAP) :
    (imageMem ws).pte va = 0 ∨ (imageMem ws).pte va = 0x3003 := by
  by_cases hp : Pres ((imageMem ws).phys (imageMem ws).dir (pdx va))
  · obtain he | he := imageMem_pres ws hp
    · have hlt := page_lt hva
      rw [he] at hlt
      exact absurd hlt (by decide)
    · have htab : (imageMem ws).tab va = 2 := by
        rw [Mem.tab, he, imageMem_dir]
        decide
      rw [pte_eq hp, htab, imageMem_two]
      split_ifs
      · exact .inr rfl
      · exact .inl rfl
  · exact .inl (pte_absent hp)

theorem imageMem_masked (ws : List U32) (hs : SelfMapped (imageMem ws)) : (imageMem ws).Masked := by
  intro q hq e he
  obtain rfl : (imageMem ws).pte q = e := Except.ok.inj ((hs.get q).symm.trans he)
  obtain h | h := imageMem_pte ws hq
  · rw [h]
    decide
  · rw [h]
    decide

theorem imageMem_below : SpaceBelow 1022 (imageMem []) ((imageMem []).fileFrames 0xF0000000 [])
    bootPool :=
  (imageMem_space [] (by decide)).mono (by decide)

/-- A page whose table is made by the first of the two calls. -/
theorem page_calls_first : ¬Pres ((imageMem []).phys (imageMem []).dir (pdx 0x1234)) ∧
    ∃ m₁ m₃, Call.setframe.on Image.zero 0x1234 0x5678 (imageMem []) = .ok (0, m₁) ∧
      Call.setflags.on Image.zero 0x1234 0xFF7 m₁ = .ok (0, m₃) ∧
      Call.getframe.on Image.zero 0x1234 0 m₃ = .ok (0x5234, m₃) ∧
      Call.getflags.on Image.zero 0x1234 0 m₃ = .ok (0xE77, m₃) := by
  have hs := imageMem_below
  obtain ⟨e, m₁, m₂, m₃, -, h₁, -, h₃, -, -, -, hframe, hflags, -⟩ :=
    page_calls (imageMem []) _ bootPool Image.zero 0x1234 0x5678 0xFF7 hs (imageMem_masked [] hs.self)
      (by decide) fun _ => plenty_pool rfl (by decide)
  exact ⟨by decide, m₁, m₃, h₁, h₃, hframe 0, hflags 0⟩

/-! ### `mem_alloc` -/

/-- The pages from `base` up to `base + size`. -/
def PageIn (base size va : U32) : Prop := pageUfmt base ≤ pageUfmt va ∧ pageUfmt va < base + size

/-- Their numbers. -/
def pagesOf (base size : U32) : Finset ℕ :=
  Finset.Ico (base.toNat / 4096) ((base.toNat + size.toNat + 4095) / 4096)

theorem pageIn_iff {base size : U32} (h : base.toNat + size.toNat ≤ TMP_MAP.toNat) (va : U32) :
    PageIn base size va ↔ base.toNat / 4096 * 4096 ≤ va.toNat ∧
      va.toNat / 4096 * 4096 < base.toNat + size.toNat := by
  rw [show TMP_MAP.toNat = 0xFF800000 from rfl] at h
  rw [PageIn, BitVec.le_def, BitVec.lt_def, pageUfmt, pageUfmt, pageBase_toNat, pageBase_toNat,
    BitVec.toNat_add]
  omega

/-- **`mem_alloc`** of a range below `TMP_MAP` returns if `frame_new` does, and has mapped
the pages that were not present to unused frames, one each. -/
theorem mem_alloc_pages (m : Mem) (H A : Set (BitVec 20)) (base size flags : U32)
    (hs : SpaceBelow 1022 m H A)
    (hunused : ∀ va < TMP_MAP, Pres (m.pte va) → frameNo (m.pte va) ∉ A)
    (htop : base.toNat + size.toNat ≤ TMP_MAP.toNat) :
    Halts (memAlloc m base size flags) ∧
    (Plenty (m.missing (pagesOf base size)) m → ∃ m', memAlloc m base size flags = .ok m') ∧
    ∀ m', memAlloc m base size flags = .ok m' →
      (∀ va < TMP_MAP, PageIn base size va → ¬Pres (m.pte va) →
        Pres (m'.pte va) ∧ m'.pte va &&& 0xFFF = (flags &&& PF_MASK) ||| PF_PRES ∧
        frameNo (m'.pte va) ∈ A ∧ frameNo (m'.pte va) ∉ H ∧ ¬m'.Table (frameNo (m'.pte va)) ∧
        ∀ va' < TMP_MAP, va' >>> 12 ≠ va >>> 12 → Pres (m'.pte va') →
          frameNo (m'.pte va') ≠ frameNo (m'.pte va)) ∧
      ∀ va < TMP_MAP, Pres (m.pte va) ∨ ¬PageIn base size va → m'.pte va = m.pte va := by
  have htop' : base.toNat + size.toNat ≤ 4194304 * 1022 := htop
  refine ⟨memAlloc_halts (by omega) _ m, fun hplenty => ?_, fun m' h => ?_⟩
  · have hmem : ∀ p, base.toNat / 4096 ≤ p → 4096 * p < base.toNat + size.toNat →
        p ∈ pagesOf base size := fun p hlo hhi => Finset.mem_Ico.mpr ⟨hlo, by omega⟩
    exact (memAlloc_total hs (by decide) htop' hmem hplenty).imp fun _ h => h.1
  obtain ⟨A', hgrew, hall, hout⟩ := memAlloc_grew hs (by decide) htop' h
  have hkeep : ∀ va < TMP_MAP, Pres (m.pte va) ∨ ¬PageIn base size va → m'.pte va = m.pte va := by
    rintro va hva (hp | hin)
    · exact hgrew.keep va hp
    · rw [pageIn_iff htop] at hin
      exact hout va (page_lt hva) hin
  refine ⟨fun va hva hin habs => ?_, hkeep⟩
  rw [pageIn_iff htop] at hin
  have hpres := hall va hin.1 hin.2
  obtain ⟨hA, -, hT, hlow⟩ := hgrew.made va (page_lt hva) habs hpres
  refine ⟨hpres, hlow, hA, (hs.fresh _ hA).2, hT, fun va' hva' hne hpres' heq => ?_⟩
  by_cases hold : Pres (m.pte va')
  · -- a frame that was mapped before is not one of the supply
    rw [hgrew.keep va' hold] at heq
    exact hunused va' hva' hold (heq ▸ hA)
  · have hsame := hgrew.inj va' va (page_lt hva') (page_lt hva) hold habs hpres' hpres heq
    exact hne ((samePage_shift va' va).mp hsame)

/-- Two pages of an unaligned range. -/
theorem mem_alloc_two : ∃ m', memAlloc (imageMem []) 0x1800 0x1000 PF_RW = .ok m' ∧
    m'.pte 0x1000 &&& 0xFFF = 3 ∧ m'.pte 0x2000 &&& 0xFFF = 3 ∧
    frameNo (m'.pte 0x1000) ≠ frameNo (m'.pte 0x2000) ∧ m'.pte 0x3000 = 0 := by
  have hunused : ∀ va < TMP_MAP, Pres ((imageMem []).pte va) →
      frameNo ((imageMem []).pte va) ∉ bootPool := by
    intro va hva hp
    obtain h | h := imageMem_pte [] hva
    · rw [h] at hp
      exact absurd hp (by decide)
    · rw [h]
      show ¬0x700 ≤ (frameNo 0x3003).toNat
      decide
  obtain ⟨-, htotal, hpost⟩ := mem_alloc_pages (imageMem []) _ bootPool 0x1800 0x1000 PF_RW
    imageMem_below hunused (by decide)
  have hpool : Plenty 4 (imageMem []) := plenty_pool rfl (by decide)
  have habs : ∀ va < KERNEL_ADDR_BASE, ¬Pres ((imageMem []).pte va) :=
    fun va hva => imageMem_absent [] hva
  have hin₁ : PageIn 0x1800 0x1000 0x1000 := by
    unfold PageIn
    decide
  have hin₂ : PageIn 0x1800 0x1000 0x2000 := by
    unfold PageIn
    decide
  have hout : ¬PageIn 0x1800 0x1000 0x3000 := by
    unfold PageIn
    decide
  obtain ⟨m', hm'⟩ := htotal (hpool.mono (missing_le _ (pagesOf 0x1800 0x1000)))
  obtain ⟨hnew, hkeep⟩ := hpost m' hm'
  obtain ⟨hpres₁, hlow₁, -⟩ := hnew 0x1000 (by decide) hin₁ (habs _ (by decide))
  obtain ⟨-, hlow₂, -, -, -, hne⟩ := hnew 0x2000 (by decide) hin₂ (habs _ (by decide))
  refine ⟨m', hm', hlow₁, hlow₂, hne 0x1000 (by decide) (by decide) hpres₁, ?_⟩
  rw [hkeep 0x3000 (by decide) (.inr hout)]
  decide

end Pinion
