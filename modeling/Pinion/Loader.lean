/-
What `elf_load_file` leaves in memory.

* `LoadState` — the image is shown, the pages that may be written do not share frames,
  and there are frames enough;
* `Placed` — the segment may be loaded: it fits its memory, its bytes are in the image;
* `load_segment` — one header;
* `LoadInv`, `load_file` — the header table;
* `elf_bytes` — the bytes of every segment;
* `elf_flags_iff` — the flags of its pages.
-/
import Pinion.Image

open Runs

namespace Pinion

/-- Byte `k` of a segment in memory. -/
def Phdr.byte (img : List U8) (h : Phdr) (k : ℕ) : U8 :=
  if k < h.pFilesz.toNat then fileByte img (h.pOffset.toNat + k) else 0

structure LoadState (m : Mem) (file : U32) (img : List U8) (V : Set U32) (T : Finset ℕ)
    (H A : Set (BitVec 20)) : Prop where
  space : Space m H A
  shown : Shown m file img H
  opens : ∀ va ∈ V, m.Open H A va
  inj : m.Inj V
  plenty : Plenty (m.missing T) m

/-- The segment fits its memory, its bytes are in the image, its addresses are among `V`
and its pages among `T`. -/
structure Placed (img : List U8) (V : Set U32) (T : Finset ℕ) (h : Phdr) : Prop where
  fits : h.pFilesz.toNat ≤ h.pMemsz.toNat
  data : h.pOffset.toNat + h.pFilesz.toNat ≤ img.length
  top : h.pVaddr.toNat + h.pMemsz.toNat ≤ 0xFFC00000
  inside : ∀ va, h.Has va → va ∈ V
  pages : ∀ p, h.pVaddr.toNat / 4096 ≤ p → 4096 * p < h.pVaddr.toNat + h.pMemsz.toNat → p ∈ T

/-- Loading a segment maps its pages, and changes its bytes only. -/
structure LoadStep (m m' : Mem) (img : List U8) (V : Set U32) (h : Phdr) : Prop where
  keep : ∀ va, Pres (m.pte va) → m'.pte va = m.pte va
  made : ∀ va ∈ V, ¬Pres (m.pte va) → Pres (m'.pte va) → m'.pte va &&& 7 = PF_PRES ||| PF_RW
  pres : ∀ va, h.Has va → Pres (m'.pte va)
  here : ∀ va, h.Has va → m'.seen va = h.byte img (va.toNat - h.pVaddr.toNat)
  rest : ∀ va ∈ V, Pres (m.pte va) → ¬h.Has va → m'.seen va = m.seen va

section Segment

variable {m m' : Mem} {file : U32} {img : List U8} {V : Set U32} {T : Finset ℕ}
  {H A A' : Set (BitVec 20)} {h : Phdr}

/-- New pages get frames of the supply, so pages still do not share frames. -/
theorem Grew.keeps_inj {k : U32} (hg : Grew 1023 m m' H A A' k)
    (hV : ∀ va ∈ V, va.toNat < 0xFFC00000) (ho : ∀ va ∈ V, m.Open H A va) (hinj : m.Inj V) :
    m'.Inj V := by
  intro va hva va' hva' hp hp' heq
  have hne := pdx_lt (n := 1023) (hV va hva)
  have hne' := pdx_lt (n := 1023) (hV va' hva')
  by_cases hold : Pres (m.pte va)
  · by_cases hold' : Pres (m.pte va')
    · rw [hg.keep va hold, hg.keep va' hold'] at heq
      exact hinj va hva va' hva' hold hold' heq
    · have hA := (hg.made va' hne' hold' hp').1
      rw [← heq, hg.keep va hold] at hA
      exact absurd hA (ho va hva hold).2.2
  · by_cases hold' : Pres (m.pte va')
    · have hA := (hg.made va hne hold hp).1
      rw [heq, hg.keep va' hold'] at hA
      exact absurd hA (ho va' hva' hold').2.2
    · exact hg.inj va va' hne hne' hold hold' hp hp' heq

/-- A page that was there before shows the same bytes. -/
theorem Grew.keeps_seen {k va : U32} (hg : Grew 1023 m m' H A A' k) (hp : Pres (m.pte va))
    (ho : m.Open H A va) : m'.seen va = m.seen va := by
  obtain ⟨hT, -, hA⟩ := ho hp
  rw [Mem.seen, hg.keep va hp, Mem.byte, hg.frames _ hT hA]
  rfl

theorem Kept.missing_eq (hk : Kept m m' H A) (hs : Space m H A) : m'.missing T = m.missing T := by
  have hdir : ∀ e, m'.phys m'.dir e = m.phys m.dir e := by
    intro e
    rw [← pte_window hk.space.self, ← pte_window hs.self, hk.pte]
  unfold Mem.missing
  simp only [hk.pte, hdir]

theorem Kept.keeps_inj (hk : Kept m m' H A) (hinj : m.Inj V) : m'.Inj V := by
  intro va hva va' hva'
  rw [hk.pte, hk.pte]
  exact hinj va hva va' hva'

theorem loadFlags_eq : allocFlags loadFlags = PF_PRES ||| PF_RW := by decide

/-- An address of a segment, by its distance from the start. -/
theorem Phdr.has_add (htop : h.pVaddr.toNat + h.pMemsz.toNat ≤ 2 ^ 32) {i : ℕ}
    (hi : i < h.pMemsz.toNat) : (h.pVaddr + BitVec.ofNat 32 i).toNat = h.pVaddr.toNat + i ∧
      h.Has (h.pVaddr + BitVec.ofNat 32 i) := by
  have hmem := h.pMemsz.isLt
  have haddr : (h.pVaddr + BitVec.ofNat 32 i).toNat = h.pVaddr.toNat + i := by
    rw [BitVec.toNat_add, BitVec.toNat_ofNat]
    omega
  refine ⟨haddr, ?_⟩
  rw [Phdr.Has, haddr]
  omega

/-- The bytes of the file, by their distance from the start of the segment in it. -/
theorem Phdr.src_add (h : Phdr) (file : U32) (i : ℕ) : file + h.pOffset + BitVec.ofNat 32 i =
    file + BitVec.ofNat 32 (h.pOffset.toNat + i) := by
  rw [BitVec.ofNat_add, BitVec.ofNat_toNat, BitVec.setWidth_eq, BitVec.add_assoc]

/-- The part to be cleared follows the file's bytes. -/
theorem Phdr.clear_len (hfits : h.pFilesz.toNat ≤ h.pMemsz.toNat) :
    (h.pMemsz - h.pFilesz).toNat = h.pMemsz.toNat - h.pFilesz.toNat := by
  rw [BitVec.toNat_sub]
  have := h.pMemsz.isLt
  omega

theorem Phdr.clear_add (h : Phdr) (i : ℕ) : h.pVaddr + h.pFilesz + BitVec.ofNat 32 i =
    h.pVaddr + BitVec.ofNat 32 (h.pFilesz.toNat + i) := by
  rw [BitVec.ofNat_add, BitVec.ofNat_toNat, BitVec.setWidth_eq, BitVec.add_assoc]

/-- The pages of a segment are there, are its own, and its bytes are shown by the image. -/
structure Phdr.Prepared (h : Phdr) (m : Mem) (file : U32) (img : List U8) (V : Set U32)
    (H A : Set (BitVec 20)) : Prop where
  space : Space m H A
  shown : Shown m file img H
  inj : m.Inj V
  range : ∀ i < h.pMemsz.toNat, h.pVaddr + BitVec.ofNat 32 i ∈ V ∧
    Pres (m.pte (h.pVaddr + BitVec.ofNat 32 i)) ∧ m.Open H A (h.pVaddr + BitVec.ofNat 32 i)

/-- `mem_alloc` prepares the pages of a segment. -/
theorem LoadState.prepared (hst : LoadState m file img V T H A)
    (hV : ∀ va ∈ V, va.toNat < 0xFFC00000) (hpl : Placed img V T h) {m₁ : Mem}
    (hgrew : Grew 1023 m m₁ H A A' (allocBits loadFlags))
    (hpres : ∀ va, h.Has va → Pres (m₁.pte va)) :
    h.Prepared m₁ file img V H A' := by
  refine ⟨hgrew.space, hgrew.shown hst.space hst.shown, hgrew.keeps_inj hV hst.opens hst.inj, ?_⟩
  intro i hi
  have htop := hpl.top
  obtain ⟨-, hhas⟩ := Phdr.has_add (by omega) hi
  have hin := hpl.inside _ hhas
  exact ⟨hin, hpres _ hhas, hgrew.stays_open hst.space (pdx_lt (hV _ hin)) (hst.opens _ hin)⟩

/-- The copy and the clearing of a prepared segment: the file's bytes come first, zeros
follow, and the page tables stay. -/
theorem Phdr.Prepared.filled (hp : h.Prepared m file img V H A)
    (hfits : h.pFilesz.toNat ≤ h.pMemsz.toNat)
    (htop : h.pVaddr.toNat + h.pMemsz.toNat ≤ 0xFFC00000)
    (hdata : h.pOffset.toNat + h.pFilesz.toNat ≤ img.length) :
    ∃ m₁ m₂, (memcpy m h.pVaddr (file + h.pOffset) h.pFilesz).out = .ok m₁ ∧
      Kept m m₁ H A ∧
      (memclr m₁ (h.pVaddr + h.pFilesz) (h.pMemsz - h.pFilesz)).out = .ok m₂ ∧ Kept m m₂ H A ∧
      ∀ va ∈ V, Pres (m.pte va) → m₂.seen va =
        if h.Has va then h.byte img (va.toNat - h.pVaddr.toNat) else m.seen va := by
  -- the bytes in the image
  obtain ⟨m₁, hcopy, hkept₁, hfill₁⟩ := @memcpy_seen m H A h.pVaddr (file + h.pOffset) h.pFilesz V
    hp.space hp.inj (by omega) (fun i hi => hp.range i (by omega)) (by
      intro i hi
      rw [h.src_add]
      obtain ⟨hpres, hH, -⟩ := hp.shown (h.pOffset.toNat + i) (by omega)
      exact ⟨hpres, hH⟩)
  -- the rest of the memory; neither bound of it wraps
  have hclrLen := Phdr.clear_len hfits
  have hclrBase : (h.pVaddr + h.pFilesz).toNat = h.pVaddr.toNat + h.pFilesz.toNat := by
    rw [BitVec.toNat_add]
    omega
  obtain ⟨m₂, hclear, hkept₂, hfill₂⟩ := @memclr_seen m₁ H A (h.pVaddr + h.pFilesz)
    (h.pMemsz - h.pFilesz) V hkept₁.space (hkept₁.keeps_inj hp.inj) (by omega) (by
      intro i hi
      obtain ⟨hin, hpres, ho⟩ := hp.range (h.pFilesz.toNat + i) (by omega)
      rw [h.clear_add, hkept₁.pte]
      exact ⟨hin, hpres, hkept₁.opens ho⟩)
  refine ⟨m₁, m₂, hcopy, hkept₁, hclear, hkept₁.trans hkept₂, fun va hva hpres => ?_⟩
  rw [hfill₂ va hva (by rw [hkept₁.pte]; exact hpres), hfill₁ va hva hpres, hclrBase, hclrLen]
  -- an address lies in the copied part, in the cleared part or outside
  by_cases hhas : h.Has va
  · rw [if_pos hhas, Phdr.byte]
    obtain ⟨hlo, hhi⟩ := hhas
    by_cases hfile : va.toNat < h.pVaddr.toNat + h.pFilesz.toNat
    · rw [if_neg (by omega), if_pos ⟨hlo, hfile⟩, if_pos (by omega)]
      dsimp only
      rw [h.src_add]
      exact (hp.shown _ (by omega)).2.2
    · rw [if_pos (by omega), if_neg (by omega)]
  · rw [if_neg hhas]
    rw [Phdr.Has] at hhas
    rw [if_neg (by omega), if_neg (by omega)]

/-- **One segment** is loaded. -/
theorem load_segment (hV : ∀ va ∈ V, va.toNat < 0xFFC00000)
    (hst : LoadState m file img V T H A) {a : ℕ} (ha : a + 32 ≤ img.length)
    (hh : phdrAt img a = h) (hl : h.Load) (hpl : Placed img V T h) :
    ∃ m' A', (elfLoadPhdr file (file + BitVec.ofNat 32 a) m).out = .ok m' ∧
      LoadState m' file img V T H A' ∧ LoadStep m m' img V h := by
  obtain ⟨m₁, halloc, hplenty₁⟩ :=
    @memAlloc_total 1023 m H A T h.pVaddr h.pMemsz loadFlags hst.space le_rfl hpl.top hpl.pages
      hst.plenty
  obtain ⟨A₁, hgrew, hrange, -⟩ := memAlloc_grew hst.space le_rfl hpl.top halloc
  have hpres : ∀ va, h.Has va → Pres (m₁.pte va) := by
    rintro va ⟨hlo, hhi⟩
    exact hrange va (by omega) (by omega)
  have hprep := hst.prepared hV hpl hgrew hpres
  obtain ⟨m₂, m₃, hcopy, hkept₂, hclear, hkept, hseen⟩ := hprep.filled hpl.fits hpl.top hpl.data
  refine ⟨m₃, A₁, ?_, ⟨hkept.space, hkept.shown hprep.shown, fun va hva => hkept.opens ?_,
    hkept.keeps_inj hprep.inj, ?_⟩, ⟨fun va hp => ?_, fun va hva hn hp => ?_, fun va hhas => ?_,
    fun va hhas => ?_, fun va hva hp hhas => ?_⟩⟩
  · -- the sizes are read again after the allocation and after the copy
    have h₁₆ := @Shown.field m₁ file img H hprep.shown a 16 16 rfl (by omega)
    have hshown₂ := hkept₂.shown hprep.shown
    have h₁₆' := @Shown.field m₂ file img H hshown₂ a 16 16 rfl (by omega)
    have h₂₀ := @Shown.field m₂ file img H hshown₂ a 20 20 rfl (by omega)
    have hfilesz : fileWord img (a + 16) = h.pFilesz := by rw [← hh]; rfl
    have hmemsz : fileWord img (a + 20) = h.pMemsz := by rw [← hh]; rfl
    rw [hst.shown.phdr_load ha (by rw [hh]; exact hl), hh, Traced.out_bind, Traced.out_lift, halloc]
    show (liftM (m₁.readWord _) >>= _ : Load Mem).out = _
    rw [h₁₆, Traced.ok_bind, hfilesz, Traced.out_bind, hcopy]
    show (liftM (m₂.readWord _) >>= _ : Load Mem).out = _
    rw [h₁₆', Traced.ok_bind, h₂₀, Traced.ok_bind, hfilesz, hmemsz]
    exact hclear
  · exact hgrew.stays_open hst.space (pdx_lt (hV va hva)) (hst.opens va hva)
  · rw [hkept.missing_eq hgrew.space]
    exact hplenty₁.same hkept.frames
  · rw [hkept.pte, hgrew.keep va hp]
  · rw [hkept.pte] at hp ⊢
    rw [← loadFlags_eq]
    exact allocBits_low (hgrew.made va (pdx_lt (hV va hva)) hn hp).2.2.2
  · rw [hkept.pte]
    exact hpres va hhas
  · rw [hseen va (hpl.inside va hhas) (hpres va hhas), if_pos hhas]
  · rw [hseen va hva (by rw [hgrew.keep va hp]; exact hp), if_neg hhas]
    exact hgrew.keeps_seen hp (hst.opens va hva)

end Segment

/-! ### The header table -/

/-- The first `i` headers have been loaded. -/
structure LoadInv (m₀ m : Mem) (file : U32) (img : List U8) (V : Set U32) (T : Finset ℕ)
    (H A : Set (BitVec 20)) (i : ℕ) : Prop where
  state : LoadState m file img V T H A
  keep : ∀ va, Pres (m₀.pte va) → m.pte va = m₀.pte va
  made : ∀ va ∈ V, ¬Pres (m₀.pte va) → Pres (m.pte va) → m.pte va &&& 7 = PF_PRES ||| PF_RW
  done : ∀ j < i, (phdr img j).Load → ∀ va, (phdr img j).Has va →
    Pres (m.pte va) ∧ m.seen va = (phdr img j).byte img (va.toNat - (phdr img j).pVaddr.toNat)
  rest : ∀ va ∈ V, Pres (m₀.pte va) → (∀ j < i, (phdr img j).Load → ¬(phdr img j).Has va) →
    m.seen va = m₀.seen va

/-- The memory of two segments has no address in common. -/
def Phdr.Apart (h h' : Phdr) : Prop := h.Load → h'.Load → ∀ va, h.Has va → ¬h'.Has va

section File

variable {m₀ m m' : Mem} {file : U32} {img : List U8} {V : Set U32} {T : Finset ℕ}
  {H A A' : Set (BitVec 20)} {i : ℕ}

theorem LoadInv.start (hst : LoadState m file img V T H A) : LoadInv m m file img V T H A 0 :=
  ⟨hst, fun _ _ => rfl, fun _ _ hn hp => absurd hp hn, fun _ hj => absurd hj (by omega),
    fun _ _ _ _ => rfl⟩

theorem LoadInv.skip (h : LoadInv m₀ m file img V T H A i) (hl : ¬(phdr img i).Load) :
    LoadInv m₀ m file img V T H A (i + 1) := by
  refine ⟨h.state, h.keep, h.made, fun j hj hlj => ?_, fun va hva hp hout => ?_⟩
  · have hne : j ≠ i := fun he => hl (he ▸ hlj)
    exact h.done j (by omega) hlj
  · exact h.rest va hva hp fun j hj => hout j (by omega)

/-- A further segment leaves those before it alone. -/
theorem LoadInv.load (h : LoadInv m₀ m file img V T H A i) (hl : (phdr img i).Load)
    (hst : LoadState m' file img V T H A') (hstep : LoadStep m m' img V (phdr img i))
    (hV : ∀ j < i, (phdr img j).Load → ∀ va, (phdr img j).Has va → va ∈ V)
    (hapart : ∀ j < i, (phdr img j).Apart (phdr img i)) :
    LoadInv m₀ m' file img V T H A' (i + 1) := by
  refine ⟨hst, fun va hp => ?_, fun va hva hn hp => ?_, fun j hj hlj va hhas => ?_,
    fun va hva hp hout => ?_⟩
  · have hkeep := h.keep va hp
    rw [hstep.keep va (by rw [hkeep]; exact hp), hkeep]
  · by_cases hmid : Pres (m.pte va)
    · rw [hstep.keep va hmid]
      exact h.made va hva hn hmid
    · exact hstep.made va hva hmid hp
  · by_cases hji : j = i
    · subst hji
      exact ⟨hstep.pres va hhas, hstep.here va hhas⟩
    · have hlt : j < i := by omega
      obtain ⟨hp, hseen⟩ := h.done j hlt hlj va hhas
      refine ⟨by rw [hstep.keep va hp]; exact hp, ?_⟩
      rw [hstep.rest va (hV j hlt hlj va hhas) hp (hapart j hlt hlj hl va hhas), hseen]
  · have hkeep := h.keep va hp
    rw [hstep.rest va hva (by rw [hkeep]; exact hp) (hout i (by omega) hl)]
    exact h.rest va hva hp fun j hj => hout j (by omega)

/-- The loop of `elf_load_file`, when every segment has its place. -/
theorem load_from (hV : ∀ va ∈ V, va.toNat < 0xFFC00000) (hhead : 52 ≤ img.length)
    (htable : ePhoff img + 32 * ePhnum img ≤ img.length)
    (hplaced : ∀ j < ePhnum img, (phdr img j).Load → Placed img V T (phdr img j))
    (hapart : ∀ j k, j < k → k < ePhnum img → (phdr img j).Apart (phdr img k)) :
    ∀ (k i n : ℕ) {m : Mem} {A : Set (BitVec 20)}, i + k = ePhnum img → k < n →
      LoadInv m₀ m file img V T H A i →
      ∃ m' A', (elfLoadFrom file (file + fileWord img 28) n i m).out = .ok m' ∧
        LoadInv m₀ m' file img V T H A' (ePhnum img) := by
  intro k
  induction k with
  | zero =>
    intro i n m A hi hn h
    obtain ⟨n, rfl⟩ : ∃ j, n = j + 1 := ⟨n - 1, by omega⟩
    obtain rfl : i = ePhnum img := by omega
    refine ⟨m, A, ?_, h⟩
    rw [h.state.shown.from_end hhead]
    rfl
  | succ k ih =>
    intro i n m A hi hn h
    obtain ⟨n, rfl⟩ : ∃ j, n = j + 1 := ⟨n - 1, by omega⟩
    have hroom : ePhoff img + 32 * i + 32 ≤ img.length := by omega
    -- the next header, loaded or passed over
    obtain ⟨m₁, A₁, hout, h₁⟩ : ∃ m₁ A₁,
        (elfLoadPhdr file (file + BitVec.ofNat 32 (ePhoff img + 32 * i)) m).out = .ok m₁ ∧
          LoadInv m₀ m₁ file img V T H A₁ (i + 1) := by
      by_cases hl : (phdr img i).Load
      · obtain ⟨m₁, A₁, hout, hst, hstep⟩ :=
          load_segment hV h.state hroom rfl hl (hplaced i (by omega) hl)
        exact ⟨m₁, A₁, hout, h.load hl hst hstep
          (fun j hj hlj => (hplaced j (by omega) hlj).inside) fun j hj => hapart j i hj (by omega)⟩
      · refine ⟨m, A, ?_, h.skip hl⟩
        rw [h.state.shown.phdr_skip hroom hl]
        rfl
    obtain ⟨m', A', hrest, hinv⟩ := ih (i + 1) n (by omega) (by omega) h₁
    refine ⟨m', A', ?_, hinv⟩
    rw [h.state.shown.from_next hhead n (by omega), Traced.out_bind, hout]
    exact hrest

/-- **`elf_load_file`** loads every segment. -/
theorem load_file (hV : ∀ va ∈ V, va.toNat < 0xFFC00000) (hhead : 52 ≤ img.length)
    (htable : ePhoff img + 32 * ePhnum img ≤ img.length)
    (hplaced : ∀ j < ePhnum img, (phdr img j).Load → Placed img V T (phdr img j))
    (hapart : ∀ j k, j < k → k < ePhnum img → (phdr img j).Apart (phdr img k))
    (hst : LoadState m file img V T H A) :
    ∃ m' A', (elfLoadFile m file).out = .ok m' ∧ LoadInv m m' file img V T H A' (ePhnum img) := by
  obtain ⟨m', A', hout, hinv⟩ := load_from hV hhead htable hplaced hapart (ePhnum img) 0 (2 ^ 16)
    (by omega) (ePhnum_lt img) (LoadInv.start hst)
  refine ⟨m', A', ?_, hinv⟩
  rw [hst.shown.file_eq hhead]
  exact hout

end File

/-! ### The bytes of every segment -/

/-- The addresses below the kernel. -/
def belowKernel : Set U32 := {va | va < KERNEL_ADDR_BASE}

/-- The pages the segments of an image need. -/
def segmentPages (img : List U8) : Finset ℕ :=
  (Finset.range (2 ^ 20)).filter fun p => ∃ h ∈ phdrs img, h.Load ∧
    h.pVaddr.toNat / 4096 ≤ p ∧ 4096 * p < h.pVaddr.toNat + h.pMemsz.toNat

/-- The segment fits its memory, which lies in the system area, and its bytes are in the
image. -/
structure Phdr.InSystem (img : List U8) (h : Phdr) : Prop where
  fits : h.pFilesz.toNat ≤ h.pMemsz.toNat
  data : h.pOffset.toNat + h.pFilesz.toNat ≤ img.length
  low : SYSTEM_ADDR_BASE.toNat ≤ h.pVaddr.toNat
  high : h.pVaddr.toNat + h.pMemsz.toNat ≤ KERNEL_ADDR_BASE.toNat

/-- Tables are distinct frames; the pages of the addresses in `V` map frames that are not
tables and hold no byte of the image; and `frame_new` returns frames in `A`, none of which
is in use. -/
structure OwnFrames (m : Mem) (file : U32) (img : List U8) (V : Set U32) (A : Set (BitVec 20)) :
    Prop where
  space : Space m (m.fileFrames file img) A
  opens : ∀ va ∈ V, m.Open (m.fileFrames file img) A va

theorem mem_phdrs {img : List U8} {h : Phdr} :
    h ∈ phdrs img ↔ ∃ j < ePhnum img, phdr img j = h := by
  rw [phdrs, List.mem_map]
  simp only [List.mem_range]

theorem phdrs_pairwise {img : List U8} {R : Phdr → Phdr → Prop} (h : (phdrs img).Pairwise R) :
    ∀ j k, j < k → k < ePhnum img → R (phdr img j) (phdr img k) := by
  intro j k hjk hk
  rw [phdrs, List.pairwise_map, List.pairwise_iff_getElem] at h
  have hR := h j k (by rw [List.length_range]; omega) (by rw [List.length_range]; omega) hjk
  rw [List.getElem_range, List.getElem_range] at hR
  exact hR

section Claims

variable {m : Mem} {file : U32} {img : List U8} {A : Set (BitVec 20)} {V : Set U32}

/-- A segment in the system area has its place. -/
theorem Phdr.InSystem.placed {h : Phdr} (hin : h.InSystem img) (hmem : h ∈ phdrs img)
    (hl : h.Load) (hV : ∀ va, h.Has va → va ∈ V) : Placed img V (segmentPages img) h := by
  have hhigh := hin.high
  rw [show KERNEL_ADDR_BASE.toNat = 0xF0000000 from rfl] at hhigh
  refine ⟨hin.fits, hin.data, by omega, hV, fun p hlo hhi => ?_⟩
  exact Finset.mem_filter.mpr ⟨Finset.mem_range.mpr (by omega), h, hmem, hl, hlo, hhi⟩

theorem Phdr.InSystem.below {h : Phdr} (hin : h.InSystem img) {va : U32} (hva : h.Has va) :
    va ∈ belowKernel := by
  have hhigh := hin.high
  have hlt := hva.2
  show va < KERNEL_ADDR_BASE
  rw [BitVec.lt_def]
  omega

theorem below_tables {va : U32} (hva : va ∈ belowKernel) : va.toNat < 0xFFC00000 := by
  have hlt : va < KERNEL_ADDR_BASE := hva
  rw [BitVec.lt_def, show KERNEL_ADDR_BASE.toNat = 0xF0000000 from rfl] at hlt
  omega

/-- **The bytes of a loaded file.**  For segments in the system area that are pairwise
disjoint, in any order, `elf_load_file` returns; every segment is mapped and holds its bytes
of the file, then zeros; and a page that was mapped before has changed in the segments
only. -/
theorem elf_bytes (m : Mem) (file : U32) (img : List U8) (A : Set (BitVec 20))
    (hfile : ElfImage m file img) (hsegs : ∀ h ∈ phdrs img, h.Load → h.InSystem img)
    (hdisj : (phdrs img).Pairwise Phdr.Apart) (hown : OwnFrames m file img belowKernel A)
    (hinj : m.Inj belowKernel) (hplenty : Plenty (m.missing (segmentPages img)) m) :
    ∃ m', (elfLoadFile m file).out = .ok m' ∧
      (∀ h ∈ phdrs img, h.Load → ∀ va, h.Has va → Pres (m'.pte va)) ∧
      (∀ h ∈ phdrs img, h.Load → ∀ k < h.pMemsz.toNat,
        m'.readByte (h.pVaddr + BitVec.ofNat 32 k) =
          .ok (if k < h.pFilesz.toNat then fileByte img (h.pOffset.toNat + k) else 0)) ∧
      ∀ va, va < KERNEL_ADDR_BASE → Pres (m.pte va) →
        (∀ h ∈ phdrs img, h.Load → ¬h.Has va) → m'.readByte va = m.readByte va := by
  have hplaced : ∀ j < ePhnum img, (phdr img j).Load →
      Placed img belowKernel (segmentPages img) (phdr img j) := by
    intro j hj hl
    have hmem := mem_phdrs.mpr ⟨j, hj, rfl⟩
    have hin := hsegs _ hmem hl
    exact hin.placed hmem hl fun va hva => hin.below hva
  have hst : LoadState m file img belowKernel (segmentPages img) (m.fileFrames file img) A :=
    ⟨hown.space, hfile.shown, hown.opens, hinj, hplenty⟩
  obtain ⟨m', A', hout, hinv⟩ := load_file (fun va hva => below_tables hva) hfile.head hfile.table
    hplaced (phdrs_pairwise hdisj) hst
  refine ⟨m', hout, fun h hh hl va hva => ?_, fun h hh hl k hk => ?_, fun va hva hp hout => ?_⟩
  · obtain ⟨j, hj, rfl⟩ := mem_phdrs.mp hh
    exact (hinv.done j hj hl va hva).1
  · have hhigh := (hsegs h hh hl).high
    rw [show KERNEL_ADDR_BASE.toNat = 0xF0000000 from rfl] at hhigh
    obtain ⟨haddr, hhas⟩ := Phdr.has_add (by omega) hk
    obtain ⟨j, hj, rfl⟩ := mem_phdrs.mp hh
    obtain ⟨hp, hseen⟩ := hinv.done j hj hl _ hhas
    rw [readByte_eq hp, hseen, haddr, Phdr.byte, Nat.add_sub_cancel_left]
  · have hp' : Pres (m'.pte va) := by
      rw [hinv.keep va hp]
      exact hp
    rw [readByte_eq hp', readByte_eq hp, hinv.rest va hva hp fun j hj => ?_]
    exact hout _ (mem_phdrs.mpr ⟨j, hj, rfl⟩)

end Claims

/-! ### A small image -/

/-- Memory with the image `ws` at the first page of the kernel: a directory, its table for
the kernel and the page.  New frames come from the boot pool. -/
def imageMem (ws : List U32) : Mem :=
  { flatMem with
    phys := fun f i =>
      if f = 1 then if i = 1023 then 0x1003 else if i = 960 then 0x2003 else 0
      else if f = 2 then if i = 0 then 0x3003 else 0
      else if f = 3 then ws.getD i.toNat 0
      else 0
    cr3 := 0x1000
    kend := 0xF0700000 }

/-- The bytes of the words of an image. -/
def imageBytes (ws : List U32) : List U8 :=
  ws.flatMap fun w => [byteAt w 0, byteAt w 1, byteAt w 2, byteAt w 3]

/-- The frames of the boot pool. -/
def bootPool : Set (BitVec 20) := {g | 0x700 ≤ g.toNat}

section ImageMem

variable (ws : List U32)

theorem imageMem_dir (e : BitVec 10) : (imageMem ws).phys (imageMem ws).dir e =
    if e = 1023 then 0x1003 else if e = 960 then 0x2003 else 0 := by
  simp only [imageMem, Mem.dir]
  rw [if_pos (by decide)]

theorem imageMem_two (i : BitVec 10) : (imageMem ws).phys 2 i = if i = 0 then 0x3003 else 0 := by
  simp only [imageMem]
  rw [if_neg (by decide), if_pos trivial]

theorem imageMem_pres {e : BitVec 10} (h : Pres ((imageMem ws).phys (imageMem ws).dir e)) :
    e = 1023 ∨ e = 960 := by
  rw [imageMem_dir] at h
  split_ifs at h with hlast hkernel
  · exact .inl hlast
  · exact .inr hkernel
  · exact absurd h not_pres_zero

theorem imageMem_table {g : BitVec 20} (h : (imageMem ws).Table g) : g = 1 ∨ g = 2 := by
  obtain ⟨e, he, rfl⟩ := h
  rw [imageMem_dir]
  rcases imageMem_pres ws he with rfl | rfl
  · exact .inl (by decide)
  · exact .inr (by decide)

/-- The image is all in one frame. -/
theorem imageMem_frames {img : List U8} (hlen : img.length ≤ 4096) {g : BitVec 20}
    (h : g ∈ (imageMem ws).fileFrames 0xF0000000 img) : g = 3 := by
  obtain ⟨k, hk, rfl⟩ := h
  have hva : (0xF0000000 + BitVec.ofNat 32 k : U32).toNat = 0xF0000000 + k := by
    rw [BitVec.toNat_add, BitVec.toNat_ofNat, show (0xF0000000 : U32).toNat = 0xF0000000 from rfl]
    omega
  have hd : pdx (0xF0000000 + BitVec.ofNat 32 k) = 960 := by
    apply BitVec.eq_of_toNat_eq
    rw [pdx_toNat, hva, show (960 : BitVec 10).toNat = 960 from rfl]
    omega
  have ht : ptx (0xF0000000 + BitVec.ofNat 32 k) = 0 := by
    apply BitVec.eq_of_toNat_eq
    rw [ptx_toNat, hva, show (0 : BitVec 10).toNat = 0 from rfl]
    omega
  have hentry : (imageMem ws).phys (imageMem ws).dir 960 = 0x2003 := by
    rw [imageMem_dir]
    rfl
  rw [pte_eq (by rw [hd, hentry]; decide), Mem.tab, hd, ht, hentry,
    show frameNo (0x2003 : U32) = 2 by decide, imageMem_two]
  decide

/-- No page below the kernel is mapped. -/
theorem imageMem_absent {va : U32} (hva : va ∈ belowKernel) : ¬Pres ((imageMem ws).pte va) := by
  intro hp
  have hlt : va < KERNEL_ADDR_BASE := hva
  rw [BitVec.lt_def, show KERNEL_ADDR_BASE.toNat = 0xF0000000 from rfl] at hlt
  have hpd := pdx_toNat va
  rcases imageMem_pres ws (dir_of_pte hp) with he | he
  · rw [he, show (1023 : BitVec 10).toNat = 1023 from rfl] at hpd
    omega
  · rw [he, show (960 : BitVec 10).toNat = 960 from rfl] at hpd
    omega

theorem imageMem_space {img : List U8} (hlen : img.length ≤ 4096) :
    Space (imageMem ws) ((imageMem ws).fileFrames 0xF0000000 img) bootPool := by
  refine ⟨⟨?_, ?_⟩, fun e e' _ _ he he' heq => ?_, fun g hg hT => ?_, ?_,
    fun g hg => ⟨fun hT => ?_, fun hH => ?_⟩⟩
  · rw [imageMem_dir]
    decide
  · rw [imageMem_dir]
    show _ = frameNo (0x1000 : U32)
    decide
  · rw [imageMem_dir, imageMem_dir] at heq
    rcases imageMem_pres ws he with rfl | rfl
    · rcases imageMem_pres ws he' with rfl | rfl
      · rfl
      · exact absurd heq (by decide)
    · rcases imageMem_pres ws he' with rfl | rfl
      · exact absurd heq (by decide)
      · rfl
  · rcases imageMem_table ws hT with rfl | rfl
    · exact absurd (imageMem_frames ws hlen hg) (by decide)
    · exact absurd (imageMem_frames ws hlen hg) (by decide)
  · -- the frame lists are empty, the boot pool is untouched
    refine ⟨⟨[], fun _ => []⟩, ⟨rfl, fun _ => rfl, ?_, ?_, List.nodup_nil, fun _ => List.nodup_nil,
      ?_, ?_, ?_, fun _ => rfl, show 4096 ∣ KERNEL_BOOT_SIZE.toNat by decide, BitVec.le_refl _,
      show KERNEL_BOOT_SIZE ≠ 0 by decide⟩, ?_, fun f hf hlo _ => ?_⟩
    · intro h p hp
      cases hp
    · intro h p hp
      cases hp
    · intro h p hp
      cases hp
    · rintro p q (hp | ⟨h, hp⟩)
      · cases hp
      · cases hp
    · rintro p (hp | ⟨h, hp⟩)
      · cases hp
      · cases hp
    · intro p hp
      cases hp
    · show 0x700 ≤ (frameNo f).toNat
      have hlo : (0xF0700000 - KERNEL_ADDR_BASE : U32) < f := hlo
      rw [BitVec.lt_def,
        show (0xF0700000 - KERNEL_ADDR_BASE : U32).toNat = 0x700000 by decide] at hlo
      rw [frameNo_toNat]
      omega
  · have hg : 0x700 ≤ g.toNat := hg
    rcases imageMem_table ws hT with rfl | rfl
    · exact absurd hg (by decide)
    · exact absurd hg (by decide)
  · have hg : 0x700 ≤ g.toNat := hg
    rw [imageMem_frames ws hlen hH] at hg
    exact absurd hg (by decide)

end ImageMem

/-- An ELF file with one segment: three bytes, and three zeros, across a page boundary. -/
def sampleWords : List U32 :=
  [0x464C457F, 0x00010101, 0, 0, 0x00030002, 1, 0xC0000000, 52, 0, 0, 0x00200034, 1, 0,
    1, 84, 0xC0000FFE, 0, 3, 6, 7, 0x1000, 0x00332211]

theorem sample_image :
    ElfImage (imageMem sampleWords) 0xF0000000 (imageBytes sampleWords) := by
  refine ⟨by decide, by decide, by decide, ?_⟩
  decide +kernel

theorem sample_phdrs : phdrs (imageBytes sampleWords) = [⟨1, 84, 0xC0000FFE, 3, 6, 7⟩] := by
  decide +kernel

theorem sample_inSystem : ∀ h ∈ phdrs (imageBytes sampleWords), h.Load →
    h.InSystem (imageBytes sampleWords) := by
  intro h hh _
  rw [sample_phdrs, List.mem_singleton] at hh
  subst hh
  exact ⟨by decide, by decide, by decide, by decide⟩

/-- The segment takes two pages. -/
theorem sample_pages : segmentPages (imageBytes sampleWords) ⊆ {0xC0000, 0xC0001} := by
  intro p hp
  obtain ⟨-, h, hh, -, hlo, hhi⟩ := Finset.mem_filter.mp hp
  rw [sample_phdrs, List.mem_singleton] at hh
  subst hh
  simp only [BitVec.reduceToNat] at hlo hhi
  rw [Finset.mem_insert, Finset.mem_singleton]
  omega

/-- The boot pool has a frame for each of them. -/
theorem sample_plenty : Plenty
    ((imageMem sampleWords).missing (segmentPages (imageBytes sampleWords)))
    (imageMem sampleWords) := by
  have hpool : Plenty 4 (imageMem sampleWords) := plenty_pool rfl (by decide)
  refine hpool.mono ?_
  have hle := missing_le (imageMem sampleWords) (segmentPages (imageBytes sampleWords))
  have hcard := Finset.card_le_card sample_pages
  rw [show ({0xC0000, 0xC0001} : Finset ℕ).card = 2 by decide] at hcard
  exact hle.trans (Nat.mul_le_mul_left 2 hcard)

/-- The bytes of the small image, once it is loaded. -/
theorem sample_bytes : ∃ m', (elfLoadFile (imageMem sampleWords) 0xF0000000).out = .ok m' ∧
    m'.readByte 0xC0000FFE = .ok 0x11 ∧ m'.readByte 0xC0001000 = .ok 0x33 ∧
      m'.readByte 0xC0001001 = .ok 0 := by
  have hlen : (imageBytes sampleWords).length ≤ 4096 := by decide
  obtain ⟨m', hout, -, hbytes, -⟩ := elf_bytes (imageMem sampleWords) 0xF0000000
    (imageBytes sampleWords) bootPool sample_image sample_inSystem
    (by rw [sample_phdrs]; exact List.pairwise_singleton _ _)
    ⟨imageMem_space sampleWords hlen, fun va hva hp => absurd hp (imageMem_absent _ hva)⟩
    (fun va hva _ _ hp => absurd hp (imageMem_absent _ hva)) sample_plenty
  have hb := hbytes ⟨1, 84, 0xC0000FFE, 3, 6, 7⟩
    (by rw [sample_phdrs]; exact List.mem_singleton_self _)
    rfl
  exact ⟨m', hout, hb 0 (by decide), hb 2 (by decide), hb 3 (by decide)⟩

/-! ### The flags of the pages -/

/-- The segments have no page in common. -/
def Phdr.PagesApart (h h' : Phdr) : Prop :=
  h.Load → h'.Load → ∀ va va', h.Has va → h'.Has va' → ¬SamePage va va'

/-- After `elf_load_file` every page of a segment is present and open to the user, and
writable just when the segment is. -/
def FlagsRight (m : Mem) (file : U32) (img : List U8) : Prop :=
  ∃ m', (elfLoadFile m file).out = .ok m' ∧ ∀ h ∈ phdrs img, h.Load → ∀ va, h.Has va →
    m'.pte va &&& PF_PRES ≠ 0 ∧ m'.pte va &&& PF_USER ≠ 0 ∧
      (m'.pte va &&& PF_RW ≠ 0 ↔ h.pFlags &&& PF_W ≠ 0)

section Flags

variable {m : Mem} {file : U32} {img : List U8} {A : Set (BitVec 20)}

/-- The file is loaded, and the pages of its segments are present and writable only. -/
theorem segment_entries (hfile : ElfImage m file img)
    (hsegs : ∀ h ∈ phdrs img, h.Load → h.InSystem img)
    (hdisj : (phdrs img).Pairwise Phdr.PagesApart)
    (habsent : ∀ h ∈ phdrs img, h.Load → ∀ va, h.Has va → ¬Pres (m.pte va))
    (hspace : Space m (m.fileFrames file img) A)
    (hplenty : Plenty (m.missing (segmentPages img)) m) :
    ∃ m', (elfLoadFile m file).out = .ok m' ∧
      ∀ h ∈ phdrs img, h.Load → ∀ va, h.Has va → m'.pte va &&& 7 = PF_PRES ||| PF_RW := by
  -- only the segments are written, and no page of theirs maps anything yet
  set V : Set U32 := {va | ∃ h ∈ phdrs img, h.Load ∧ h.Has va} with hV
  have hVabs : ∀ va ∈ V, ¬Pres (m.pte va) := by
    rintro va ⟨h, hh, hl, hva⟩
    exact habsent h hh hl va hva
  have hVlow : ∀ va ∈ V, va.toNat < 0xFFC00000 := by
    rintro va ⟨h, hh, hl, hva⟩
    exact below_tables ((hsegs h hh hl).below hva)
  have hplaced : ∀ j < ePhnum img, (phdr img j).Load →
      Placed img V (segmentPages img) (phdr img j) := by
    intro j hj hl
    have hmem := mem_phdrs.mpr ⟨j, hj, rfl⟩
    exact (hsegs _ hmem hl).placed hmem hl fun va hva => ⟨_, hmem, hl, hva⟩
  have hapart : ∀ j k, j < k → k < ePhnum img → (phdr img j).Apart (phdr img k) := by
    intro j k hjk hk hl hl' va hva hva'
    exact phdrs_pairwise hdisj j k hjk hk hl hl' va va hva hva' ⟨rfl, rfl⟩
  have hst : LoadState m file img V (segmentPages img) (m.fileFrames file img) A :=
    ⟨hspace, hfile.shown, fun va hva hp => absurd hp (hVabs va hva),
      fun va hva _ _ hp => absurd hp (hVabs va hva), hplenty⟩
  obtain ⟨m', A', hout, hinv⟩ := load_file hVlow hfile.head hfile.table hplaced hapart hst
  refine ⟨m', hout, fun h hh hl va hva => ?_⟩
  have hmem : va ∈ V := ⟨h, hh, hl, hva⟩
  obtain ⟨j, hj, rfl⟩ := mem_phdrs.mp hh
  exact hinv.made va hmem (hVabs va hmem) (hinv.done j hj hl va hva).1

/-- A page with such an entry is closed to the user. -/
theorem not_user {w : U32} (h : w &&& 7 = PF_PRES ||| PF_RW) : w &&& PF_USER = 0 := by
  have hand : w &&& 7 &&& PF_USER = w &&& PF_USER := by
    rw [BitVec.and_assoc]
    rfl
  rw [← hand, h]
  decide

/-- **Segment permissions.**  The flags are right just when no segment has a page. -/
theorem elf_flags_iff (m : Mem) (file : U32) (img : List U8) (A : Set (BitVec 20))
    (hfile : ElfImage m file img) (hsegs : ∀ h ∈ phdrs img, h.Load → h.InSystem img)
    (hdisj : (phdrs img).Pairwise Phdr.PagesApart)
    (habsent : ∀ h ∈ phdrs img, h.Load → ∀ va, h.Has va → ¬Pres (m.pte va))
    (hspace : Space m (m.fileFrames file img) A)
    (hplenty : Plenty (m.missing (segmentPages img)) m) :
    FlagsRight m file img ↔ ∀ h ∈ phdrs img, h.Load → h.pMemsz = 0 := by
  obtain ⟨m', hout, hentry⟩ := segment_entries hfile hsegs hdisj habsent hspace hplenty
  constructor
  · rintro ⟨m₁, hout₁, hflags⟩ h hh hl
    cases hout.symm.trans hout₁
    by_contra hmemsz
    -- the first address of the segment
    have hhas : h.Has h.pVaddr := by
      have hpos : h.pMemsz.toNat ≠ 0 := fun hz => hmemsz (BitVec.eq_of_toNat_eq hz)
      rw [Phdr.Has]
      omega
    exact (hflags h hh hl _ hhas).2.1 (not_user (hentry h hh hl _ hhas))
  · intro hempty
    refine ⟨m', hout, fun h hh hl va hva => ?_⟩
    have hlt := hva.2
    rw [hempty h hh hl, show (0 : U32).toNat = 0 from rfl] at hlt
    exact absurd hva.1 (by omega)

end Flags

theorem sample_check : elfCheckFile (imageMem sampleWords) 0xF0000000 = .ok 0 := by decide +kernel

theorem sample_absent : ∀ h ∈ phdrs (imageBytes sampleWords), h.Load → ∀ va, h.Has va →
    ¬Pres ((imageMem sampleWords).pte va) :=
  fun h hh hl _ hva => imageMem_absent _ ((sample_inSystem h hh hl).below hva)

/-- The small image is accepted, and its flags are right just when it has no page. -/
theorem sample_flags : elfCheckFile (imageMem sampleWords) 0xF0000000 = .ok 0 ∧
    (FlagsRight (imageMem sampleWords) 0xF0000000 (imageBytes sampleWords) ↔
      ∀ h ∈ phdrs (imageBytes sampleWords), h.Load → h.pMemsz = 0) :=
  ⟨sample_check, elf_flags_iff (imageMem sampleWords) 0xF0000000 (imageBytes sampleWords) bootPool
    sample_image sample_inSystem (by rw [sample_phdrs]; exact List.pairwise_singleton _ _)
    sample_absent (imageMem_space sampleWords (by decide)) sample_plenty⟩

/-- The pages of the small image's segment are not open to the user. -/
theorem sample_closed : elfCheckFile (imageMem sampleWords) 0xF0000000 = .ok 0 ∧
    ¬FlagsRight (imageMem sampleWords) 0xF0000000 (imageBytes sampleWords) := by
  refine ⟨sample_check, ?_⟩
  obtain ⟨m', hout, hentry⟩ := segment_entries sample_image sample_inSystem
    (by rw [sample_phdrs]; exact List.pairwise_singleton _ _) sample_absent
    (imageMem_space sampleWords (by decide)) sample_plenty
  rintro ⟨m₁, hout₁, hflags⟩
  cases hout.symm.trans hout₁
  have hmem : ⟨1, 84, 0xC0000FFE, 3, 6, 7⟩ ∈ phdrs (imageBytes sampleWords) := by
    rw [sample_phdrs]
    exact List.mem_singleton_self _
  have hhas : (⟨1, 84, 0xC0000FFE, 3, 6, 7⟩ : Phdr).Has 0xC0000FFE := by decide
  exact (hflags _ hmem rfl _ hhas).2.1 (not_user (hentry _ hmem rfl _ hhas))

end Pinion
