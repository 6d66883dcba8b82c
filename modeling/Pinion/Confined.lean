/-
Headers that cannot make the loader run away.

* `LoaderSafe` — `elf_load_file` comes to an end, its stores lie in the segments, and no
  sum or difference of header fields wraps;
* `Phdr.Sized`, `Phdr.Clear` — the sizes fit, and the pages of the segment are its own;
* `phdr_safe` — one header, `file_safe` — the table;
* `loader_safe` — when the loader is safe.
-/
import Pinion.Loader

open Runs

namespace Pinion

/-! ### Halting -/

section Halts

variable (m : Mem) (va d s n : U32)

theorem readByte_halts : Halts (m.readByte va) := (translate_halts m va).bind fun _ _ => Halts.ok _

theorem writeByte_halts (b : U8) : Halts (m.writeByte va b) :=
  (translate_halts m va).bind fun _ _ => Halts.ok _

theorem memcpy_halts : Halts (memcpy m d s n).out := by
  rw [memcpy_out]
  exact Halts.foldlM (fun m i => (readByte_halts m _).bind fun b _ => writeByte_halts m _ b) _ m

theorem memclr_halts : Halts (memclr m d n).out := by
  rw [memclr_out]
  exact Halts.foldlM (fun m i => writeByte_halts m _ 0) _ m

end Halts

/-! ### Safe headers -/

/-- The sums and differences the loader forms from a header do not wrap, and the page
counter of `mem_alloc` reaches the end of the segment before it does. -/
structure Phdr.NoWrap (h : Phdr) : Prop where
  stop : (h.pVaddr + h.pMemsz).toNat = h.pVaddr.toNat + h.pMemsz.toNat
  rest : (h.pVaddr + h.pFilesz).toNat = h.pVaddr.toNat + h.pFilesz.toNat
  clear : (h.pMemsz - h.pFilesz).toNat + h.pFilesz.toNat = h.pMemsz.toNat
  pages : ∃ n : ℕ, h.pVaddr.toNat + h.pMemsz.toNat ≤ h.pVaddr.toNat / 4096 * 4096 + 4096 * n ∧
    h.pVaddr.toNat / 4096 * 4096 + 4096 * n < 2 ^ 32

structure LoaderSafe (m : Mem) (file : U32) (img : List U8) : Prop where
  ends : Halts (elfLoadFile m file).out
  stores : ∀ a ∈ (elfLoadFile m file).log, ∃ h ∈ phdrs img, h.Load ∧ h.Has a
  exact : ∀ h ∈ phdrs img, h.Load → h.NoWrap

/-- The bytes from the file fit the memory of the segment, which ends at or below the last
page. -/
structure Phdr.Sized (h : Phdr) : Prop where
  fits : h.pFilesz.toNat ≤ h.pMemsz.toNat
  top : h.pVaddr.toNat + h.pMemsz.toNat ≤ 0xFFFFF000

/-- The segment lies below the page tables, and no page of it maps a table, a frame of the
image or a frame that `frame_new` may return. -/
structure Phdr.Clear (m : Mem) (H A : Set (BitVec 20)) (h : Phdr) : Prop where
  below : h.pVaddr.toNat + h.pMemsz.toNat ≤ 0xFFC00000
  opens : ∀ va, h.Has va → m.Open H A va

theorem Phdr.noWrap_iff (h : Phdr) : h.NoWrap ↔ h.Sized := by
  have hv := h.pVaddr.isLt
  have hm := h.pMemsz.isLt
  have hf := h.pFilesz.isLt
  constructor
  · rintro ⟨-, -, hclear, n, hpages, hlast⟩
    rw [BitVec.toNat_sub] at hclear
    exact ⟨by omega, by omega⟩
  · rintro ⟨hfits, htop⟩
    refine ⟨?_, ?_, ?_, (h.pVaddr.toNat + h.pMemsz.toNat + 4095) / 4096 - h.pVaddr.toNat / 4096,
      by omega, by omega⟩
    · rw [BitVec.toNat_add]
      omega
    · rw [BitVec.toNat_add]
      omega
    · rw [BitVec.toNat_sub]
      omega

/-- The image is shown, and the addresses in `V` may be written. -/
structure SafeState (m : Mem) (file : U32) (img : List U8) (V : Set U32) (H A : Set (BitVec 20)) :
    Prop where
  space : Space m H A
  shown : Shown m file img H
  opens : ∀ va ∈ V, m.Open H A va

section Header

variable {m : Mem} {file : U32} {img : List U8} {V : Set U32} {H A : Set (BitVec 20)} {h : Phdr}

/-- **One header**: its stores lie in the segment, and the image is still shown. -/
theorem phdr_safe (hV : ∀ va ∈ V, va.toNat < 0xFFC00000) (hst : SafeState m file img V H A)
    {a : ℕ} (ha : a + 32 ≤ img.length) (hh : phdrAt img a = h) (hl : h.Load)
    (hfits : h.pFilesz.toNat ≤ h.pMemsz.toNat)
    (htop : h.pVaddr.toNat + h.pMemsz.toNat ≤ 0xFFC00000) (hin : ∀ va, h.Has va → va ∈ V) :
    Halts (elfLoadPhdr file (file + BitVec.ofNat 32 a) m).out ∧
      (∀ va ∈ (elfLoadPhdr file (file + BitVec.ofNat 32 a) m).log, h.Has va) ∧
      ∀ m', (elfLoadPhdr file (file + BitVec.ofNat 32 a) m).out = .ok m' →
        ∃ A', SafeState m' file img V H A' := by
  have hclrLen := Phdr.clear_len hfits
  have hhas : ∀ i < h.pMemsz.toNat, h.Has (h.pVaddr + BitVec.ofNat 32 i) := fun i hi =>
    (Phdr.has_add (by omega) hi).2
  -- the states after `mem_alloc` and after the copy
  have halloc : ∀ m₁, memAlloc m h.pVaddr h.pMemsz loadFlags = .ok m₁ →
      ∃ A₁, SafeState m₁ file img V H A₁ := by
    intro m₁ h₁
    obtain ⟨A₁, hgrew, -⟩ := memAlloc_grew hst.space le_rfl htop h₁
    exact ⟨A₁, hgrew.space, hgrew.shown hst.space hst.shown, fun va hva =>
      hgrew.stays_open hst.space (pdx_lt (hV va hva)) (hst.opens va hva)⟩
  have hkeep : ∀ {m₁ m₂ : Mem} {A₁ : Set (BitVec 20)}, SafeState m₁ file img V H A₁ →
      Kept m₁ m₂ H A₁ → SafeState m₂ file img V H A₁ := fun h₁ hk =>
    ⟨hk.space, hk.shown h₁.shown, fun va hva => hk.opens (h₁.opens va hva)⟩
  have hcopy : ∀ {m₁ m₂ : Mem} {A₁ : Set (BitVec 20)}, SafeState m₁ file img V H A₁ →
      (memcpy m₁ h.pVaddr (file + h.pOffset) h.pFilesz).out = .ok m₂ →
      SafeState m₂ file img V H A₁ := fun h₁ h₂ =>
    hkeep h₁ (memcpy_kept h₁.space (fun i hi => h₁.opens _ (hin _ (hhas i (by omega)))) h₂)
  have hfilesz : fileWord img (a + 16) = h.pFilesz := by rw [← hh]; rfl
  have hmemsz : fileWord img (a + 20) = h.pMemsz := by rw [← hh]; rfl
  have hread₁₆ : ∀ {m₁ : Mem} {A₁ : Set (BitVec 20)}, SafeState m₁ file img V H A₁ →
      m₁.readWord (file + BitVec.ofNat 32 a + 16) = .ok h.pFilesz := fun {m₁ _} h₁ => by
    rw [← hfilesz]
    exact @Shown.field m₁ file img H h₁.shown a 16 16 rfl (by omega)
  have hread₂₀ : ∀ {m₁ : Mem} {A₁ : Set (BitVec 20)}, SafeState m₁ file img V H A₁ →
      m₁.readWord (file + BitVec.ofNat 32 a + 20) = .ok h.pMemsz := fun {m₁ _} h₁ => by
    rw [← hmemsz]
    exact @Shown.field m₁ file img H h₁.shown a 20 20 rfl (by omega)
  rw [hst.shown.phdr_load ha (by rw [hh]; exact hl), hh]
  refine ⟨?_, fun va hva => ?_, fun m' hm' => ?_⟩
  · -- each part returns or stops for a page that is absent
    rw [Traced.out_bind]
    refine (memAlloc_halts (by omega) _ m).bind fun m₁ hm₁ => ?_
    obtain ⟨A₁, h₁⟩ := halloc m₁ hm₁
    rw [hread₁₆ h₁, Traced.ok_bind, Traced.out_bind]
    refine (memcpy_halts m₁ _ _ _).bind fun m₂ hm₂ => ?_
    have h₂ := hcopy h₁ hm₂
    rw [hread₁₆ h₂, Traced.ok_bind, hread₂₀ h₂, Traced.ok_bind]
    exact memclr_halts m₂ _ _
  · -- `mem_alloc` writes tables only; the copy and the clearing write the segment
    rcases Traced.mem_bind_log.mp hva with hva | ⟨m₁, hm₁, hva⟩
    · cases hva
    obtain ⟨A₁, h₁⟩ := halloc m₁ hm₁
    rw [hread₁₆ h₁, Traced.ok_bind] at hva
    rcases Traced.mem_bind_log.mp hva with hva | ⟨m₂, hm₂, hva⟩
    · obtain ⟨i, hi, rfl⟩ := memcpy_log hva
      exact hhas i (by omega)
    have h₂ := hcopy h₁ hm₂
    rw [hread₁₆ h₂, Traced.ok_bind, hread₂₀ h₂, Traced.ok_bind] at hva
    obtain ⟨i, hi, rfl⟩ := memclr_log hva
    rw [h.clear_add]
    exact hhas _ (by omega)
  · rw [Traced.out_bind] at hm'
    obtain ⟨m₁, hm₁, hm'⟩ := bind_eq_ok.mp hm'
    obtain ⟨A₁, h₁⟩ := halloc m₁ hm₁
    rw [hread₁₆ h₁, Traced.ok_bind, Traced.out_bind] at hm'
    obtain ⟨m₂, hm₂, hm'⟩ := bind_eq_ok.mp hm'
    have h₂ := hcopy h₁ hm₂
    rw [hread₁₆ h₂, Traced.ok_bind, hread₂₀ h₂, Traced.ok_bind] at hm'
    refine ⟨A₁, hkeep h₂ (memclr_kept h₂.space (fun i hi => ?_) hm')⟩
    rw [h.clear_add]
    exact h₂.opens _ (hin _ (hhas _ (by omega)))

end Header

/-! ### Safe files -/

section File

variable {file : U32} {img : List U8} {V : Set U32} {H : Set (BitVec 20)}

/-- **The header table**: every store lies in a segment. -/
theorem file_safe (hV : ∀ va ∈ V, va.toNat < 0xFFC00000) (hhead : 52 ≤ img.length)
    (htable : ePhoff img + 32 * ePhnum img ≤ img.length)
    (hsegs : ∀ h ∈ phdrs img, h.Load → h.pFilesz.toNat ≤ h.pMemsz.toNat ∧
      h.pVaddr.toNat + h.pMemsz.toNat ≤ 0xFFC00000 ∧ ∀ va, h.Has va → va ∈ V) :
    ∀ (k i n : ℕ) {m : Mem} {A : Set (BitVec 20)}, i + k = ePhnum img → k < n →
      SafeState m file img V H A →
      Halts (elfLoadFrom file (file + fileWord img 28) n i m).out ∧
        ∀ a ∈ (elfLoadFrom file (file + fileWord img 28) n i m).log,
          ∃ h ∈ phdrs img, h.Load ∧ h.Has a := by
  intro k
  induction k with
  | zero =>
    intro i n m A hi hn hst
    obtain ⟨n, rfl⟩ : ∃ j, n = j + 1 := ⟨n - 1, by omega⟩
    obtain rfl : i = ePhnum img := by omega
    rw [hst.shown.from_end hhead]
    exact ⟨Halts.ok m, fun a ha => absurd ha (List.not_mem_nil)⟩
  | succ k ih =>
    intro i n m A hi hn hst
    obtain ⟨n, rfl⟩ : ∃ j, n = j + 1 := ⟨n - 1, by omega⟩
    have hroom : ePhoff img + 32 * i + 32 ≤ img.length := by omega
    have hmem : phdr img i ∈ phdrs img := mem_phdrs.mpr ⟨i, by omega, rfl⟩
    -- what the header does, whether it is loaded or passed over
    obtain ⟨hends, hlog, hnext⟩ :
        Halts (elfLoadPhdr file (file + BitVec.ofNat 32 (ePhoff img + 32 * i)) m).out ∧
          (∀ a ∈ (elfLoadPhdr file (file + BitVec.ofNat 32 (ePhoff img + 32 * i)) m).log,
            ∃ h ∈ phdrs img, h.Load ∧ h.Has a) ∧
          ∀ m', (elfLoadPhdr file (file + BitVec.ofNat 32 (ePhoff img + 32 * i)) m).out = .ok m' →
            ∃ A', SafeState m' file img V H A' := by
      by_cases hl : (phdr img i).Load
      · obtain ⟨hfits, htop, hin⟩ := hsegs _ hmem hl
        obtain ⟨hends, hlog, hnext⟩ := phdr_safe hV hst hroom rfl hl hfits htop hin
        exact ⟨hends, fun a ha => ⟨_, hmem, hl, hlog a ha⟩, hnext⟩
      · rw [hst.shown.phdr_skip hroom hl]
        refine ⟨Halts.ok m, fun a ha => absurd ha (List.not_mem_nil), fun m' hm' => ?_⟩
        cases hm'
        exact ⟨A, hst⟩
    rw [hst.shown.from_next hhead n (by omega)]
    refine ⟨?_, fun a ha => ?_⟩
    · rw [Traced.out_bind]
      refine hends.bind fun m₁ hm₁ => ?_
      obtain ⟨A₁, h₁⟩ := hnext m₁ hm₁
      exact (ih (i + 1) n (by omega) (by omega) h₁).1
    · rcases Traced.mem_bind_log.mp ha with ha | ⟨m₁, hm₁, ha⟩
      · exact hlog a ha
      · obtain ⟨A₁, h₁⟩ := hnext m₁ hm₁
        exact (ih (i + 1) n (by omega) (by omega) h₁).2 a ha

end File

/-- **The loader and malformed headers.**  If the loader is safe, every segment has sizes
that fit.  If besides the segments lie below the page tables, and their pages map neither a
table nor a frame of the image nor one that may still be given out, the loader is safe. -/
theorem loader_safe (m : Mem) (file : U32) (img : List U8) (A : Set (BitVec 20))
    (hfile : ElfImage m file img) (hspace : Space m (m.fileFrames file img) A) :
    (LoaderSafe m file img → ∀ h ∈ phdrs img, h.Load → h.Sized) ∧
      ((∀ h ∈ phdrs img, h.Load → h.Sized ∧ h.Clear m (m.fileFrames file img) A) →
        LoaderSafe m file img) := by
  refine ⟨fun hsafe h hh hl => h.noWrap_iff.mp (hsafe.exact h hh hl), fun hsegs => ?_⟩
  set V : Set U32 := {va | ∃ h ∈ phdrs img, h.Load ∧ h.Has va}
  have hVlow : ∀ va ∈ V, va.toNat < 0xFFC00000 := by
    rintro va ⟨h, hh, hl, hva⟩
    have hbelow := (hsegs h hh hl).2.below
    have hlt := hva.2
    omega
  have hst : SafeState m file img V (m.fileFrames file img) A := by
    refine ⟨hspace, hfile.shown, ?_⟩
    rintro va ⟨h, hh, hl, hva⟩
    exact (hsegs h hh hl).2.opens va hva
  obtain ⟨hends, hlog⟩ := file_safe hVlow hfile.head hfile.table
    (fun h hh hl => ⟨(hsegs h hh hl).1.fits, (hsegs h hh hl).2.below,
      fun va hva => ⟨h, hh, hl, hva⟩⟩)
    (ePhnum img) 0 (2 ^ 16) (by omega) (ePhnum_lt img) hst
  refine ⟨?_, ?_, fun h hh hl => h.noWrap_iff.mpr (hsegs h hh hl).1⟩
  · rw [hfile.shown.file_eq hfile.head]
    exact hends
  · rw [hfile.shown.file_eq hfile.head]
    exact hlog

/-- On the small image the loader is safe. -/
theorem sample_safe : LoaderSafe (imageMem sampleWords) 0xF0000000 (imageBytes sampleWords) := by
  refine (loader_safe (imageMem sampleWords) 0xF0000000
    (imageBytes sampleWords) bootPool sample_image
    (imageMem_space sampleWords (by decide))).2 fun h hh hl => ?_
  have hin := sample_inSystem h hh hl
  have hhigh := hin.high
  rw [show KERNEL_ADDR_BASE.toNat = 0xF0000000 from rfl] at hhigh
  exact ⟨⟨hin.fits, by omega⟩, by omega, fun va hva hp =>
    absurd hp (imageMem_absent _ (hin.below hva))⟩

/-! ### A segment longer than its memory -/

/-- A copy stores every byte of the segment, whatever the size of its memory. -/
theorem Shown.phdr_stores {m m₁ m₂ : Mem} {file : U32} {img : List U8} {H : Set (BitVec 20)}
    (hs : Shown m file img H) {a : ℕ} (ha : a + 32 ≤ img.length) {h : Phdr}
    (hh : phdrAt img a = h) (hl : h.Load)
    (halloc : memAlloc m h.pVaddr h.pMemsz loadFlags = .ok m₁) (hs₁ : Shown m₁ file img H)
    (hcopy : (memcpy m₁ h.pVaddr (file + h.pOffset) h.pFilesz).out = .ok m₂) {i : ℕ}
    (hi : i < h.pFilesz.toNat) :
    h.pVaddr + BitVec.ofNat 32 i ∈ (elfLoadPhdr file (file + BitVec.ofNat 32 a) m).log := by
  have h₁₆ := @Shown.field m₁ file img H hs₁ a 16 16 rfl (by omega)
  rw [show fileWord img (a + 16) = h.pFilesz by rw [← hh]; rfl] at h₁₆
  rw [hs.phdr_load ha (by rw [hh]; exact hl), hh, Traced.mem_bind_log]
  refine .inr ⟨m₁, halloc, ?_⟩
  rw [h₁₆, Traced.ok_bind, Traced.mem_bind_log]
  refine .inl (Traced.log_of_turn (fun m m' hturn => ?_) (List.mem_range.mpr hi) hcopy)
  rw [Traced.out_bind] at hturn
  obtain ⟨b, hb, -⟩ := bind_eq_ok.mp hturn
  exact Traced.mem_bind_log.mpr (.inr ⟨b, hb, List.mem_singleton_self _⟩)

/-- An ELF file with one segment: two bytes, in memory for one. -/
def overrunWords : List U32 :=
  [0x464C457F, 0x00010101, 0, 0, 0x00030002, 1, 0xC0000000, 52, 0, 0, 0x00200034, 1, 0,
    1, 84, 0xC0000000, 0, 2, 1, 7, 0x1000, 0x00332211]

theorem overrun_image :
    ElfImage (imageMem overrunWords) 0xF0000000 (imageBytes overrunWords) := by
  refine ⟨by decide, by decide, by decide, ?_⟩
  decide +kernel

theorem overrun_phdrs : phdrs (imageBytes overrunWords) = [⟨1, 84, 0xC0000000, 2, 1, 7⟩] := by
  decide +kernel

theorem overrun_store : 0xC0000001 ∈ (elfLoadFile (imageMem overrunWords) 0xF0000000).log := by
  set m := imageMem overrunWords with hm
  set img := imageBytes overrunWords with himg
  have hspace : Space m (m.fileFrames 0xF0000000 img) bootPool := imageMem_space _ (by decide)
  have hshown := overrun_image.shown
  have hV : ∀ va ∈ belowKernel, va.toNat < 0xFFC00000 := fun va hva => below_tables hva
  -- one page is mapped for the one byte of memory
  have hpool : Plenty 2 m := plenty_pool rfl (by decide)
  have hplenty : Plenty (m.missing {0xC0000}) m := hpool.mono (missing_le m {0xC0000})
  obtain ⟨m₁, halloc, -⟩ := @memAlloc_total 1023 m _ bootPool {0xC0000} 0xC0000000 1 loadFlags
    hspace le_rfl (by decide) (by
      intro p hlo hhi
      simp only [BitVec.reduceToNat] at hlo hhi
      rw [Finset.mem_singleton]
      omega) hplenty
  obtain ⟨A₁, hgrew, hpres, -⟩ := memAlloc_grew hspace le_rfl (by decide) halloc
  have hshown₁ := hgrew.shown hspace hshown
  have hopen : ∀ va ∈ belowKernel, m.Open (m.fileFrames 0xF0000000 img) bootPool va :=
    fun va hva hp => absurd hp (imageMem_absent _ hva)
  have hinj₁ : m₁.Inj belowKernel := hgrew.keeps_inj hV hopen
    fun va hva _ _ hp => absurd hp (imageMem_absent _ hva)
  have hpage : Pres (m₁.pte 0xC0000000) := hpres _ (by decide) (by decide)
  have hdst : ∀ i < (2 : U32).toNat, (0xC0000000 : U32) + BitVec.ofNat 32 i ∈ belowKernel ∧
      Pres (m₁.pte (0xC0000000 + BitVec.ofNat 32 i)) ∧
      m₁.Open (m.fileFrames 0xF0000000 img) A₁ (0xC0000000 + BitVec.ofNat 32 i) := by
    intro i hi
    have hi : i < 2 := hi
    have hbelow : (0xC0000000 : U32) + BitVec.ofNat 32 i ∈ belowKernel := by
      show _ < KERNEL_ADDR_BASE
      interval_cases i <;> decide
    have hsame : SamePage (0xC0000000 + BitVec.ofNat 32 i) 0xC0000000 := by
      rw [samePage_iff]
      interval_cases i <;> decide
    refine ⟨hbelow, by rw [hsame.pte]; exact hpage, ?_⟩
    exact hgrew.stays_open hspace (pdx_lt (hV _ hbelow)) (hopen _ hbelow)
  obtain ⟨m₂, hcopy, -⟩ := memcpy_seen hgrew.space hinj₁ (by decide) hdst (s := 0xF0000000 + 84) (by
    intro i hi
    have hi : i < 2 := hi
    have hsrc : (0xF0000000 + 84 + BitVec.ofNat 32 i : U32) =
        0xF0000000 + BitVec.ofNat 32 (84 + i) := by
      interval_cases i <;> decide
    rw [hsrc]
    obtain ⟨hp, hH, -⟩ := hshown₁ (84 + i) (by
      have hlen : (imageBytes overrunWords).length = 88 := by decide
      omega)
    exact ⟨hp, hH⟩)
  have hlog := hshown.phdr_stores (a := 52) (by decide) (h := ⟨1, 84, 0xC0000000, 2, 1, 7⟩)
    (by decide +kernel) rfl halloc hshown₁ hcopy (i := 1) (by decide)
  have hphoff : ePhoff img + 32 * 0 = 52 := by decide
  rw [hshown.file_eq (by decide), show (2 ^ 16 : ℕ) = 65535 + 1 from rfl,
    hshown.from_next (by decide) 65535 (by decide), hphoff, Traced.mem_bind_log]
  exact .inl hlog

/-- The loader accepts the file, writes behind the memory of its segment and wraps the
length to clear. -/
theorem overrun_unsafe : elfCheckFile (imageMem overrunWords) 0xF0000000 = .ok 0 ∧
    0xC0000001 ∈ (elfLoadFile (imageMem overrunWords) 0xF0000000).log ∧
    (∀ h ∈ phdrs (imageBytes overrunWords), ¬h.Has 0xC0000001) ∧
    ¬LoaderSafe (imageMem overrunWords) 0xF0000000 (imageBytes overrunWords) := by
  have hout : ∀ h ∈ phdrs (imageBytes overrunWords), ¬h.Has 0xC0000001 := by
    rw [overrun_phdrs]
    decide
  refine ⟨by decide +kernel, overrun_store, hout, fun hsafe => ?_⟩
  obtain ⟨h, hh, -, hhas⟩ := hsafe.stores _ overrun_store
  exact hout h hh hhas

end Pinion
