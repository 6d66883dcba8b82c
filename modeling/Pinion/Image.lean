/-
ELF images and how the loader reads them.

* `Phdr`, `phdrs` — the program headers of an image;
* `ElfImage m file img` — memory shows the image `img` at the address `file`;
* `Shown` — the same, in frames that are held;
* `Grew.shown`, `Kept.shown` — mapping pages and writing others keep it;
* `Shown.phdr_skip`, `Shown.phdr_load` — `elf_load_phdr` on an image that is shown;
* `Shown.file_eq`, `Shown.from_next`, `Shown.from_end` — `elf_load_file` on it.
-/
import Pinion.Copying

open Runs

namespace Pinion

/-! ### The fields of an image -/

/-- The byte of an image at an offset. -/
def fileByte (img : List U8) (k : ℕ) : U8 := img.getD k 0

def fileHalf (img : List U8) (k : ℕ) : BitVec 16 := fileByte img (k + 1) ++ fileByte img k

def fileWord (img : List U8) (k : ℕ) : U32 := fileHalf img (k + 2) ++ fileHalf img k

/-- `struct elf32_phdr`, less the fields `elf_load_phdr` does not read. -/
structure Phdr where
  pType : U32
  pOffset : U32
  pVaddr : U32
  pFilesz : U32
  pMemsz : U32
  pFlags : U32
  deriving DecidableEq

/-- The header at an offset. -/
def phdrAt (img : List U8) (k : ℕ) : Phdr :=
  ⟨fileWord img k, fileWord img (k + 4), fileWord img (k + 8), fileWord img (k + 16),
    fileWord img (k + 20), fileWord img (k + 24)⟩

def ePhoff (img : List U8) : ℕ := (fileWord img 28).toNat

def ePhnum (img : List U8) : ℕ := (fileHalf img 44).toNat

/-- Program header `i` of an image. -/
def phdr (img : List U8) (i : ℕ) : Phdr := phdrAt img (ePhoff img + 32 * i)

/-- The program headers of an image. -/
def phdrs (img : List U8) : List Phdr := (List.range (ePhnum img)).map (phdr img)

namespace Phdr

variable (h : Phdr)

/-- The segment is loaded. -/
def Load : Prop := h.pType = PT_LOAD

instance : Decidable h.Load := inferInstanceAs (Decidable (_ = _))

/-- The address lies in the memory of the segment. -/
def Has (va : U32) : Prop :=
  h.pVaddr.toNat ≤ va.toNat ∧ va.toNat < h.pVaddr.toNat + h.pMemsz.toNat

instance (va : U32) : Decidable (h.Has va) := inferInstanceAs (Decidable (_ ∧ _))

end Phdr

/-- The image is in memory at `file`, its program headers inside it. -/
structure ElfImage (m : Mem) (file : U32) (img : List U8) : Prop where
  room : file.toNat + img.length ≤ 2 ^ 32
  head : 52 ≤ img.length
  table : ePhoff img + 32 * ePhnum img ≤ img.length
  bytes : ∀ k < img.length, m.readByte (file + BitVec.ofNat 32 k) = .ok (fileByte img k)

/-- The frames that hold an image. -/
def Mem.fileFrames (m : Mem) (file : U32) (img : List U8) : Set (BitVec 20) :=
  {g | ∃ k < img.length, frameNo (m.pte (file + BitVec.ofNat 32 k)) = g}

/-- The image is seen at `file`, in held frames. -/
def Shown (m : Mem) (file : U32) (img : List U8) (H : Set (BitVec 20)) : Prop :=
  ∀ k < img.length, Pres (m.pte (file + BitVec.ofNat 32 k)) ∧
    frameNo (m.pte (file + BitVec.ofNat 32 k)) ∈ H ∧
    m.seen (file + BitVec.ofNat 32 k) = fileByte img k

section Shown

variable {m m' : Mem} {file : U32} {img : List U8} {H A A' : Set (BitVec 20)} {k : ℕ}

theorem ElfImage.shown (h : ElfImage m file img) : Shown m file img (m.fileFrames file img) := by
  intro k hk
  obtain ⟨hp, hb⟩ := readByte_ok (h.bytes k hk)
  exact ⟨hp, ⟨k, hk, rfl⟩, hb⟩

theorem Kept.shown (h : Kept m m' H A) (hs : Shown m file img H) : Shown m' file img H := by
  intro k hk
  obtain ⟨hp, hH, hb⟩ := hs k hk
  rw [h.seen_held hH, h.pte]
  exact ⟨hp, hH, hb⟩

theorem Grew.shown {fl : U32} (h : Grew 1023 m m' H A A' fl) (hspace : Space m H A)
    (hs : Shown m file img H) : Shown m' file img H := by
  intro k hk
  obtain ⟨hp, hH, hb⟩ := hs k hk
  have hA : frameNo (m.pte (file + BitVec.ofNat 32 k)) ∉ A := fun hmem =>
    (hspace.fresh _ hmem).2 hH
  rw [Mem.seen, h.keep _ hp, Mem.byte, h.frames _ (hspace.held _ hH) hA]
  exact ⟨hp, hH, hb⟩

theorem ofNat_step (file : U32) (a b : ℕ) :
    file + BitVec.ofNat 32 a + BitVec.ofNat 32 b = file + BitVec.ofNat 32 (a + b) := by
  rw [BitVec.ofNat_add, BitVec.add_assoc]

theorem Shown.byte (hs : Shown m file img H) (hk : k < img.length) :
    m.readByte (file + BitVec.ofNat 32 k) = .ok (fileByte img k) := by
  obtain ⟨hp, -, hb⟩ := hs k hk
  rw [readByte_eq hp, hb]

theorem Shown.half (hs : Shown m file img H) (hk : k + 2 ≤ img.length) :
    m.readHalf (file + BitVec.ofNat 32 k) = .ok (fileHalf img k) := by
  have hnext : m.readByte (file + BitVec.ofNat 32 k + 1) = .ok (fileByte img (k + 1)) := by
    rw [← hs.byte (show k + 1 < img.length by omega)]
    exact congrArg m.readByte (ofNat_step file k 1)
  rw [Mem.readHalf, hs.byte (by omega), hnext]
  rfl

theorem Shown.word (hs : Shown m file img H) (hk : k + 4 ≤ img.length) :
    m.readWord (file + BitVec.ofNat 32 k) = .ok (fileWord img k) := by
  have hnext : m.readHalf (file + BitVec.ofNat 32 k + 2) = .ok (fileHalf img (k + 2)) := by
    rw [← hs.half (show k + 2 + 2 ≤ img.length by omega)]
    exact congrArg m.readHalf (ofNat_step file k 2)
  rw [Mem.readWord, hs.half (by omega), hnext]
  rfl

/-- A field of a header. -/
theorem Shown.field (hs : Shown m file img H) (a c : ℕ) {o : U32} (ho : o = BitVec.ofNat 32 c)
    (hk : a + c + 4 ≤ img.length) :
    m.readWord (file + BitVec.ofNat 32 a + o) = .ok (fileWord img (a + c)) := by
  rw [ho, ofNat_step]
  exact hs.word hk

/-! ### One header -/

/-- The flags of the pages of every segment. -/
def loadFlags : U32 := flags16 PF_RW

/-- Whatever the flags of the segment are, the condition in `elf_load_phdr` is true. -/
theorem segmentFlags_eq (pFlags : U32) : segmentFlags pFlags = PF_RW := by
  refine if_pos fun hz => ?_
  have hbit : (PF_USER ||| PF_PRES ||| (pFlags &&& PF_W)).getLsbD 0 = true := by
    unfold PF_USER PF_PRES PF_W
    simp
  rw [hz] at hbit
  cases hbit

/-- A header that is not of type `PT_LOAD` is passed over. -/
theorem Shown.phdr_skip (hs : Shown m file img H) {a : ℕ} (ha : a + 32 ≤ img.length)
    (hl : ¬(phdrAt img a).Load) : elfLoadPhdr file (file + BitVec.ofNat 32 a) m = pure m := by
  rw [elfLoadPhdr, hs.word (by omega), Traced.ok_bind]
  exact if_neg hl

/-- A segment: its pages are mapped, its bytes copied and the rest cleared.  The sizes are
read again after each step. -/
theorem Shown.phdr_load (hs : Shown m file img H) {a : ℕ} (ha : a + 32 ≤ img.length)
    (hl : (phdrAt img a).Load) :
    elfLoadPhdr file (file + BitVec.ofNat 32 a) m =
      (liftM (memAlloc m (phdrAt img a).pVaddr (phdrAt img a).pMemsz loadFlags) >>= fun m₁ =>
      liftM (m₁.readWord (file + BitVec.ofNat 32 a + 16)) >>= fun filesz =>
      memcpy m₁ (phdrAt img a).pVaddr (file + (phdrAt img a).pOffset) filesz >>= fun m₂ =>
      liftM (m₂.readWord (file + BitVec.ofNat 32 a + 16)) >>= fun filesz =>
      liftM (m₂.readWord (file + BitVec.ofNat 32 a + 20)) >>= fun memsz =>
      memclr m₂ ((phdrAt img a).pVaddr + filesz) (memsz - filesz)) := by
  have h₄ := @Shown.field m file img H hs a 4 4 rfl (by omega)
  have h₈ := @Shown.field m file img H hs a 8 8 rfl (by omega)
  have h₂₄ := @Shown.field m file img H hs a 24 24 rfl (by omega)
  have h₂₀ := @Shown.field m file img H hs a 20 20 rfl (by omega)
  rw [elfLoadPhdr, hs.word (by omega), Traced.ok_bind]
  refine (if_pos hl).trans ?_
  rw [h₄, Traced.ok_bind]
  dsimp only
  rw [h₈, Traced.ok_bind, h₂₄, Traced.ok_bind, segmentFlags_eq, h₂₀,
    Traced.ok_bind]
  rfl

/-! ### The header table -/

theorem phdrTable_addr (file : U32) (img : List U8) (i : ℕ) :
    file + fileWord img 28 + 32 * BitVec.ofNat 32 i =
      file + BitVec.ofNat 32 (ePhoff img + 32 * i) := by
  rw [ePhoff, BitVec.ofNat_add, BitVec.ofNat_toNat, BitVec.setWidth_eq, BitVec.ofNat_mul,
    BitVec.add_assoc]
  rfl

theorem ePhnum_lt (img : List U8) : ePhnum img < 2 ^ 16 := (fileHalf img 44).isLt

theorem Shown.file_eq (hs : Shown m file img H) (hhead : 52 ≤ img.length) :
    elfLoadFile m file = elfLoadFrom file (file + fileWord img 28) (2 ^ 16) 0 m := by
  have hphoff := @Shown.word m file img H 28 hs (by omega)
  rw [elfLoadFile, show m.readWord (file + 28) = _ from hphoff, Traced.ok_bind]

theorem Shown.from_next (hs : Shown m file img H) (hhead : 52 ≤ img.length) (n : ℕ) {i : ℕ}
    (hi : i < ePhnum img) : elfLoadFrom file (file + fileWord img 28) (n + 1) i m =
      elfLoadPhdr file (file + BitVec.ofNat 32 (ePhoff img + 32 * i)) m >>= fun m =>
        elfLoadFrom file (file + fileWord img 28) n (i + 1) m := by
  have hphnum := @Shown.half m file img H 44 hs (by omega)
  rw [elfLoadFrom, show m.readHalf (file + 44) = _ from hphnum, Traced.ok_bind,
    if_pos (show i < (fileHalf img 44).toNat from hi), phdrTable_addr]

theorem Shown.from_end (hs : Shown m file img H) (hhead : 52 ≤ img.length) (n : ℕ) :
    elfLoadFrom file (file + fileWord img 28) (n + 1) (ePhnum img) m = pure m := by
  have hphnum := @Shown.half m file img H 44 hs (by omega)
  rw [elfLoadFrom, show m.readHalf (file + 44) = _ from hphnum, Traced.ok_bind]
  exact if_neg (lt_irrefl _)

end Shown

end Pinion
