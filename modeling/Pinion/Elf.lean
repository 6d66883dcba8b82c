/-
Loading an ELF image.

The embedding of `elf.c`, `memcpy.c` and `memclr.c`.  Every access goes through the page
tables, byte by byte, and the fields of a header are read when the source reads them.  A
store of `memcpy` or `memclr` is noted with its address.
-/
import Pinion.Memory
import Pinion.Traced

open Runs

namespace Pinion

/-! ### Bytes -/

/-- Byte `j` of a word. -/
def byteAt (w : U32) (j : BitVec 2) : U8 := w.extractLsb' (8 * j.toNat) 8

/-- Another value for byte `j` of a word. -/
def setByteAt (w : U32) (j : BitVec 2) (b : U8) : U32 :=
  (w &&& ~~~((0xFF : U32) <<< (8 * j.toNat))) ||| (b.setWidth 32 <<< (8 * j.toNat))

def Mem.readByte (m : Mem) (va : U32) : Except Stop U8 := do
  let (f, i) ← m.translate va
  return byteAt (m.phys f i) (va.extractLsb' 0 2)

def Mem.writeByte (m : Mem) (va : U32) (b : U8) : Except Stop Mem := do
  let (f, i) ← m.translate va
  let w := setByteAt (m.phys f i) (va.extractLsb' 0 2) b
  return { m with phys := Function.update m.phys f (Function.update (m.phys f) i w) }

/-- A 16-bit field, low byte first. -/
def Mem.readHalf (m : Mem) (va : U32) : Except Stop (BitVec 16) := do
  let b₀ ← m.readByte va
  let b₁ ← m.readByte (va + 1)
  return b₁ ++ b₀

/-- A 32-bit field, low byte first. -/
def Mem.readWord (m : Mem) (va : U32) : Except Stop U32 := do
  let h₀ ← m.readHalf va
  let h₁ ← m.readHalf (va + 2)
  return h₁ ++ h₀

/-- A computation whose stores are noted. -/
abbrev Load := Traced Stop U32

/-- `dst[i] = b` in `memcpy` and `memclr`. -/
def Mem.store (m : Mem) (va : U32) (b : U8) : Load Mem := Traced.note va (m.writeByte va b)

def memcpy (m : Mem) (d s n : U32) : Load Mem :=
  (List.range n.toNat).foldlM (fun m i => do
    let b ← m.readByte (s + BitVec.ofNat 32 i)
    m.store (d + BitVec.ofNat 32 i) b) m

def memclr (m : Mem) (s n : U32) : Load Mem :=
  (List.range n.toNat).foldlM (fun m i => m.store (s + BitVec.ofNat 32 i) 0) m

/-! ### `elf.c` -/

def ET_EXEC : BitVec 16 := 2
def EM_386 : BitVec 16 := 3
def PT_LOAD : U32 := 1

/-- `PF_W` of `elf.h`, a flag of a segment. -/
def PF_W : U32 := 0x2

def elfCheckFile (m : Mem) (file : U32) : Except Stop ℤ := do
  if (← m.readByte file) ≠ 0x7F then return 1
  if (← m.readByte (file + 1)) ≠ 0x45 then return 1
  if (← m.readByte (file + 2)) ≠ 0x4C then return 1
  if (← m.readByte (file + 3)) ≠ 0x46 then return 1
  if (← m.readHalf (file + 16)) ≠ ET_EXEC then return 1
  if (← m.readHalf (file + 18)) ≠ EM_386 then return 1
  if (← m.readWord (file + 20)) ≠ 1 then return 1
  return 0

/-- The flags `elf_load_phdr` passes on.  The source has no brackets around the
conditional, so all of `PF_USER | PF_PRES | (p_flags & PF_W)` is its condition. -/
def segmentFlags (pFlags : U32) : U32 :=
  if PF_USER ||| PF_PRES ||| (pFlags &&& PF_W) ≠ 0 then PF_RW else 0

/-- The 16-bit parameter `flags` of `mem_alloc`. -/
def flags16 (flags : U32) : U32 := (flags.setWidth 16).setWidth 32

def elfLoadPhdr (file phdr : U32) (m : Mem) : Load Mem := do
  let pType ← m.readWord phdr
  if pType = PT_LOAD then
    let segBase := file + (← m.readWord (phdr + 4))
    let dst ← m.readWord (phdr + 8)
    let pflags := segmentFlags (← m.readWord (phdr + 24))
    let memsz ← m.readWord (phdr + 20)
    let m ← memAlloc m dst memsz (flags16 pflags)
    let filesz ← m.readWord (phdr + 16)
    let m ← memcpy m dst segBase filesz
    -- the copy may have changed the header
    let filesz ← m.readWord (phdr + 16)
    let memsz ← m.readWord (phdr + 20)
    memclr m (dst + filesz) (memsz - filesz)
  else pure m

/-- The loop of `elf_load_file`, from header `i` on; `e_phnum` is read at every turn. -/
def elfLoadFrom (file phdrTbl : U32) : ℕ → ℕ → Mem → Load Mem
  | 0, _, _ => ⟨[], .error .hang⟩
  | n + 1, i, m => do
    let phnum ← m.readHalf (file + 44)
    if i < phnum.toNat then
      let m ← elfLoadPhdr file (phdrTbl + 32 * BitVec.ofNat 32 i) m
      elfLoadFrom file phdrTbl n (i + 1) m
    else pure m

/-- `e_phnum` has 16 bits, so the loop makes less than `2 ^ 16` turns. -/
def elfLoadFile (m : Mem) (file : U32) : Load Mem := do
  let phoff ← m.readWord (file + 28)
  elfLoadFrom file (file + phoff) (2 ^ 16) 0 m

end Pinion
