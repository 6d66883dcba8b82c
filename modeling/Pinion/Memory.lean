/-
Frames, page tables, paging contexts and the kernel heap.

The embedding of `frame.c`, `page.c`, `mem.c`, `pctx.c` and `heap.c` over one
record `Mem`.  Physical memory is an array of frames of 1024 words; every access
of the kernel to a page table goes through the directory in CR3, so the
recursive mapping is part of the model and a missing entry is a kernel page
fault.  Frame structures are linked through pointers as in the source.  The free
lists of the heap are Lean lists of block addresses, first block first: the link
word of a free block lies inside the block and is read by no one else.
-/
import Pinion.Types

namespace Pinion

/-- `struct frame_struct`. -/
structure FrameStruct where
  next : Option Ptr
  prev : Option Ptr
  refc : U32
  addr : U32
  deriving DecidableEq

structure Mem where
  phys : BitVec 20 → BitVec 10 → U32
  cr3 : U32
  /-- The linker symbol `_end`. -/
  kend : U32
  outOfMemory : Bool
  oomPool : U32
  frameStruct : Ptr → FrameStruct
  frameList : Option Ptr
  frameHash : ℕ → Option Ptr
  pctxTable : ℕ → U32
  activePctx : ℤ
  heapBucket : ℕ → List Ptr
  analysis : ℕ → ℤ
  brk : ℕ

/-! ### Virtual memory as the kernel sees it -/

def PF_PRES : U32 := 0x1
def PF_RW : U32 := 0x2
def PF_USER : U32 := 0x4
def PF_MASK : U32 := 0x0E7F

def TMP_SRC : U32 := 0xFF010000
def TMP_MAP : U32 := 0xFF800000
def PGE_MAP : U32 := 0xFFC00000

/-- `page_fmt(base, flags)`. -/
def pageFmt (base flags : U32) : U32 := (base &&& 0xFFFFF000) ||| (flags &&& PF_MASK)

/-- `page_ufmt(page)`. -/
def pageUfmt (page : U32) : U32 := page &&& 0xFFFFF000

/-- The frame number in a directory entry, a table entry or CR3. -/
def frameNo (w : U32) : BitVec 20 := w.extractLsb' 12 20

/-- Translate a virtual address: the frame and the word the processor reaches. -/
def Mem.translate (m : Mem) (va : U32) : Except Stop (BitVec 20 × BitVec 10) :=
  let pde := m.phys (frameNo m.cr3) (va.extractLsb' 22 10)
  if pde &&& PF_PRES = 0 then .error .kernelFault
  else
    let pte := m.phys (frameNo pde) (va.extractLsb' 12 10)
    if pte &&& PF_PRES = 0 then .error .kernelFault
    else .ok (frameNo pte, va.extractLsb' 2 10)

def Mem.read (m : Mem) (va : U32) : Except Stop U32 := do
  let (f, i) ← m.translate va
  return m.phys f i

def Mem.write (m : Mem) (va w : U32) : Except Stop Mem := do
  let (f, i) ← m.translate va
  return { m with phys := Function.update m.phys f (Function.update (m.phys f) i w) }

/-- The address of `cmap[i]`. -/
def cmapAddr (i : U32) : U32 := 0xFFFFF000 + 4 * i

/-- The address of `ctbl[i]`. -/
def ctblAddr (i : U32) : U32 := 0xFFC00000 + 4 * i

/-- `memclr` of one page of words. -/
def clearPage (m : Mem) (va : U32) : Except Stop Mem :=
  (List.range 1024).foldlM (fun m i => m.write (va + 4 * BitVec.ofNat 32 i) 0) m

/-! ### Frames -/

/-- The number of addresses: a walk along links that makes more steps has come
back to a node it visited, and never ends. -/
def addressSpace : ℕ := 2 ^ 32

/-- The loop of `frame_find`. -/
def frameScan (fs : Ptr → FrameStruct) (addr : U32) : ℕ → Option Ptr → Except Stop (Option Ptr)
  | 0, _ => .error .hang
  | _ + 1, none => .ok none
  | n + 1, some list =>
    if (fs list).addr = addr then .ok (some list)
    else frameScan fs addr n (fs list).next

def frameFind (m : Mem) (frame : U32) : Except Stop (Option Ptr) :=
  frameScan m.frameStruct (frame / PAGESZ) addressSpace
    (m.frameHash ((frame / PAGESZ) &&& 0xFF).toNat)

def Mem.setFrame (m : Mem) (p : Ptr) (f : FrameStruct → FrameStruct) : Mem :=
  { m with frameStruct := Function.update m.frameStruct p (f (m.frameStruct p)) }

/-- `fs->prev = v` when `fs` is not `NULL`. -/
def Mem.setPrev (m : Mem) (p : Option Ptr) (v : Option Ptr) : Mem :=
  match p with
  | none => m
  | some q => m.setFrame q fun f => { f with prev := v }

def framePull (m : Mem) (fs : Ptr) : Mem :=
  let f := m.frameStruct fs
  let m := match f.prev with
    | some q => m.setFrame q fun g => { g with next := f.next }
    | none =>
      { m with frameHash := Function.update m.frameHash (f.addr &&& 0xFF).toNat f.next }
  m.setPrev f.next f.prev

def frameFree (m : Mem) (frame : U32) : Except Stop Mem := do
  match ← frameFind m frame with
  | none => return m
  | some fs =>
    if (m.frameStruct fs).refc = 1 then
      let m := framePull m fs
      let m := m.setFrame fs fun f => { f with prev := none, next := m.frameList }
      let m := m.setPrev m.frameList (some fs)
      return { m with frameList := some fs, outOfMemory := false }
    else
      return m.setFrame fs fun f => { f with refc := f.refc - 1 }

def frameRef (m : Mem) (frame : U32) : Except Stop Mem := do
  match ← frameFind m frame with
  | none => return m
  | some fs => return m.setFrame fs fun f => { f with refc := f.refc + 1 }

def frameRefc (m : Mem) (frame : U32) : Except Stop U32 := do
  match ← frameFind m frame with
  | none => return 0
  | some fs => return (m.frameStruct fs).refc

/-- The boot pool branch of `frame_new`. -/
def frameNewOom (m : Mem) : Except Stop (U32 × Mem) :=
  let pool := m.oomPool - PAGESZ
  if pool ≤ m.kend - KERNEL_ADDR_BASE then .error (.panic "out of memory")
  else .ok (pool, { m with oomPool := pool })

def frameNew (m : Mem) : Except Stop (U32 × Mem) :=
  if m.outOfMemory then frameNewOom m
  else match m.frameList with
    | none => frameNewOom { m with outOfMemory := true }
    | some fs =>
      let f := m.frameStruct fs
      let h := (f.addr &&& 0xFF).toNat
      let m := { m with frameList := f.next }
      let m := m.setFrame fs fun g => { g with next := m.frameHash h, prev := none, refc := 1 }
      let m := m.setPrev (m.frameHash h) (some fs)
      .ok (f.addr * PAGESZ, { m with frameHash := Function.update m.frameHash h (some fs) })

/-! ### Pages -/

def pageGet (m : Mem) (page : U32) : Except Stop U32 := do
  if (← m.read (cmapAddr (page >>> 22))) &&& PF_PRES = 0 then return 0
  m.read (ctblAddr (page >>> 12))

def pageTouch (m : Mem) (page : U32) : Except Stop Mem := do
  let page := page &&& 0xFFC00000
  if (← m.read (cmapAddr (page >>> 22))) &&& PF_PRES ≠ 0 then return m
  let (frame, m) ← frameNew m
  let m ← m.write (cmapAddr (page >>> 22)) (frame ||| PF_PRES ||| PF_RW ||| PF_USER)
  clearPage m (ctblAddr (page >>> 12))

def pageSet (m : Mem) (page value : U32) : Except Stop Mem := do
  let m ← if (← m.read (cmapAddr (page >>> 22))) &&& PF_PRES = 0 then pageTouch m page else pure m
  m.write (ctblAddr (page >>> 12)) value

/-- The loop of `mem_alloc`, from page `i` up to `stop`; a 32-bit counter that
has made `2 ^ 20` steps of a page is back where it started. -/
def memAllocLoop (flags stop : U32) : ℕ → U32 → Mem → Except Stop Mem
  | 0, _, _ => .error .hang
  | n + 1, i, m =>
    if i < stop then do
      let m ← if (← pageGet m i) &&& PF_PRES = 0 then do
          let (frame, m) ← frameNew m
          pageSet m i (pageFmt frame ((flags &&& PF_MASK) ||| PF_PRES))
        else pure m
      memAllocLoop flags stop n (i + 0x1000) m
    else .ok m

def memAlloc (m : Mem) (base size flags : U32) : Except Stop Mem :=
  memAllocLoop flags (base + size) (2 ^ 20 + 1) (base &&& 0xFFFFF000) m

/-! ### Paging contexts -/

def spaceExmap (m : Mem) (space : U32) : Except Stop Mem :=
  m.write (cmapAddr (TMP_MAP >>> 22)) (pageFmt space (PF_PRES ||| PF_RW))

def spaceAlloc (m : Mem) : Except Stop (U32 × Mem) := do
  let (space, m) ← frameNew m
  let m ← pageSet m TMP_SRC (pageFmt space (PF_PRES ||| PF_RW))
  let m ← clearPage m TMP_SRC
  let m ← m.write (TMP_SRC + 4 * (PGE_MAP >>> 22)) (pageFmt space (PF_PRES ||| PF_RW))
  return (space, m)

/-- The address of `exmap[i]`. -/
def exmapAddr (i : U32) : U32 := TMP_MAP + 0x3FF000 + 4 * i

/-- The address of `extbl[i]`. -/
def extblAddr (i : U32) : U32 := TMP_MAP + 4 * i

def spaceClone (m : Mem) : Except Stop (U32 × Mem) := do
  let (dest, m) ← spaceAlloc m
  let m ← spaceExmap m dest
  let m ← (List.range' 768 255).foldlM (fun m i => do
    m.write (exmapAddr (BitVec.ofNat 32 i)) (← m.read (cmapAddr (BitVec.ofNat 32 i)))) m
  return (dest, m)

/-- One turn of the inner loop of `space_free`. -/
def spaceFreeEntry (m : Mem) (a : U32) : Except Stop Mem := do
  let e ← m.read a
  let m ← if e &&& PF_PRES ≠ 0 then frameFree m (pageUfmt e) else pure m
  m.write a 0

def spaceFree (m : Mem) (space : U32) : Except Stop Mem := do
  let m ← spaceExmap m space
  let m ← (List.range 768).foldlM (fun m i => do
    let i := BitVec.ofNat 32 i
    if (← m.read (exmapAddr i)) &&& PF_PRES ≠ 0 then
      let m ← (List.range 1024).foldlM
        (fun m j => spaceFreeEntry m (extblAddr (i * 1024 + BitVec.ofNat 32 j))) m
      let m ← frameFree m (pageUfmt (← m.read (exmapAddr i)))
      m.write (exmapAddr i) 0
    else pure m) m
  frameFree m space

def pctxNew (m : Mem) : Except Stop (ℤ × Mem) := do
  let m ← if m.pctxTable 0 = 0 then do
      let (space, m) ← spaceClone m
      pure { m with pctxTable := Function.update m.pctxTable 0 space }
    else pure m
  match (List.range PCTX_COUNT).find? fun i => m.pctxTable i = 0 with
  | some i =>
    let (space, m) ← spaceClone m
    return ((i : ℤ), { m with pctxTable := Function.update m.pctxTable i space })
  | none => return (-1, m)

def pctxFree (m : Mem) (pctx : ℤ) : Except Stop (ℤ × Mem) :=
  if pctx ≤ 0 ∨ (PCTX_COUNT : ℤ) ≤ pctx then .ok (1, m)
  else if m.pctxTable pctx.toNat = 0 then .ok (1, m)
  else do
    let m ← spaceFree m (m.pctxTable pctx.toNat)
    return (0, { m with pctxTable := Function.update m.pctxTable pctx.toNat 0 })

def pctxLoad (m : Mem) (pctx : ℤ) : ℤ × Mem :=
  if pctx ≤ 0 ∨ (PCTX_COUNT : ℤ) ≤ pctx then (1, m)
  else if m.pctxTable pctx.toNat = 0 then (1, m)
  else (0, { m with cr3 := m.pctxTable pctx.toNat, activePctx := pctx })

/-! ### The kernel heap -/

def KERNEL_HEAP : ℕ := 0xF1000000
def KERNEL_HEAP_END : ℕ := 0xF8000000

/-- The search both `heap_alloc` and `heap_free` make: the first bucket whose
blocks hold `size` bytes, 17 when there is none. -/
def heapFindBucket (size : ℕ) : ℕ :=
  ((List.range 16).find? fun i => size ≤ 4 * 2 ^ i).getD 17

def heapValloc (m : Mem) (size : ℕ) : Except Stop (ℕ × Mem) :=
  if KERNEL_HEAP_END ≤ m.brk + size then .error (.panic "out of virtual memory")
  else do
    let (frame, m) ← frameNew m
    let m ← pageSet m (BitVec.ofNat 32 m.brk) (pageFmt frame (PF_PRES ||| PF_RW))
    let m ← memAlloc m (BitVec.ofNat 32 m.brk) (BitVec.ofNat 32 size) (PF_PRES ||| PF_RW)
    return (m.brk, { m with brk := m.brk + size })

def heapFree (m : Mem) (ptr : Ptr) (size : ℕ) : Mem :=
  let bucket := heapFindBucket size
  if 17 < bucket then m
  else
    { m with
      analysis := Function.update m.analysis bucket (m.analysis bucket - 1)
      heapBucket := Function.update m.heapBucket bucket (ptr :: m.heapBucket bucket) }

def slabSize (bucket : ℕ) : ℕ := if bucket ≤ 10 then 4096 else 4 * 2 ^ bucket * 4

/-- One turn of the loop of `heap_new_slab`: the `i`-th piece goes to the
bucket. -/
def slabPiece (slab bucket : ℕ) (m : Mem) (i : ℕ) : Mem :=
  let m := heapFree m (BitVec.ofNat 32 (slab + 4 * (i * 2 ^ bucket))) (4 * 2 ^ bucket)
  { m with analysis := Function.update m.analysis bucket (m.analysis bucket + 1) }

def heapNewSlab (m : Mem) (bucket : ℕ) : Except Stop Mem := do
  let (slab, m) ← heapValloc m (slabSize bucket)
  return (List.range (slabSize bucket / (4 * 2 ^ bucket))).foldl (slabPiece slab bucket) m

def heapAlloc (m : Mem) (size : ℕ) : Except Stop (Option Ptr × Mem) := do
  let bucket := heapFindBucket size
  if 16 < bucket then return (none, m)
  let m ← if m.heapBucket bucket = [] then heapNewSlab m bucket else pure m
  match m.heapBucket bucket with
  | [] => return (none, m)
  | block :: rest =>
    return (some block,
      { m with
        analysis := Function.update m.analysis bucket (m.analysis bucket + 1)
        heapBucket := Function.update m.heapBucket bucket rest })

/-- `frame_add`. -/
def frameAdd (m : Mem) (frame : U32) : Except Stop Mem := do
  match ← heapAlloc m 16 with
  | (none, _) => .error .kernelFault
  | (some fs, m) =>
    let m := m.setFrame fs fun _ => ⟨m.frameList, none, 0, frame / PAGESZ⟩
    let m := m.setPrev m.frameList (some fs)
    return { m with frameList := some fs, outOfMemory := false }

end Pinion
