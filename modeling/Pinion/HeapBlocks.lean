/-
The blocks of the kernel heap.

`L : Blocks` lists the blocks of each bucket that are in use.  Together with the free
lists they are packed between the start of the heap and the break.

* `HeapInv m L` — the invariant of the allocator;
* `HeapInv.slab` — a new slab adds free blocks above the old break;
* `HeapInv.alloc`, `HeapInv.free` — `heap_alloc` and `heap_free` move one block
  between a free list and `L`;
* `Counted` — `analysis` counts the blocks in use;
* `HeapSteps` — sequences of heap calls, which keep both (`HeapSteps.inv`).
-/
import Pinion.Heap
import Pinion.Packing

open Runs Packing

namespace Pinion

/-- The blocks in use, bucket by bucket. -/
abbrev Blocks := ℕ → List Ptr

/-- The size of the blocks of a bucket. -/
def blockSize (b : ℕ) : ℕ := 4 * 2 ^ b

/-- The free blocks and those in use, with bucket and address. -/
def heapBlocks (m : Mem) (L : Blocks) : Set (ℕ × ℕ) :=
  {x | ∃ p ∈ m.heapBucket x.1 ++ L x.1, p.toNat = x.2}

/-- The invariant of the allocator: the blocks are distinct, packed into the heap below
the break, and aligned. -/
structure HeapInv (m : Mem) (L : Blocks) : Prop where
  base : KERNEL_HEAP ≤ m.brk
  top : m.brk ≤ KERNEL_HEAP_END
  page : 4096 ∣ m.brk
  bound : ∀ b, 16 ≤ b → m.heapBucket b = [] ∧ L b = []
  nodup : ∀ b, (m.heapBucket b ++ L b).Nodup
  packed : Packed blockSize KERNEL_HEAP m.brk (heapBlocks m L)
  aligned : ∀ x ∈ heapBlocks m L, min (blockSize x.1) 4096 ∣ x.2

/-- `analysis` counts the blocks in use. -/
def Counted (m : Mem) (L : Blocks) : Prop := ∀ b < 16, m.analysis b = (L b).length

/-- A block comes into use. -/
def Blocks.push (L : Blocks) (b : ℕ) (p : Ptr) : Blocks := Function.update L b (p :: L b)

/-- A block is given back. -/
def Blocks.drop (L : Blocks) (b : ℕ) (p : Ptr) : Blocks := Function.update L b ((L b).erase p)

theorem mem_push_of_mem {L : Blocks} {b b' : ℕ} {p q : Ptr} (h : q ∈ L b) : q ∈ L.push b' p b := by
  unfold Blocks.push
  by_cases hb : b = b'
  · subst hb
    rw [Function.update_self]
    exact List.mem_cons_of_mem p h
  · rw [Function.update_of_ne hb]
    exact h

theorem mem_push_self {L : Blocks} (b : ℕ) (p : Ptr) : p ∈ L.push b p b := by
  rw [Blocks.push, Function.update_self]
  exact List.mem_cons_self

theorem mem_drop_of_mem {L : Blocks} {b b' : ℕ} {p q : Ptr} (h : q ∈ L b) (hne : b = b' → q ≠ p) :
    q ∈ L.drop b' p b := by
  unfold Blocks.drop
  by_cases hb : b = b'
  · rw [hb, Function.update_self]
    exact (List.mem_erase_of_ne (hne hb)).mpr (hb ▸ h)
  · rw [Function.update_of_ne hb]
    exact h

theorem HeapInv.same {m m' : Mem} {L : Blocks} (h : HeapInv m L) (hs : SameHeap m m') :
    HeapInv m' L := by
  have hblocks : heapBlocks m' L = heapBlocks m L := by rw [heapBlocks, hs.bucket, heapBlocks]
  refine ⟨?_, ?_, ?_, ?_, ?_, ?_, ?_⟩
  · rw [hs.brk]; exact h.base
  · rw [hs.brk]; exact h.top
  · rw [hs.brk]; exact h.page
  · rw [hs.bucket]; exact h.bound
  · rw [hs.bucket]; exact h.nodup
  · rw [hblocks, hs.brk]; exact h.packed
  · rw [hblocks]; exact h.aligned

/-- Blocks that only change places between the lists of a bucket. -/
theorem HeapInv.move {m m' : Mem} {L L' : Blocks} (h : HeapInv m L) (hbrk : m'.brk = m.brk)
    (hperm : ∀ b, (m'.heapBucket b ++ L' b).Perm (m.heapBucket b ++ L b)) : HeapInv m' L' := by
  have hblocks : heapBlocks m' L' = heapBlocks m L := by
    ext x
    simp only [heapBlocks, Set.mem_ofPred_eq, (hperm x.1).mem_iff]
  refine ⟨?_, ?_, ?_, fun b hb => ?_, fun b => (hperm b).nodup_iff.mpr (h.nodup b), ?_, ?_⟩
  · rw [hbrk]; exact h.base
  · rw [hbrk]; exact h.top
  · rw [hbrk]; exact h.page
  · have hnil := (hperm b)
    rw [(h.bound b hb).1, (h.bound b hb).2, List.append_nil] at hnil
    exact List.append_eq_nil_iff.mp hnil.eq_nil
  · rw [hblocks, hbrk]; exact h.packed
  · rw [hblocks]; exact h.aligned

/-! ### New slabs -/

theorem slabSize_eq {b : ℕ} (hb : b < 16) :
    slabSize b / (4 * 2 ^ b) * blockSize b = slabSize b ∧ 4096 ∣ slabSize b := by
  have hall : ∀ b < 16, slabSize b / (4 * 2 ^ b) * blockSize b = slabSize b ∧
      4096 ∣ slabSize b := by decide
  exact hall b hb

theorem pieceAddr_of_lt {slab b i : ℕ} (h : slab + i * blockSize b < 2 ^ 32) :
    (pieceAddr slab b i).toNat = slab + i * blockSize b := by
  have hmul : 4 * (i * 2 ^ b) = i * blockSize b := by
    rw [blockSize]
    ring
  rw [pieceAddr, hmul, BitVec.toNat_ofNat, Nat.mod_eq_of_lt h]

theorem pieceAddr_eq {brk b i : ℕ} (hb : b < 16) (hroom : brk + slabSize b < KERNEL_HEAP_END)
    (hi : i < slabSize b / (4 * 2 ^ b)) :
    (pieceAddr brk b i).toNat = brk + i * blockSize b := by
  have hle : i * blockSize b ≤ slabSize b := by
    rw [← (slabSize_eq hb).1]
    exact Nat.mul_le_mul_right _ hi.le
  have hend : KERNEL_HEAP_END < 2 ^ 32 := by decide
  exact pieceAddr_of_lt (by omega)

/-- The pieces of a slab are aligned, as the break is. -/
theorem piece_aligned {brk b i : ℕ} (hb : b < 16) (hbrk : 4096 ∣ brk) :
    min (blockSize b) 4096 ∣ brk + i * blockSize b := by
  have hall : ∀ b < 16, min (blockSize b) 4096 ∣ 4096 ∧ min (blockSize b) 4096 ∣ blockSize b := by
    decide
  obtain ⟨hpage, hblock⟩ := hall b hb
  exact Nat.dvd_add (hpage.trans hbrk) (hblock.mul_left i)

/-- **A new slab** adds free blocks above the old break. -/
theorem HeapInv.slab {m m' : Mem} {L : Blocks} {b : ℕ} (h : HeapInv m L) (hb : b < 16)
    (hs : heapNewSlab m b = .ok m') : HeapInv m' L ∧ m'.analysis = m.analysis := by
  obtain ⟨hroom, m₁, hsame, rfl⟩ := heapNewSlab_ok hb hs
  set n := slabSize b / (4 * 2 ^ b) with hn
  obtain ⟨hsize, hdvd⟩ := slabSize_eq hb
  have hmem : ∀ p, p ∈ (((List.range n).map (pieceAddr m.brk b)).reverse : List Ptr) ↔
      ∃ i < n, pieceAddr m.brk b i = p := by
    intro p
    rw [List.mem_reverse, List.mem_map]
    simp only [List.mem_range]
  -- the blocks are the old ones and the pieces
  have hblocks : heapBlocks { m₁ with
      brk := m.brk + slabSize b
      heapBucket := Function.update m.heapBucket b
        (((List.range n).map (pieceAddr m.brk b)).reverse ++ m.heapBucket b) } L =
      heapBlocks m L ∪ {x | ∃ i < n, x = piece b blockSize m.brk i} := by
    ext ⟨c, a⟩
    simp only [heapBlocks, Set.mem_ofPred_eq, Set.mem_union]
    by_cases hc : c = b
    · subst hc
      simp only [Function.update_self, List.append_assoc]
      constructor
      · rintro ⟨p, hp, rfl⟩
        rcases List.mem_append.mp hp with hp | hp
        · obtain ⟨i, hi, rfl⟩ := (hmem p).mp hp
          exact Or.inr ⟨i, hi, by rw [piece, pieceAddr_eq hb hroom hi]⟩
        · exact Or.inl ⟨p, hp, rfl⟩
      · rintro (⟨p, hp, rfl⟩ | ⟨i, hi, hx⟩)
        · exact ⟨p, List.mem_append_right _ hp, rfl⟩
        · refine ⟨pieceAddr m.brk c i, List.mem_append_left _ ((hmem _).mpr ⟨i, hi, rfl⟩), ?_⟩
          rw [pieceAddr_eq hb hroom hi]
          exact (congrArg Prod.snd hx).symm
    · simp only [Function.update_of_ne hc]
      constructor
      · exact Or.inl
      · rintro (hx | ⟨i, -, hx⟩)
        · exact hx
        · exact absurd (congrArg Prod.fst hx) hc
  refine ⟨⟨?_, hroom.le, ?_, fun c hc => ?_, fun c => ?_, ?_, ?_⟩, hsame.analysis⟩
  · exact h.base.trans (Nat.le_add_right _ _)
  · exact Nat.dvd_add h.page hdvd
  · have hcb : c ≠ b := by omega
    simp only [Function.update_of_ne hcb]
    exact h.bound c hc
  · by_cases hc : c = b
    · subst hc
      simp only [Function.update_self, List.append_assoc]
      refine List.nodup_append.mpr ⟨?_, h.nodup c, fun p hp q hq hpq => ?_⟩
      · rw [List.nodup_reverse]
        refine List.Nodup.map_on (fun i hi j hj hij => ?_) List.nodup_range
        have hi' := pieceAddr_eq hb hroom (List.mem_range.mp hi)
        have hj' := pieceAddr_eq hb hroom (List.mem_range.mp hj)
        rw [hij] at hi'
        have hpos : 0 < blockSize c := by simp [blockSize]
        exact Nat.eq_of_mul_eq_mul_right hpos (by omega)
      · -- the pieces lie above the old break
        obtain ⟨i, hi, rfl⟩ := (hmem p).mp hp
        have hin := (h.packed.inside (c, q.toNat) ⟨q, hq, rfl⟩).2
        have hpos : 0 < blockSize c := by simp [blockSize]
        rw [← hpq, pieceAddr_eq hb hroom hi] at hin
        dsimp only at hin
        omega
    · simp only [Function.update_of_ne hc]
      exact h.nodup c
  · rw [hblocks]
    have hpieces := h.packed.pieces h.base b n
    rw [hsize] at hpieces
    exact hpieces
  · rw [hblocks]
    rintro x (hx | ⟨i, -, rfl⟩)
    · exact h.aligned x hx
    · exact piece_aligned hb h.page

/-! ### `heap_alloc` and `heap_free` -/

theorem heapFindBucket_large {size : ℕ} (h : ¬heapFindBucket size < 16) :
    heapFindBucket size = 17 := by
  unfold heapFindBucket at h ⊢
  cases hf : (List.range 16).find? fun i => decide (size ≤ 4 * 2 ^ i) with
  | none => rfl
  | some b =>
    rw [hf] at h
    have hb := List.mem_range.mp (List.mem_of_find?_eq_some hf)
    exact absurd hb h

/-- **`heap_alloc`** takes a free block into use, or refuses a size above the largest
bucket. -/
theorem HeapInv.alloc {m m' : Mem} {L : Blocks} {size : ℕ} {o : Option Ptr} (h : HeapInv m L)
    (ha : heapAlloc m size = .ok (o, m')) :
    (¬heapFindBucket size < 16 ∧ o = none ∧ m' = m) ∨
    ∃ p, heapFindBucket size < 16 ∧ o = some p ∧ p ∉ L (heapFindBucket size) ∧
      HeapInv m' (L.push (heapFindBucket size) p) ∧
      m'.analysis = Function.update m.analysis (heapFindBucket size)
        (m.analysis (heapFindBucket size) + 1) := by
  by_cases hb : heapFindBucket size < 16
  · right
    obtain ⟨m₁, p, rest, hslab, rfl, hfree, rfl⟩ := heapAlloc_cases hb ha
    have h₁ : HeapInv m₁ L ∧ m₁.analysis = m.analysis := by
      rcases hslab with rfl | ⟨-, hs⟩
      · exact ⟨h, rfl⟩
      · exact h.slab hb hs
    set b := heapFindBucket size with hbdef
    refine ⟨p, hb, rfl, fun hp => ?_, h₁.1.move rfl fun c => ?_, ?_⟩
    · have hnodup := h₁.1.nodup b
      rw [hfree, List.cons_append] at hnodup
      exact (List.nodup_cons.mp hnodup).1 (List.mem_append_right _ hp)
    · by_cases hc : c = b
      · subst hc
        simp only [Blocks.push, Function.update_self, hfree]
        exact List.perm_middle
      · simp only [Blocks.push, Function.update_of_ne hc]
        exact List.Perm.refl _
    · simp only [h₁.2]
  · left
    have hlarge := heapFindBucket_large hb
    refine ⟨hb, ?_⟩
    simp only [heapAlloc, hlarge, show (16 : ℕ) < 17 by omega, if_true] at ha
    cases ha
    exact ⟨rfl, rfl⟩

/-- The break only moves up. -/
theorem heapAlloc_brk {m m' : Mem} {size : ℕ} {o : Option Ptr}
    (ha : heapAlloc m size = .ok (o, m')) :
    m.brk ≤ m'.brk := by
  by_cases hb : heapFindBucket size < 16
  · obtain ⟨m₁, p, rest, hslab, -, -, rfl⟩ := heapAlloc_cases hb ha
    rcases hslab with rfl | ⟨-, hs⟩
    · exact le_rfl
    · obtain ⟨-, m₂, -, rfl⟩ := heapNewSlab_ok hb hs
      exact Nat.le_add_right _ _
  · simp only [heapAlloc, heapFindBucket_large hb, show (16 : ℕ) < 17 by omega, if_true] at ha
    cases ha
    exact le_rfl

/-- Fewer blocks in use. -/
theorem HeapInv.fewer {m : Mem} {L L' : Blocks} (h : HeapInv m L)
    (hL : ∀ b, (L' b).Sublist (L b)) : HeapInv m L' := by
  have hsub : heapBlocks m L' ⊆ heapBlocks m L := by
    rintro x ⟨p, hp, hx⟩
    exact ⟨p, ((List.Sublist.refl _).append (hL x.1)).subset hp, hx⟩
  refine ⟨h.base, h.top, h.page, fun b hb => ⟨(h.bound b hb).1, ?_⟩, fun b => ?_,
    h.packed.mono hsub, fun x hx => h.aligned x (hsub hx)⟩
  · have hnil := hL b
    rw [(h.bound b hb).2] at hnil
    exact List.sublist_nil.mp hnil
  · exact (h.nodup b).sublist ((List.Sublist.refl _).append (hL b))

/-- **`heap_free`** of a block in use gives it back. -/
theorem HeapInv.free {m : Mem} {L : Blocks} {size : ℕ} {p : Ptr} (h : HeapInv m L)
    (hb : heapFindBucket size < 16) (hp : p ∈ L (heapFindBucket size)) :
    HeapInv (heapFree m p size) (L.drop (heapFindBucket size) p) := by
  set b := heapFindBucket size with hbdef
  have hm : heapFree m p size = { m with
      analysis := Function.update m.analysis b (m.analysis b - 1)
      heapBucket := Function.update m.heapBucket b (p :: m.heapBucket b) } := by
    simp only [heapFree, ← hbdef, show ¬17 < b by omega, if_false]
  rw [hm]
  refine h.move rfl fun c => ?_
  by_cases hc : c = b
  · subst hc
    simp only [Blocks.drop, Function.update_self, List.cons_append]
    exact List.perm_middle.symm.trans (List.Perm.append_left _ (List.perm_cons_erase hp).symm)
  · simp only [Blocks.drop, Function.update_of_ne hc]
    exact List.Perm.refl _

/-! ### Counting -/

theorem Counted.same {m m' : Mem} {L : Blocks} (h : Counted m L) (hs : SameHeap m m') :
    Counted m' L := by
  intro b hb
  rw [hs.analysis]
  exact h b hb

theorem Counted.alloc {m m' : Mem} {L : Blocks} {b : ℕ} {p : Ptr} (h : Counted m L)
    (ha : m'.analysis = Function.update m.analysis b (m.analysis b + 1)) :
    Counted m' (L.push b p) := by
  intro c hc
  rw [ha]
  by_cases hcb : c = b
  · subst hcb
    simp only [Blocks.push, Function.update_self, List.length_cons, h c hc]
    push_cast
    rfl
  · simp only [Blocks.push, Function.update_of_ne hcb]
    exact h c hc

theorem Counted.free {m : Mem} {L : Blocks} {size : ℕ} {p : Ptr} (h : Counted m L)
    (hb : heapFindBucket size < 16) (hp : p ∈ L (heapFindBucket size)) :
    Counted (heapFree m p size) (L.drop (heapFindBucket size) p) := by
  set b := heapFindBucket size with hbdef
  intro c hc
  simp only [heapFree, ← hbdef, show ¬17 < b by omega, if_false]
  by_cases hcb : c = b
  · have hpos : 0 < (L b).length := List.length_pos_of_mem hp
    simp only [hcb, Blocks.drop, Function.update_self, List.length_erase_of_mem hp, h b hb]
    omega
  · simp only [Blocks.drop, Function.update_of_ne hcb]
    exact h c hc

/-! ### Runs of the allocator -/

/-- How memory and the blocks in use move: by calls of the heap, a block being freed with
the size it was allocated with, and by steps outside the heap. -/
inductive HeapSteps (m : Mem) (L : Blocks) : Mem → Blocks → Prop
  | refl : HeapSteps m L m L
  | same {m₁ m₂ : Mem} {L₁ : Blocks} : HeapSteps m L m₁ L₁ → SameHeap m₁ m₂ →
      HeapSteps m L m₂ L₁
  | alloc {m₁ m₂ : Mem} {L₁ : Blocks} {size : ℕ} {p : Ptr} : HeapSteps m L m₁ L₁ →
      heapAlloc m₁ size = .ok (some p, m₂) → HeapSteps m L m₂ (L₁.push (heapFindBucket size) p)
  | free {m₁ : Mem} {L₁ : Blocks} {size : ℕ} {p : Ptr} : HeapSteps m L m₁ L₁ →
      heapFindBucket size < 16 → p ∈ L₁ (heapFindBucket size) →
      HeapSteps m L (heapFree m₁ p size) (L₁.drop (heapFindBucket size) p)

theorem HeapSteps.trans {m m₁ m₂ : Mem} {L L₁ L₂ : Blocks} (h : HeapSteps m L m₁ L₁)
    (h' : HeapSteps m₁ L₁ m₂ L₂) : HeapSteps m L m₂ L₂ := by
  induction h' with
  | refl => exact h
  | same _ hs ih => exact ih.same hs
  | alloc _ ha ih => exact ih.alloc ha
  | free _ hb hp ih => exact ih.free hb hp

/-- **Every sequence of heap calls keeps the invariant and the count.** -/
theorem HeapSteps.inv {m m' : Mem} {L L' : Blocks} (h : HeapSteps m L m' L') (hm : HeapInv m L)
    (hc : Counted m L) : HeapInv m' L' ∧ Counted m' L' := by
  induction h with
  | refl => exact ⟨hm, hc⟩
  | same _ hs ih => exact ⟨ih.1.same hs, ih.2.same hs⟩
  | alloc _ ha ih =>
    rcases ih.1.alloc ha with ⟨-, hnone, -⟩ | ⟨p, -, hp, -, hinv, hcount⟩
    · cases hnone
    · obtain rfl := Option.some.inj hp
      exact ⟨hinv, ih.2.alloc hcount⟩
  | free _ hb hp ih => exact ⟨ih.1.free hb hp, ih.2.free hb hp⟩

/-- Allocating a block whose bucket is known. -/
theorem HeapInv.allocated {m m' : Mem} {L : Blocks} {size b : ℕ} {o : Option Ptr} (h : HeapInv m L)
    (hsize : heapFindBucket size = b) (hb : b < 16) (ha : heapAlloc m size = .ok (o, m')) :
    ∃ p, o = some p ∧ p ∉ L b ∧ HeapInv m' (L.push b p) ∧ HeapSteps m L m' (L.push b p) := by
  subst hsize
  rcases h.alloc ha with ⟨hlarge, -⟩ | ⟨p, -, rfl, hnew, hinv, -⟩
  · exact absurd hb hlarge
  · exact ⟨p, rfl, hnew, hinv, HeapSteps.refl.alloc ha⟩

/-! ### Memory at boot -/

theorem HeapInv.start {m : Mem} (hbrk : m.brk = KERNEL_HEAP) (hnil : ∀ b, m.heapBucket b = []) :
    HeapInv m fun _ => [] := by
  have hblocks : heapBlocks m (fun _ => []) = ∅ := by
    ext x
    simp [heapBlocks, hnil]
  refine ⟨hbrk.ge, hbrk ▸ (by decide), hbrk ▸ (by decide), fun b _ => ⟨hnil b, rfl⟩, fun b => ?_,
    hblocks ▸ Packed.empty _ _, hblocks ▸ fun x hx => absurd hx (Set.notMem_empty x)⟩
  rw [hnil]
  exact List.nodup_nil

/-- `frame_add` takes one block for the frame structure. -/
theorem frameAdd_ok {m m' : Mem} {f : U32} (h : frameAdd m f = .ok m') :
    ∃ fs m₁, heapAlloc m 16 = .ok (some fs, m₁) ∧ SameHeap m₁ m' := by
  obtain ⟨⟨o, m₁⟩, h₁, h⟩ := bind_eq_ok.mp h
  cases o with
  | none => cases h
  | some fs =>
    cases h
    refine ⟨fs, m₁, h₁, ?_⟩
    have hset := (setPrev_vars (m₁.setFrame fs fun _ => ⟨m₁.frameList, none, 0, f / PAGESZ⟩)
      (m₁.setFrame fs fun _ => ⟨m₁.frameList, none, 0, f / PAGESZ⟩).frameList (some fs)).heap
    exact ⟨hset.bucket, hset.brk, hset.analysis⟩

/-- A memory at boot: the frame structures are the only blocks in use. -/
theorem BootMem.heapInv {m : Mem} (h : BootMem m) : ∃ L, HeapInv m L := by
  induction h with
  | empty hbrk hnil => exact ⟨_, HeapInv.start hbrk hnil⟩
  | frame _ hadd ih =>
    obtain ⟨L, hL⟩ := ih
    obtain ⟨fs, m₁, halloc, hsame⟩ := frameAdd_ok hadd
    obtain ⟨p, -, -, hinv, -⟩ :=
      hL.allocated (show heapFindBucket 16 = 2 by decide) (by decide) halloc
    exact ⟨_, hinv.same hsame⟩
  | load _ hload ih =>
    obtain ⟨L, hL⟩ := ih
    exact ⟨L, hL.same (memAlloc_steps hload).vars.heap⟩

end Pinion
