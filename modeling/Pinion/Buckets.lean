/-
The buckets of the kernel heap.

`heap_alloc` and `heap_free` search the bucket of a size with the same loop and the same
value for a size no bucket holds, and then test that value against different bounds.

* `LeastBucket` — the least bucket whose blocks hold a size, which the loop finds;
* `Takes`, `Puts` — what the two calls do with a bucket;
* `SlabCut` — what `heap_new_slab` does with its slab;
* `SizeHandled` — both calls use the least bucket, or refuse the size;
* `heap_buckets_iff` — they do, up to the size of the largest blocks.
-/
import Pinion.HeapBlocks

open Runs

namespace Pinion

/-- Bucket `n` is the least one whose blocks hold `size` bytes. -/
def LeastBucket (size n : ℕ) : Prop := n < 16 ∧ size ≤ blockSize n ∧ ∀ k < n, blockSize k < size

/-- The loop stops at the least bucket. -/
theorem leastBucket_iff {size n : ℕ} :
    LeastBucket size n ↔ n < 16 ∧ heapFindBucket size = n := by
  have hsearch : ∀ b, (List.range 16).find? (fun i => decide (size ≤ 4 * 2 ^ i)) = some b ↔
      LeastBucket size b := by
    intro b
    rw [List.find?_range_eq_some]
    simp only [decide_eq_true_eq, Bool.not_eq_true', decide_eq_false_iff_not, not_le,
      List.mem_range, LeastBucket, blockSize]
    tauto
  rw [← hsearch, heapFindBucket]
  constructor
  · intro h
    have hn := ((hsearch n).mp h).1
    rw [h]
    exact ⟨hn, rfl⟩
  · rintro ⟨hn, h⟩
    cases hf : (List.range 16).find? fun i => decide (size ≤ 4 * 2 ^ i) with
    | none =>
      rw [hf] at h
      simp only [Option.getD_none] at h
      omega
    | some b =>
      rw [hf] at h
      rw [← h]
      rfl

/-- A size has a bucket exactly up to the size of the largest blocks. -/
theorem exists_leastBucket {size : ℕ} : (∃ n, LeastBucket size n) ↔ size ≤ blockSize 15 := by
  constructor
  · rintro ⟨n, hn, hle, -⟩
    exact hle.trans (Nat.mul_le_mul_left 4 (Nat.pow_le_pow_right (by omega) (by omega)))
  · intro hle
    have hex : ∃ n, size ≤ blockSize n := ⟨15, hle⟩
    exact ⟨Nat.find hex, (Nat.find_min' hex hle).trans_lt (by decide), Nat.find_spec hex,
      fun k hk => not_le.mp (Nat.find_min hex hk)⟩

/-! ### The calls -/

/-- Block `p` is taken from bucket `n`, after a new slab if the bucket was empty. -/
def Takes (m m' : Mem) (n : ℕ) (p : Ptr) : Prop :=
  ∃ m₁ rest, (m₁ = m ∨ m.heapBucket n = [] ∧ heapNewSlab m n = .ok m₁) ∧
    m₁.heapBucket n = p :: rest ∧
    m' = { m₁ with
      analysis := Function.update m₁.analysis n (m₁.analysis n + 1)
      heapBucket := Function.update m₁.heapBucket n rest }

/-- Block `p` is put into bucket `n`. -/
def Puts (m m' : Mem) (n : ℕ) (p : Ptr) : Prop :=
  m' = { m with
    analysis := Function.update m.analysis n (m.analysis n - 1)
    heapBucket := Function.update m.heapBucket n (p :: m.heapBucket n) }

/-- A slab is cut into pieces, which go to bucket `n` and cover it once. -/
structure SlabCut (m m' : Mem) (n : ℕ) : Prop where
  pieces : m'.heapBucket n =
    ((List.range (slabSize n / blockSize n)).map (pieceAddr m.brk n)).reverse ++ m.heapBucket n
  others : ∀ b, b ≠ n → m'.heapBucket b = m.heapBucket b
  counts : m'.analysis = m.analysis
  inside : ∀ i < slabSize n / blockSize n, m.brk ≤ (pieceAddr m.brk n i).toNat ∧
    (pieceAddr m.brk n i).toNat + blockSize n ≤ m.brk + slabSize n
  covers : ∀ a, m.brk ≤ a → a < m.brk + slabSize n → ∃! i, i < slabSize n / blockSize n ∧
    (pieceAddr m.brk n i).toNat ≤ a ∧ a < (pieceAddr m.brk n i).toNat + blockSize n

/-- Both calls use the least bucket of the size, or refuse it and change nothing. -/
structure SizeHandled (size : ℕ) : Prop where
  held : ∀ n, LeastBucket size n → ∀ m,
    (∀ o m', heapAlloc m size = .ok (o, m') → ∃ p, o = some p ∧ Takes m m' n p) ∧
      ∀ p, Puts m (heapFree m p size) n p
  refused : (¬∃ n, LeastBucket size n) → ∀ m,
    heapAlloc m size = .ok (none, m) ∧ ∀ p, heapFree m p size = m

theorem blockSize_pos (n : ℕ) : 0 < blockSize n := by
  rw [blockSize]
  positivity

/-- **`heap_new_slab`** cuts its slab without gaps. -/
theorem slab_cut {m m' : Mem} {n : ℕ} (hn : n < 16) (h : heapNewSlab m n = .ok m') :
    SlabCut m m' n := by
  obtain ⟨hroom, m₁, hvars, rfl⟩ := heapNewSlab_ok hn h
  have hsize : slabSize n / blockSize n * blockSize n = slabSize n := (slabSize_eq hn).1
  have hpos := blockSize_pos n
  have haddr : ∀ i < slabSize n / blockSize n,
      (pieceAddr m.brk n i).toNat = m.brk + i * blockSize n :=
    fun i hi => pieceAddr_eq hn hroom hi
  refine ⟨?_, fun b hb => ?_, hvars.analysis, fun i hi => ?_, fun a hlo hhi => ?_⟩
  · simp only [Function.update_self]
    rfl
  · simp only [Function.update_of_ne hb]
  · rw [haddr i hi]
    have hle := Nat.mul_le_mul_right (blockSize n) (Nat.succ_le_of_lt hi)
    rw [hsize, Nat.succ_mul] at hle
    omega
  · -- the piece of an address is found by division
    have hdiv := Nat.div_add_mod (a - m.brk) (blockSize n)
    have hmod := Nat.mod_lt (a - m.brk) hpos
    rw [Nat.mul_comm] at hdiv
    have hi : (a - m.brk) / blockSize n < slabSize n / blockSize n := by
      rw [Nat.div_lt_iff_lt_mul hpos, hsize]
      omega
    refine ⟨(a - m.brk) / blockSize n, ⟨hi, ?_, ?_⟩, ?_⟩
    · rw [haddr _ hi]
      omega
    · rw [haddr _ hi]
      omega
    · rintro j ⟨hj, hjlo, hjhi⟩
      rw [haddr j hj] at hjlo hjhi
      refine ((Nat.div_eq_iff hpos).mpr ?_).symm
      constructor
      · omega
      · omega

/-- `heap_alloc` and `heap_free` on a size that has a bucket. -/
theorem bucket_held {size n : ℕ} (hleast : LeastBucket size n) (m : Mem) :
    (∀ o m', heapAlloc m size = .ok (o, m') → ∃ p, o = some p ∧ Takes m m' n p) ∧
      ∀ p, Puts m (heapFree m p size) n p := by
  obtain ⟨hn, rfl⟩ := leastBucket_iff.mp hleast
  refine ⟨fun o m' h => ?_, fun p => ?_⟩
  · obtain ⟨m₁, p, rest, hslab, ho, hlist, hm'⟩ := heapAlloc_cases hn h
    exact ⟨p, ho, m₁, rest, hslab, hlist, hm'⟩
  · rw [Puts, heapFree, if_neg (by omega)]

/-- **The two calls agree** on every size up to that of the largest blocks.  Above it
`heap_free` takes the value for no bucket, 17, as an index. -/
theorem heap_buckets_iff (size : U32) :
    (∀ n < 16, ∀ m m', heapNewSlab m n = .ok m' → SlabCut m m' n) ∧
      (SizeHandled size.toNat ↔ size.toNat ≤ blockSize 15) := by
  refine ⟨fun n hn m m' h => slab_cut hn h, fun h => ?_, fun hle => ?_⟩
  · by_contra hgt
    have hnone : ¬∃ n, LeastBucket size.toNat n := fun hex => hgt (exists_leastBucket.mp hex)
    have hbucket : heapFindBucket size.toNat = 17 :=
      heapFindBucket_large fun hb => hnone ⟨_, leastBucket_iff.mpr ⟨hb, rfl⟩⟩
    have hfree := congrArg Mem.analysis ((h.refused hnone flatMem).2 0)
    rw [heapFree, hbucket, if_neg (by omega)] at hfree
    have hcount := congrFun hfree 17
    simp only [Function.update_self] at hcount
    omega
  · exact ⟨fun n hn m => bucket_held hn m, fun hnone =>
      absurd (exists_leastBucket.mpr hle) hnone⟩

/-- The frame structures of the allocator, and the first size no bucket holds. -/
theorem heap_buckets_frame : SizeHandled 16 ∧ ¬SizeHandled 131073 := by
  have hframe := (heap_buckets_iff 16).2.mpr (by decide)
  have hlarge := (heap_buckets_iff 131073).2.not.mpr (by decide)
  exact ⟨hframe, hlarge⟩

/-- Freeing a block of 131073 bytes writes behind both arrays. -/
theorem heap_buckets_fails : ¬SizeHandled 131073 ∧
    heapAlloc flatMem 131073 = .ok (none, flatMem) ∧
    (heapFree flatMem 0 131073).analysis 17 = -1 ∧
    (heapFree flatMem 0 131073).heapBucket 17 = [0] := by
  have hcount : (heapFree flatMem 0 131073).analysis 17 = -1 := by decide
  refine ⟨fun h => ?_, rfl, hcount, by decide⟩
  have hnone : ¬∃ n, LeastBucket 131073 n := by
    rw [exists_leastBucket]
    decide
  have hfree := (h.refused hnone flatMem).2 0
  rw [hfree] at hcount
  exact absurd hcount (by decide)

end Pinion
