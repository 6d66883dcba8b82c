/-
Memory functions that always come to an end.

A function that stops with a panic has come to an end; only a loop that never leaves its
counter has not.

* `Halts x` — the computation `x` does not hang, and its rules;
* `memAlloc_halts` — `mem_alloc` of a range below the last page;
* `heapAlloc_halts`, `frameAdd_halts` — the heap and `frame_add`, from any memory.
-/
import Pinion.Paging

open Runs

namespace Pinion

/-- The computation returns or panics. -/
def Halts {α : Type} (x : Except Stop α) : Prop := x ≠ .error .hang

namespace Halts

variable {α β : Type} {x : Except Stop α} {f : α → Except Stop β}

theorem ok (a : α) : Halts (.ok a : Except Stop α) := nofun

theorem panic (s : String) : Halts (.error (.panic s) : Except Stop α) := nofun

theorem bind (hx : Halts x) (hf : ∀ a, x = .ok a → Halts (f a)) : Halts (x >>= f) := by
  cases x with
  | error e =>
    intro h
    cases h
    exact hx rfl
  | ok a => exact hf a rfl

theorem foldlM {ι : Type} {f : α → ι → Except Stop α} (hf : ∀ a i, Halts (f a i)) (l : List ι) :
    ∀ a, Halts (l.foldlM f a) := by
  induction l with
  | nil =>
    intro a
    exact ok a
  | cons i l ih =>
    intro a
    rw [List.foldlM_cons]
    exact bind (hf a i) fun b _ => ih b

end Halts

/-! ### Frames and pages -/

section Pages

variable (m : Mem)

theorem translate_halts (va : U32) : Halts (m.translate va) := by
  unfold Mem.translate
  dsimp only
  split_ifs
  · exact Halts.panic _
  · exact Halts.panic _
  · exact Halts.ok _

theorem read_halts (va : U32) : Halts (m.read va) :=
    (translate_halts m va).bind fun _ _ => Halts.ok _

theorem write_halts (va w : U32) : Halts (m.write va w) :=
  (translate_halts m va).bind fun _ _ => Halts.ok _

theorem clearPage_halts (va : U32) : Halts (clearPage m va) :=
  Halts.foldlM (fun m _ => write_halts m _ _) _ m

theorem frameNewOom_halts : Halts (frameNewOom m) := by
  unfold frameNewOom
  dsimp only
  split_ifs
  · exact Halts.panic _
  · exact Halts.ok _

theorem frameNew_halts : Halts (frameNew m) := by
  unfold frameNew
  split_ifs
  · exact frameNewOom_halts m
  · split
    · exact frameNewOom_halts _
    · exact Halts.ok _

theorem pageGet_halts (page : U32) : Halts (pageGet m page) := by
  refine (read_halts m _).bind fun e _ => ?_
  split_ifs
  · exact Halts.ok _
  · exact read_halts m _

theorem pageTouch_halts (page : U32) : Halts (pageTouch m page) := by
  refine (read_halts m _).bind fun e _ => ?_
  split_ifs
  · exact Halts.ok _
  · refine (frameNew_halts m).bind fun r _ => ?_
    exact (write_halts r.2 _ _).bind fun m _ => clearPage_halts m _

theorem pageSet_halts (page value : U32) : Halts (pageSet m page value) := by
  refine (read_halts m _).bind fun e _ => ?_
  split_ifs
  · exact (pageTouch_halts m _).bind fun m _ => write_halts m _ _
  · exact (Halts.ok m).bind fun m _ => write_halts m _ _

end Pages

/-! ### `mem_alloc` -/

/-- The page the loop of `mem_alloc` starts from. -/
theorem pageBase_toNat (a : U32) : (a &&& 0xFFFFF000).toNat = a.toNat / 4096 * 4096 := by
  have hmask : (a &&& 0xFFFFF000 : U32) = (a >>> 12) <<< 12 := by
    ext i hi
    interval_cases i <;> simp
  have ha := a.isLt
  rw [hmask, BitVec.toNat_shiftLeft, BitVec.toNat_ushiftRight, Nat.shiftRight_eq_div_pow,
    Nat.shiftLeft_eq]
  omega

theorem memAllocLoop_halts {flags stop : U32} (hstop : stop.toNat ≤ 0xFFFFF000) :
    ∀ {n : ℕ} {i : U32} (m : Mem), 4096 ∣ i.toNat → 2 ^ 20 < n + i.toNat / 4096 →
      Halts (memAllocLoop flags stop n i m) := by
  intro n
  induction n with
  | zero =>
    intro i m _ hn
    have hi := i.isLt
    omega
  | succ n ih =>
    intro i m hi hn
    rw [memAllocLoop]
    split_ifs with hlt
    · rw [BitVec.lt_def] at hlt
      -- below the last page the counter does not wrap
      have hnext : (i + 0x1000).toNat = i.toNat + 4096 := by
        rw [BitVec.toNat_add, show (0x1000 : U32).toNat = 4096 from rfl]
        omega
      have hrest := fun m₁ : Mem => @ih (i + 0x1000) m₁ (by omega) (by omega)
      refine (pageGet_halts m i).bind fun e _ => ?_
      split_ifs
      · refine (frameNew_halts m).bind fun r _ => ?_
        exact (pageSet_halts r.2 _ _).bind fun m₁ _ => hrest m₁
      · exact (Halts.ok m).bind fun m₁ _ => hrest m₁
    · exact Halts.ok m

/-- **`mem_alloc`** of a range that ends at or below the last page. -/
theorem memAlloc_halts {base size : U32} (h : base.toNat + size.toNat ≤ 0xFFFFF000) (flags : U32)
    (m : Mem) : Halts (memAlloc m base size flags) := by
  refine memAllocLoop_halts ?_ m ?_ (by omega)
  · rw [BitVec.toNat_add]
    omega
  · rw [pageBase_toNat]
    exact dvd_mul_left 4096 _

/-! ### The heap -/

theorem heapValloc_halts (m : Mem) (size : ℕ) : Halts (heapValloc m size) := by
  unfold heapValloc
  split_ifs with hfull
  · exact Halts.panic _
  · rw [show KERNEL_HEAP_END = 0xF8000000 from rfl] at hfull
    refine (frameNew_halts m).bind fun r hr => ?_
    refine (pageSet_halts r.2 _ _).bind fun m₁ h₁ => ?_
    have hbrk : m₁.brk = m.brk := (pageSet_steps h₁).vars.brk.trans (frameNew_vars hr).brk
    refine (memAlloc_halts ?_ _ m₁).bind fun m₂ _ => Halts.ok _
    rw [hbrk, BitVec.toNat_ofNat, BitVec.toNat_ofNat]
    omega

theorem heapAlloc_halts (m : Mem) (size : ℕ) : Halts (heapAlloc m size) := by
  unfold heapAlloc
  dsimp only
  split_ifs with hbig hempty
  · exact Halts.ok _
  · refine Halts.bind ((heapValloc_halts m _).bind fun r _ => Halts.ok _) fun m₁ _ => ?_
    split
    · exact Halts.ok _
    · exact Halts.ok _
  · refine Halts.bind (Halts.ok m) fun m₁ _ => ?_
    split
    · exact Halts.ok _
    · exact Halts.ok _

/-- **`frame_add`** comes to an end from any memory. -/
theorem frameAdd_halts (m : Mem) (frame : U32) : Halts (frameAdd m frame) := by
  refine (heapAlloc_halts m 16).bind fun r _ => ?_
  split
  · exact Halts.panic _
  · exact Halts.ok _

end Pinion
