/-
Format strings, read up to their terminator.

A directive is a marker and the character behind it, whatever that is: also the terminator, in which
case the format goes on behind its end.

* `Piece`, `pieces` — the characters and the directives of a format;
* `longest`, `longest_lt_iff` — how many characters stand between two directives;
* `trailing`, `pieces_isSome_iff` — the formats that are read up to the terminator.
-/
import Mathlib

namespace Formats

variable {α : Type}

inductive Piece (α : Type)
  | text (x : α)
  | directive (y : α)
  deriving DecidableEq

/-! ### Characters in a row -/

/-- The greatest number of characters between two directives, with `k` of them in front. -/
def longest : ℕ → List (Piece α) → ℕ
  | k, [] => k
  | k, .text _ :: ps => longest (k + 1) ps
  | k, .directive _ :: ps => max k (longest 0 ps)

theorem le_longest (ps : List (Piece α)) : ∀ k, k ≤ longest k ps := by
  induction ps with
  | nil => exact le_refl
  | cons p ps ih =>
    intro k
    cases p with
    | text x => exact (Nat.le_succ k).trans (ih (k + 1))
    | directive y => exact le_max_left _ _

/-- Characters only. -/
def Plain (l : List (Piece α)) : Prop := ∀ p ∈ l, ∃ x, p = .text x

theorem longest_from_lt_iff {n : ℕ} (ps : List (Piece α)) : ∀ k,
    longest k ps < n ↔ (∀ l, l <+: ps → Plain l → k + l.length < n) ∧
      ∀ l, l <:+: ps → Plain l → l.length < n := by
  have hnil : Plain ([] : List (Piece α)) := fun p hp => absurd hp List.not_mem_nil
  induction ps with
  | nil =>
    intro k
    simp only [List.prefix_nil, List.infix_nil, longest]
    constructor
    · intro hk
      exact ⟨by rintro l rfl _; exact hk, by rintro l rfl _; exact (Nat.zero_le k).trans_lt hk⟩
    · exact fun h => h.1 [] rfl hnil
  | cons p ps ih =>
    intro k
    cases p with
    | text x =>
      rw [longest, ih (k + 1)]
      constructor
      · rintro ⟨hpre, hinf⟩
        have hpre' : ∀ l, l <+: .text x :: ps → Plain l → k + l.length < n := by
          intro l hl hplain
          rcases List.prefix_cons_iff.mp hl with rfl | ⟨t, rfl, ht⟩
          · have hk := hpre [] List.nil_prefix hnil
            rw [List.length_nil] at hk ⊢
            omega
          · have ht' := hpre t ht fun p hp => hplain p (List.mem_cons_of_mem _ hp)
            rw [List.length_cons]
            omega
        refine ⟨hpre', fun l hl hplain => ?_⟩
        rcases List.infix_cons_iff.mp hl with hl | hl
        · exact (Nat.le_add_left _ k).trans_lt (hpre' l hl hplain)
        · exact hinf l hl hplain
      · rintro ⟨hpre, hinf⟩
        refine ⟨fun l hl hplain => ?_, fun l hl hplain => hinf l (List.infix_cons hl) hplain⟩
        have hcons : Plain (.text x :: l) := by
          intro p hp
          rcases List.mem_cons.mp hp with rfl | hp
          · exact ⟨x, rfl⟩
          · exact hplain p hp
        have hlt := hpre (.text x :: l) (List.prefix_cons_inj _ |>.mpr hl) hcons
        rw [List.length_cons] at hlt
        omega
    | directive y =>
      rw [longest, max_lt_iff, ih 0]
      constructor
      · rintro ⟨hk, -, hinf⟩
        -- no characters in a row begin with a directive
        have hpre : ∀ l, l <+: .directive y :: ps → Plain l → l = [] := by
          intro l hl hplain
          rcases List.prefix_cons_iff.mp hl with rfl | ⟨t, rfl, -⟩
          · rfl
          · obtain ⟨x, hx⟩ := hplain _ List.mem_cons_self
            cases hx
        refine ⟨fun l hl hplain => ?_, fun l hl hplain => ?_⟩
        · rw [hpre l hl hplain]
          exact hk
        · rcases List.infix_cons_iff.mp hl with hl | hl
          · rw [hpre l hl hplain]
            exact (Nat.zero_le k).trans_lt hk
          · exact hinf l hl hplain
      · rintro ⟨hpre, hinf⟩
        refine ⟨hpre [] List.nil_prefix hnil, fun l hl hplain => ?_, fun l hl hplain =>
          hinf l (List.infix_cons hl) hplain⟩
        rw [Nat.zero_add]
        exact hinf l (List.infix_cons hl.isInfix) hplain

theorem longest_lt_iff {n : ℕ} (ps : List (Piece α)) :
    longest 0 ps < n ↔ ∀ l, l <:+: ps → Plain l → l.length < n := by
  rw [longest_from_lt_iff ps 0]
  refine ⟨fun h => h.2, fun h => ⟨fun l hl hplain => ?_, h⟩⟩
  rw [Nat.zero_add]
  exact h l hl.isInfix hplain

/-! ### Reading a format -/

variable [DecidableEq α] (nul pct : α)

/-- The pieces of a format, with the terminator `nul` and the marker `pct`; `none` if the array ends
first. -/
def pieces : List α → Option (List (Piece α))
  | [] => none
  | [x] => if x = nul then some [] else none
  | x :: y :: fmt =>
    if x = nul then some []
    else if x = pct then (pieces fmt).map (.directive y :: ·)
    else (pieces (y :: fmt)).map (.text x :: ·)

/-- The number of markers at the end. -/
def trailing (s : List α) : ℕ := (s.reverse.takeWhile (· = pct)).length

theorem trailing_cons (x : α) (s : List α) :
    trailing pct (x :: s) =
      if trailing pct s = s.length then s.length + (if x = pct then 1 else 0)
      else trailing pct s := by
  unfold trailing
  rw [List.reverse_cons, List.takeWhile_append, List.length_reverse]
  split
  · rw [List.length_append, List.length_reverse, List.takeWhile_cons]
    by_cases hx : x = pct
    · rw [if_pos hx, if_pos (by simpa using hx)]
      rfl
    · rw [if_neg hx, if_neg (by simpa using hx)]
      rfl
  · rfl

theorem trailing_le (s : List α) : trailing pct s ≤ s.length :=
  (List.takeWhile_sublist _).length_le.trans_eq List.length_reverse

/-- **When a format is read up to its terminator**: the markers at its end are pairs. -/
theorem pieces_isSome_iff {s : List α} (hs : nul ∉ s) :
    (pieces nul pct (s ++ [nul])).isSome ↔ Even (trailing pct s) := by
  induction hn : s.length using Nat.strong_induction_on generalizing s with
  | _ n ih =>
    subst hn
    match s with
    | [] =>
      rw [List.nil_append, pieces, if_pos rfl]
      exact ⟨fun _ => Even.zero, fun _ => rfl⟩
    | [x] =>
      have hx : x ≠ nul := fun h => hs (by rw [h]; exact List.mem_singleton_self nul)
      rw [List.singleton_append, pieces, if_neg hx, trailing_cons]
      by_cases hp : x = pct
      · rw [if_pos hp, if_pos hp]
        exact ⟨fun h => (nomatch h), fun h => absurd (show Even 1 from h) (by decide)⟩
      · rw [if_neg hp, if_neg hp, pieces, if_pos rfl]
        exact ⟨fun _ => Even.zero, fun _ => rfl⟩
    | x :: y :: s =>
      rw [List.mem_cons, List.mem_cons, not_or, not_or] at hs
      obtain ⟨hx, hy, hs⟩ := hs
      rw [List.cons_append, List.cons_append, pieces, if_neg (Ne.symm hx)]
      by_cases hp : x = pct
      · -- the directive takes two characters, both or none of them from the markers at the end
        have hle := trailing_le pct s
        rw [if_pos hp, Option.isSome_map, ih s.length (by simp) hs rfl, trailing_cons, trailing_cons,
          if_pos hp, Nat.even_iff, Nat.even_iff]
        simp only [List.length_cons]
        split_ifs <;> omega
      · have hrest := ih (y :: s).length (by simp) (s := y :: s)
          (by rw [List.mem_cons, not_or]; exact ⟨hy, hs⟩) rfl
        rw [if_neg hp, Option.isSome_map, show y :: (s ++ [nul]) = (y :: s) ++ [nul] from rfl, hrest,
          trailing_cons pct x, if_neg hp]
        split
        · rename_i hall
          rw [hall]
          rfl
        · rfl

end Formats
