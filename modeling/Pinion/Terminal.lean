/-
A screen that scrolls, as a window onto paper that does not end.

What is typed goes on a roll of paper, lines of `w` cells below one another, and a screen of `h`
lines shows the last lines of it.  A screen that moves its lines up when the cursor leaves it shows
just that, whatever is typed: the lines that left are on the paper still, and where the cursor is
follows from the paper alone.

* `Paper`, `Mark`, `Paper.put` — the roll, and what is typed;
* `Screen`, `Screen.put`, `Screen.scroll` — the screen;
* `shiftCells` — the loop that moves the lines up;
* `Shows` — the screen shows the end of the roll;
* `Shows.put` — one step.
-/
import Mathlib

namespace Terminal

variable {α : Type}

/-! ### The roll -/

structure Paper (α : Type) where
  cell : ℕ → α
  pos : ℕ

/-- What is typed. -/
inductive Mark (α : Type)
  | glyph (a : α)
  | newline
  | tab

/-- The next position, with lines of `w` cells and a tabulator every `t`. -/
def Mark.advance (w t pos : ℕ) : Mark α → ℕ
  | .glyph _ => pos + 1
  | .newline => pos - pos % w + w
  | .tab => pos - pos % t + t

/-- The cells, with a glyph at `pos`. -/
def Mark.write (cell : ℕ → α) (pos : ℕ) : Mark α → ℕ → α
  | .glyph a => Function.update cell pos a
  | _ => cell

def Paper.put (w t : ℕ) (p : Paper α) (m : Mark α) : Paper α :=
  ⟨m.write p.cell p.pos, m.advance w t p.pos⟩

/-- A roll whose first `n` cells are `first`, and the others `blank`. -/
def Paper.fresh (n : ℕ) (first blank : α) : Paper α := ⟨fun i => if i < n then first else blank, 0⟩

/-- The cells below the position were not typed on. -/
def Paper.Clean (n : ℕ) (blank : α) (p : Paper α) : Prop :=
  ∀ i, n ≤ i → p.pos ≤ i → p.cell i = blank

theorem Mark.pos_le {w t : ℕ} (hw : 0 < w) (ht : 0 < t) (pos : ℕ) (m : Mark α) :
    pos < m.advance w t pos := by
  cases m with
  | glyph a => exact Nat.lt_succ_self pos
  | newline =>
    have := Nat.mod_lt pos hw
    simp only [Mark.advance]
    omega
  | tab =>
    have := Nat.mod_lt pos ht
    simp only [Mark.advance]
    omega

theorem Paper.Clean.put {n w t : ℕ} {blank : α} {p : Paper α} (h : p.Clean n blank) (hw : 0 < w)
    (ht : 0 < t) (m : Mark α) : (p.put w t m).Clean n blank := by
  intro i hn hi
  have hpos : p.pos < i := (m.pos_le hw ht p.pos).trans_le hi
  have hcell : m.write p.cell p.pos i = p.cell i := by
    cases m with
    | glyph a => exact Function.update_of_ne hpos.ne' _ _
    | newline => rfl
    | tab => rfl
  exact hcell.trans (h i hn hpos.le)

/-! ### The screen -/

structure Screen (α : Type) where
  cell : ℕ → α
  cursor : ℕ

/-- Typing at the cursor. -/
def Screen.put (w t : ℕ) (s : Screen α) (m : Mark α) : Screen α :=
  ⟨m.write s.cell s.cursor, m.advance w t s.cursor⟩

/-- The loop that copies cell `i + w` to cell `i`, for `i` below `n`. -/
def shiftCells (w n : ℕ) (cell : ℕ → α) : ℕ → α :=
  (List.range n).foldl (fun c i => Function.update c i (c (i + w))) cell

/-- The loop that blanks the cells from `n` on, `k` of them. -/
def blankCells (n k : ℕ) (blank : α) (cell : ℕ → α) : ℕ → α :=
  (List.range k).foldl (fun c i => Function.update c (n + i) blank) cell

/-- A cursor below the screen: the lines move up. -/
def Screen.scroll (w h : ℕ) (blank : α) (s : Screen α) : Screen α :=
  if w * h ≤ s.cursor then
    ⟨blankCells (w * (h - 1)) w blank (shiftCells w (w * (h - 1)) s.cell), w * (h - 1)⟩
  else s

/-- Cells that are read are ahead of those that are written. -/
theorem shiftCells_apply {w : ℕ} (hw : 0 < w) (n : ℕ) (cell : ℕ → α) (i : ℕ) :
    shiftCells w n cell i = if i < n then cell (i + w) else cell i := by
  induction n generalizing i with
  | zero => simp [shiftCells]
  | succ n ih =>
    unfold shiftCells at ih ⊢
    rw [List.range_succ, List.foldl_append, List.foldl_cons, List.foldl_nil]
    by_cases hi : i = n
    · subst hi
      rw [Function.update_self, ih, if_neg (by omega), if_pos (by omega)]
    · rw [Function.update_of_ne hi, ih]
      by_cases hlt : i < n
      · rw [if_pos hlt, if_pos (by omega)]
      · rw [if_neg hlt, if_neg (by omega)]

theorem blankCells_apply (n k : ℕ) (blank : α) (cell : ℕ → α) (i : ℕ) :
    blankCells n k blank cell i = if n ≤ i ∧ i < n + k then blank else cell i := by
  induction k with
  | zero =>
    rw [if_neg (by omega)]
    rfl
  | succ k ih =>
    unfold blankCells at ih ⊢
    rw [List.range_succ, List.foldl_append, List.foldl_cons, List.foldl_nil]
    by_cases hi : i = n + k
    · rw [hi, Function.update_self, if_pos (by omega)]
    · rw [Function.update_of_ne hi, ih]
      by_cases hlt : n ≤ i ∧ i < n + k
      · rw [if_pos hlt, if_pos (by omega)]
      · rw [if_neg hlt, if_neg (by omega)]

/-! ### The window -/

/-- The first line that is shown when the roll is at `pos`. -/
def top (w h pos : ℕ) : ℕ := pos / w + 1 - h

/-- The screen shows the last `h` lines of the roll. -/
structure Shows (w h : ℕ) (p : Paper α) (s : Screen α) : Prop where
  cursor : s.cursor + w * top w h p.pos = p.pos
  cell : ∀ i < w * h, s.cell i = p.cell (i + w * top w h p.pos)

section Window

variable {w t h : ℕ} {blank : α} {p : Paper α} {s : Screen α}

/-- The lines above do not matter for the step. -/
theorem Mark.advance_add (hw : t ∣ w) (c k : ℕ) (m : Mark α) :
    m.advance w t (c + w * k) = m.advance w t c + w * k := by
  obtain ⟨d, rfl⟩ := hw
  have hwmod : (c + t * d * k) % (t * d) = c % (t * d) := Nat.add_mul_mod_self_left c (t * d) k
  have htmod : (c + t * d * k) % t = c % t := by
    rw [Nat.mul_assoc]
    exact Nat.add_mul_mod_self_left c t (d * k)
  have hle := Nat.mod_le c (t * d)
  have hle' := Nat.mod_le c t
  cases m with
  | glyph a => simp only [advance]; omega
  | newline => simp only [advance, hwmod]; omega
  | tab => simp only [advance, htmod]; omega

/-- A step ends on the same line, or at the start of the next one. -/
theorem Mark.advance_le (hw : t ∣ w) (hpos : 0 < w) (c : ℕ) (m : Mark α) :
    m.advance w t c ≤ w * (c / w + 1) := by
  have hline : c - c % w + w = w * (c / w + 1) := by
    have := Nat.div_add_mod c w
    rw [Nat.mul_add, Nat.mul_one]
    omega
  have hlt := Nat.mod_lt c hpos
  cases m with
  | glyph a => simp only [advance]; omega
  | newline => simp only [advance]; omega
  | tab =>
    -- the start of the next line is a tabulator
    obtain ⟨d, hd⟩ := hw
    have ht : 0 < t := Nat.pos_of_ne_zero fun h0 => by simp [h0] at hd; omega
    have hq : t * (c / t) ≤ c := Nat.mul_div_le c t
    have hmod : t * (c / t) + c % t = c := Nat.div_add_mod c t
    have hmod' : w * (c / w) + c % w = c := Nat.div_add_mod c w
    have hnext : c / t < d * (c / w + 1) := by
      rw [Nat.div_lt_iff_lt_mul ht, Nat.mul_comm, ← Nat.mul_assoc, ← hd, Nat.mul_add, Nat.mul_one]
      omega
    have hmul : t * (c / t + 1) ≤ t * (d * (c / w + 1)) := Nat.mul_le_mul_left t hnext
    rw [← Nat.mul_assoc, ← hd, Nat.mul_add, Nat.mul_one] at hmul
    simp only [advance]
    omega

theorem Shows.cursor_lt (hs : Shows w h p s) (hw : 0 < w) : s.cursor < w * h := by
  have hcursor := hs.cursor
  have hline : p.pos < w * (p.pos / w + 1) := Nat.lt_mul_div_succ p.pos hw
  have htop : p.pos / w + 1 ≤ top w h p.pos + h := by
    unfold top
    omega
  have hle := Nat.mul_le_mul_left w htop
  rw [Nat.mul_add w (top w h p.pos) h] at hle
  omega

/-- **Typing and scrolling**: the screen shows the roll with the mark on it. -/
theorem Shows.put (hs : Shows w h p s) (hw : 0 < w) (ht : t ∣ w) (ht₀ : 0 < t) (hh : 0 < h)
    (hclean : p.Clean (w * h) blank) (m : Mark α) :
    Shows w h (p.put w t m) ((s.put w t m).scroll w h blank) := by
  have hcell := hs.cell
  have hc := hs.cursor_lt hw
  obtain ⟨cell, c⟩ := s
  obtain ⟨paper, pos⟩ := p
  have hcursor : c + w * top w h pos = pos := hs.cursor
  set k := top w h pos with hk
  set c' := m.advance w t c with hc'
  have hpos' : m.advance w t pos = c' + w * k := by rw [← hcursor, m.advance_add ht]
  have hgrow := m.pos_le hw ht₀ c
  have hbound : c' ≤ w * h := by
    have hle := m.advance_le ht hw c
    have hline : c / w + 1 ≤ h := (Nat.div_lt_iff_lt_mul hw).mpr (by rw [Nat.mul_comm]; exact hc)
    exact hle.trans (Nat.mul_le_mul_left w hline)
  -- what is typed is the same in both places
  have hwrite : ∀ i < w * h, m.write cell c i = m.write paper pos (i + w * k) := by
    intro i hi
    cases m with
    | glyph a =>
      simp only [Mark.write]
      by_cases hic : i = c
      · rw [hic, Function.update_self, hcursor, Function.update_self]
      · rw [Function.update_of_ne hic, Function.update_of_ne (by omega)]
        exact hcell i hi
    | newline => exact hcell i hi
    | tab => exact hcell i hi
  have hdiv : (c' + w * k) / w = c' / w + k := Nat.add_mul_div_left c' k hw
  unfold Screen.scroll
  simp only [Screen.put, ← hc']
  by_cases hscroll : w * h ≤ c'
  · rw [if_pos hscroll]
    obtain ⟨n, rfl⟩ := Nat.exists_eq_add_one_of_ne_zero hh.ne'
    have hend : c' = w * (n + 1) := le_antisymm hbound hscroll
    have htop : top w (n + 1) (c' + w * k) = k + 1 := by
      unfold top
      rw [hdiv, hend, Nat.mul_div_cancel_left _ hw]
      omega
    have hsplit : w * (n + 1) = w * n + w := Nat.mul_succ w n
    have hsplit' : w * (k + 1) = w * k + w := Nat.mul_succ w k
    have hcut : n + 1 - 1 = n := rfl
    rw [hcut]
    refine ⟨?_, fun i hi => ?_⟩
    · simp only [Paper.put, hpos', htop]
      omega
    · simp only [Paper.put, hpos', htop]
      rw [blankCells_apply, shiftCells_apply hw]
      by_cases hlast : w * n ≤ i
      · rw [if_pos (by omega)]
        refine ((hclean.put hw ht₀ m) (i + w * (k + 1)) (by omega) ?_).symm
        simp only [Paper.put, hpos']
        omega
      · rw [if_neg (by omega), if_pos (by omega), hwrite _ (by omega)]
        congr 1
        omega
  · rw [if_neg hscroll]
    have htop : top w h (c' + w * k) = k := by
      have hless : c' / w + 1 ≤ h := (Nat.div_lt_iff_lt_mul hw).mpr (by rw [Nat.mul_comm]; omega)
      have hmono : pos / w ≤ c' / w + k := by
        rw [← hdiv]
        exact Nat.div_le_div_right (by omega)
      unfold top at hk ⊢
      rw [hdiv]
      omega
    refine ⟨?_, fun i hi => ?_⟩
    · simp only [Paper.put, hpos', htop]
    · simp only [Paper.put, hpos', htop]
      exact hwrite i hi

/-- Nothing is written outside the screen. -/
theorem Screen.put_outside (hw : 0 < w) (hh : 0 < h) (hc : s.cursor < w * h) (m : Mark α) {i : ℕ}
    (hi : w * h ≤ i) : ((s.put w t m).scroll w h blank).cell i = s.cell i := by
  have hwrite : (s.put w t m).cell i = s.cell i := by
    cases m with
    | glyph a => exact Function.update_of_ne (by omega) _ _
    | newline => rfl
    | tab => rfl
  unfold Screen.scroll
  split
  · obtain ⟨n, rfl⟩ := Nat.exists_eq_add_one_of_ne_zero hh.ne'
    have hsplit : w * (n + 1) = w * n + w := Nat.mul_succ w n
    have hcut : n + 1 - 1 = n := rfl
    rw [hcut]
    simp only
    rw [blankCells_apply, if_neg (by omega), shiftCells_apply hw, if_neg (by omega)]
    exact hwrite
  · exact hwrite

/-- The roll at its start, on a cleared screen. -/
theorem Shows.fresh (hh : 0 < h) (first : α) {cell : ℕ → α}
    (hcell : ∀ i < w * h, cell i = first) :
    Shows w h (Paper.fresh (w * h) first blank) ⟨cell, 0⟩ := by
  have htop : top w h 0 = 0 := by
    unfold top
    rw [Nat.zero_div]
    omega
  refine ⟨?_, fun i hi => ?_⟩
  · simp only [Paper.fresh, htop, Nat.mul_zero, Nat.add_zero]
  · simp only [Paper.fresh, htop, Nat.mul_zero, Nat.add_zero, if_pos hi]
    exact hcell i hi

theorem Paper.clean_fresh (n : ℕ) (first blank : α) : (Paper.fresh n first blank).Clean n blank :=
  fun _ hi _ => if_neg (Nat.not_lt.mpr hi)

end Window

end Terminal
