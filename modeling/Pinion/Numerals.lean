/-
Numerals: strings of digit characters, the most significant one first.

The characters are any sequence `d` that does not repeat below the base.  A numeral is
canonical when it reads back to its number and does not begin with a zero, the numeral of
zero aside.  Every number has one canonical numeral, and repeated division gives it in
reverse; division by the powers of the base gives it place by place.  The last section is about
reversing it in place.

* `digitOf`, `read` — the number of a character, and of a string;
* `Canonical` — a canonical numeral;
* `canonical_iff` — it is the reversed list of digits;
* `padded`, `padded_eq` — a numeral with leading zeros;
* `exchanged` — a segment after some of the exchanges that reverse it.
-/
import Mathlib

namespace Numerals

section Reading

variable {α : Type} [DecidableEq α] {d : ℕ → α} {base : ℕ}

/-- The number a character stands for. -/
def digitOf (d : ℕ → α) (base : ℕ) (c : α) : Option ℕ := (List.range base).find? fun x => d x = c

/-- The number a string stands for. -/
def read (d : ℕ → α) (base : ℕ) (s : List α) : Option ℕ :=
  s.foldlM (fun v c => (digitOf d base c).map (base * v + ·)) 0

/-- The canonical numeral of `n`: digits of the base that read back to `n`, with no
leading zero unless the zero is all there is. -/
structure Canonical (d : ℕ → α) (base n : ℕ) (s : List α) : Prop where
  digits : ∀ c ∈ s, ∃ x < base, c = d x
  reads : read d base s = some n
  nonempty : s ≠ []
  leading : s.head? = some (d 0) → s = [d 0]

/-- The characters below the base are different. -/
def Distinct (d : ℕ → α) (base : ℕ) : Prop := Set.InjOn d {x | x < base}

theorem digitOf_some {c : α} {x : ℕ} (h : digitOf d base c = some x) : x < base ∧ d x = c := by
  obtain ⟨heq, hx, -⟩ := List.find?_range_eq_some.mp h
  exact ⟨List.mem_range.mp hx, of_decide_eq_true heq⟩

theorem Distinct.digitOf_eq (hd : Distinct d base) {x : ℕ} (hx : x < base) :
    digitOf d base (d x) = some x := by
  refine List.find?_range_eq_some.mpr ⟨decide_eq_true rfl, List.mem_range.mpr hx, ?_⟩
  intro y hy
  have hne : d y ≠ d x := fun h => hy.ne (hd (hy.trans hx) hx h)
  rw [decide_eq_false hne]
  rfl

theorem read_concat (s : List α) (c : α) :
    read d base (s ++ [c]) =
      (read d base s).bind fun v => (digitOf d base c).map (base * v + ·) := by
  rw [read, List.foldlM_append]
  refine congrArg (Option.bind (read d base s)) (funext fun v => ?_)
  rw [List.foldlM_cons]
  exact bind_pure _

/-- Digits written in reverse read back to their number. -/
theorem Distinct.read_reverse (hd : Distinct d base) {l : List ℕ} (hl : ∀ x ∈ l, x < base) :
    read d base (l.map d).reverse = some (Nat.ofDigits base l) := by
  induction l with
  | nil => rfl
  | cons x l ih =>
    have hread := ih fun y hy => hl y (List.mem_cons_of_mem x hy)
    rw [List.map_cons, List.reverse_cons, read_concat, hread, Option.bind_some,
      hd.digitOf_eq (hl x List.mem_cons_self), Nat.ofDigits_cons]
    exact congrArg some (Nat.add_comm _ _)

/-- A string that can be read is made of digits of its number. -/
theorem digits_of_read {s : List α} :
    ∀ {n : ℕ}, read d base s = some n →
      ∃ l : List ℕ, s = (l.map d).reverse ∧ (∀ x ∈ l, x < base) ∧ Nat.ofDigits base l = n := by
  induction s using List.reverseRecOn with
  | nil =>
    intro n h
    refine ⟨[], rfl, nofun, ?_⟩
    exact Option.some.inj h
  | append_singleton s c ih =>
    intro n h
    rw [read_concat] at h
    obtain ⟨v, hv, h⟩ := Option.bind_eq_some_iff.mp h
    obtain ⟨x, hx, rfl⟩ := Option.map_eq_some_iff.mp h
    obtain ⟨l, rfl, hl, rfl⟩ := ih hv
    obtain ⟨hlt, rfl⟩ := digitOf_some hx
    refine ⟨x :: l, ?_, ?_, ?_⟩
    · rw [List.map_cons, List.reverse_cons]
    · intro y hy
      rcases List.mem_cons.mp hy with rfl | hy
      · exact hlt
      · exact hl y hy
    · rw [Nat.ofDigits_cons]
      exact Nat.add_comm _ _

end Reading

/-! ### The canonical numeral -/

section Numeral

variable {α : Type} {d : ℕ → α} {base n : ℕ}

/-- The digits of `n` by repeated division, in the order they are read. -/
def numeral (d : ℕ → α) (base n : ℕ) : List α :=
  if n = 0 then [d 0] else ((Nat.digits base n).map d).reverse

theorem numeral_length_le {k : ℕ} (hbase : 1 < base) (hk : 0 < k) (hn : n < base ^ k) :
    (numeral d base n).length ≤ k := by
  unfold numeral
  split_ifs with h0
  · exact hk
  · rw [List.length_reverse, List.length_map]
    exact (Nat.digits_length_le_iff hbase n).mpr hn

variable [DecidableEq α]

theorem canonical_numeral (hd : Distinct d base) (hbase : 1 < base) (n : ℕ) :
    Canonical d base n (numeral d base n) := by
  have hlt : ∀ x ∈ Nat.digits base n, x < base := fun x hx => Nat.digits_lt_base hbase hx
  unfold numeral
  split_ifs with h0
  · subst h0
    refine ⟨?_, ?_, nofun, fun _ => rfl⟩
    · intro c hc
      exact ⟨0, by omega, List.mem_singleton.mp hc⟩
    · exact hd.read_reverse (l := [0]) (by simpa using by omega)
  · have hne : Nat.digits base n ≠ [] := Nat.digits_ne_nil_iff_ne_zero.mpr h0
    refine ⟨?_, ?_, ?_, ?_⟩
    · intro c hc
      obtain ⟨x, hx, rfl⟩ := List.mem_map.mp (List.mem_reverse.mp hc)
      exact ⟨x, hlt x hx, rfl⟩
    · rw [hd.read_reverse hlt, Nat.ofDigits_digits]
    · simpa using hne
    · -- the leading character is that of the last digit, which is not zero
      intro hhead
      rw [List.head?_reverse, List.getLast?_map, List.getLast?_eq_some_getLast hne,
        Option.map_some] at hhead
      have hlast := hlt _ (List.getLast_mem hne)
      have hzero := hd hlast (by show 0 < base; omega) (Option.some.inj hhead)
      exact absurd hzero (Nat.getLast_digit_ne_zero base h0)

/-- **There is one canonical numeral**, the reversed list of digits. -/
theorem canonical_iff (hd : Distinct d base) (hbase : 1 < base) {s : List α} :
    Canonical d base n s ↔ s = numeral d base n := by
  constructor
  · rintro ⟨-, hread, hne, hlead⟩
    obtain ⟨l, rfl, hl, rfl⟩ := digits_of_read hread
    have hlne : l ≠ [] := by simpa using hne
    by_cases hlast : l.getLast hlne = 0
    · -- a leading zero is all there is
      have hsingle : (l.map d).reverse = [d 0] := by
        refine hlead ?_
        rw [List.head?_reverse, List.getLast?_map, List.getLast?_eq_some_getLast hlne, hlast]
        rfl
      have hzero := hd.read_reverse hl
      rw [hsingle] at hzero ⊢
      have hnum := hd.read_reverse (l := [0]) (by simpa using by omega)
      have hval := Option.some.inj (hzero.symm.trans hnum)
      rw [numeral, hval]
      rfl
    · have hdigits := Nat.digits_ofDigits base hbase l hl fun _ => hlast
      have hval : Nat.ofDigits base l ≠ 0 := by
        intro h0
        rw [h0, Nat.digits_zero] at hdigits
        exact hlne hdigits.symm
      rw [numeral, if_neg hval, hdigits]
  · rintro rfl
    exact canonical_numeral hd hbase n

end Numeral

/-! ### Places -/

section Places

variable {α : Type} {d : ℕ → α} {base n k : ℕ}

/-- The numeral with zeros before it, `k` characters together. -/
def padded (d : ℕ → α) (base k n : ℕ) : List α := ((Nat.digitsAppend base k n).map d).reverse

/-- The digit of each place, as division by a power of the base gives it. -/
theorem digits_places (hbase : 1 < base) (hn : n < base ^ k) :
    (List.range k).map (fun i => n / base ^ i % base) = Nat.digitsAppend base k n := by
  have hlen := Nat.length_digitsAppend hbase k hn
  refine List.ext_getElem (by rw [List.length_map, List.length_range, hlen]) fun i hi hi' => ?_
  rw [List.getElem_map, List.getElem_range, ← Nat.getD_digits n i hbase]
  simp only [Nat.digitsAppend]
  by_cases hlow : i < (Nat.digits base n).length
  · rw [List.getElem_append_left hlow, List.getD_eq_getElem _ 0 hlow]
  · have hhigh : (Nat.digits base n).length ≤ i := Nat.le_of_not_lt hlow
    rw [List.getElem_append_right hhigh, List.getElem_replicate, List.getD_eq_default _ 0 hhigh]

theorem padded_eq (hbase : 1 < base) (hn : n < base ^ k) :
    padded d base k n = ((List.range k).reverse.map fun i => d (n / base ^ i % base)) := by
  rw [padded, ← digits_places hbase hn, List.map_map, List.map_reverse]
  rfl

/-- A numeral that fills its places. -/
theorem numeral_eq_padded (hbase : 1 < base) (hlow : base ^ k ≤ n) (hn : n < base ^ (k + 1)) :
    numeral d base n = padded d base (k + 1) n := by
  have hpos : 0 < base ^ k := Nat.pow_pos (by omega)
  have hle := (Nat.digits_length_le_iff hbase n).mpr hn
  have hlt := (Nat.lt_digits_length_iff hbase n).mpr hlow
  rw [numeral, if_neg (by omega), padded, Nat.digitsAppend, Nat.sub_eq_zero_of_le (by omega),
    List.replicate_zero, List.append_nil]

end Places

/-! ### Reversal in place -/

section Reversal

variable {α : Type}

/-- The first `size` places of `f` when the outer `k` pairs have changed places. -/
def exchanged (size k : ℕ) (f : ℕ → α) : ℕ → α := fun i =>
  if i < size ∧ (i < k ∨ size ≤ i + k) then f (size - 1 - i) else f i

theorem exchanged_zero (size : ℕ) (f : ℕ → α) : exchanged size 0 f = f := by
  funext i
  exact if_neg (by omega)

/-- The next pair. -/
theorem exchanged_succ {size k : ℕ} (hk : k < size / 2) (f : ℕ → α) :
    Function.update (Function.update (exchanged size k f) (size - k - 1) (exchanged size k f k)) k
      (exchanged size k f (size - k - 1)) = exchanged size (k + 1) f := by
  have hlow : exchanged size k f k = f k := if_neg (by omega)
  have hhigh : exchanged size k f (size - k - 1) = f (size - k - 1) := if_neg (by omega)
  funext i
  rw [hlow, hhigh, Function.update_apply, Function.update_apply]
  by_cases hik : i = k
  · subst hik
    rw [if_pos rfl, exchanged, if_pos (by omega)]
    exact congrArg f (by omega)
  · rw [if_neg hik]
    by_cases his : i = size - k - 1
    · subst his
      rw [if_pos rfl, exchanged, if_pos (by omega)]
      exact congrArg f (by omega)
    · rw [if_neg his, exchanged, exchanged]
      have hiff : (i < size ∧ (i < k ∨ size ≤ i + k)) ↔
          (i < size ∧ (i < k + 1 ∨ size ≤ i + (k + 1))) := by omega
      rw [if_congr hiff rfl rfl]

/-- After half the pairs the segment is reversed; with an odd length, the middle stays. -/
theorem exchanged_half (size : ℕ) (f : ℕ → α) {i : ℕ} (hi : i < size) :
    exchanged size (size / 2) f i = f (size - 1 - i) := by
  unfold exchanged
  split_ifs with h
  · rfl
  · exact congrArg f (by omega)

theorem exchanged_of_le {size k i : ℕ} (f : ℕ → α) (hi : size ≤ i) : exchanged size k f i = f i :=
  if_neg (by omega)

end Reversal

end Numerals
