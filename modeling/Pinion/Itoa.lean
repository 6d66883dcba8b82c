/-
`__itoa`, which `debug_printf` prints its numbers with.

A buffer is the memory from `buffer` on, byte by byte, and every access is noted with its
index.  The digits are stored by one loop, least significant first, and exchanged end for
end by another.

* `itoa` — the embedding;
* `itoaDigits_eq`, `itoaSwap_loop` — what the two loops leave;
* `itoa_canonical` — the buffer holds the canonical numeral, and no byte behind it is touched.
-/
import Pinion.Numerals
import Pinion.Traced
import Pinion.Types

open Runs Numerals

namespace Pinion

/-! ### The embedding -/

/-- The bytes from the pointer on. -/
abbrev Buffer := ℕ → U8

/-- Why `__itoa` does not return: base 0 raises a divide error, base 1 never lowers `n`. -/
inductive ItoaStop
  | divideError
  | hang
  deriving DecidableEq, Repr

/-- A computation over a buffer that notes the index of each byte it reads or writes. -/
abbrev OnBuffer := Traced ItoaStop ℕ

def Buffer.load (buffer : Buffer) (i : ℕ) : OnBuffer U8 := Traced.note i (.ok (buffer i))

def Buffer.store (buffer : Buffer) (i : ℕ) (c : U8) : OnBuffer Buffer :=
  Traced.note i (.ok (Function.update buffer i c))

/-- The literal `d`. -/
def itoaChars : List U8 := "0123456789ABCDEF".toList.map fun c => BitVec.ofNat 8 c.toNat

/-- `d[x]`; behind the sixteen characters stands the terminator of the literal. -/
def digitChar (x : ℕ) : U8 := itoaChars.getD x 0

/-- `for (i = 0; n; i++)`: the buffer and `i` behind the last digit. -/
def itoaDigits (base : U32) (buffer : Buffer) (i : ℕ) (n : U32) : OnBuffer (Buffer × ℕ) :=
  if _hn : n = 0 then pure (buffer, i)
  else if _hzero : base = 0 then ⟨[], .error .divideError⟩
  else if _hone : base = 1 then ⟨[], .error .hang⟩
  else do
    let buffer ← buffer.store i (digitChar (n % base).toNat)
    itoaDigits base buffer (i + 1) (n / base)
termination_by n.toNat
decreasing_by
  have hn : n.toNat ≠ 0 := fun h => _hn (BitVec.eq_of_toNat_eq h)
  have hzero : base.toNat ≠ 0 := fun h => _hzero (BitVec.eq_of_toNat_eq h)
  have hone : base.toNat ≠ 1 := fun h => _hone (BitVec.eq_of_toNat_eq h)
  rw [BitVec.toNat_udiv]
  exact Nat.div_lt_self (by omega) (by omega)

/-- One turn of `for (i = 0; i < (size / 2); i++)`. -/
def itoaSwap (size : ℕ) (buffer : Buffer) (i : ℕ) : OnBuffer Buffer := do
  let temp ← buffer.load (size - i - 1)
  let c ← buffer.load i
  let buffer ← buffer.store (size - i - 1) c
  buffer.store i temp

def itoa (buffer : Buffer) (n base : U32) : OnBuffer Buffer :=
  if n = 0 then do
    let buffer ← buffer.store 0 0x30
    buffer.store 1 0
  else if 16 < base then buffer.store 0 0
  else do
    let (buffer, size) ← itoaDigits base buffer 0 n
    let buffer ← buffer.store size 0
    (List.range (size / 2)).foldlM (itoaSwap size) buffer

/-! ### The digits -/

/-- The buffer with `l` stored from index `i` on. -/
def Buffer.fill (buffer : Buffer) (i : ℕ) (l : List U8) : Buffer := fun j =>
  if i ≤ j then (l[j - i]?).getD (buffer j) else buffer j

theorem Buffer.fill_nil (buffer : Buffer) (i : ℕ) : buffer.fill i [] = buffer := by
  funext j
  exact ite_self _

theorem Buffer.fill_cons (buffer : Buffer) (i : ℕ) (c : U8) (l : List U8) :
    Buffer.fill (Function.update buffer i c) (i + 1) l = buffer.fill i (c :: l) := by
  funext j
  rw [Buffer.fill, Buffer.fill, Function.update_apply]
  rcases Nat.lt_trichotomy j i with hlt | rfl | hgt
  · rw [if_neg (by omega), if_neg (by omega), if_neg (by omega)]
  · rw [if_neg (by omega), if_pos rfl, if_pos le_rfl, Nat.sub_self]
    rfl
  · obtain ⟨k, rfl⟩ : ∃ k, j = i + 1 + k := ⟨j - (i + 1), by omega⟩
    rw [if_pos (by omega), if_neg (by omega), if_pos (by omega), Nat.add_sub_cancel_left,
      show i + 1 + k - i = k + 1 by omega, List.getElem?_cons_succ]

theorem itoaDigits_of_zero (base : U32) (buffer : Buffer) (i : ℕ) :
    itoaDigits base buffer i 0 = pure (buffer, i) := by
  rw [itoaDigits, dif_pos rfl]

theorem itoaDigits_of_ne {base n : U32} (hbase : 1 < base.toNat) (hn : n ≠ 0) (buffer : Buffer)
    (i : ℕ) :
    itoaDigits base buffer i n = buffer.store i (digitChar (n.toNat % base.toNat)) >>=
      fun buffer => itoaDigits base buffer (i + 1) (n / base) := by
  have hzero : base ≠ 0 := by
    rintro rfl
    exact absurd hbase (by decide)
  have hone : base ≠ 1 := by
    rintro rfl
    exact absurd hbase (by decide)
  rw [itoaDigits, dif_neg hn, dif_neg hzero, dif_neg hone, BitVec.toNat_umod]

theorem Buffer.fill_of_lt (buffer : Buffer) {l : List U8} {j : ℕ} (hj : j < l.length) :
    buffer.fill 0 l j = l[j] := by
  rw [Buffer.fill, if_pos (Nat.zero_le j), Nat.sub_zero, List.getElem?_eq_getElem hj]
  rfl

theorem Buffer.fill_of_le (buffer : Buffer) {l : List U8} {j : ℕ} (hj : l.length ≤ j) :
    buffer.fill 0 l j = buffer j := by
  rw [Buffer.fill, if_pos (Nat.zero_le j), Nat.sub_zero, List.getElem?_eq_none hj]
  rfl

/-- **The first loop** stores the digits of `n`, each at the next index. -/
theorem itoaDigits_eq {base : U32} (hbase : 1 < base.toNat) {l : List ℕ} :
    ∀ {n : U32}, Nat.digits base.toNat n.toNat = l → ∀ (buffer : Buffer) (i : ℕ),
      (itoaDigits base buffer i n).log = List.range' i l.length ∧
        (itoaDigits base buffer i n).out =
          .ok (buffer.fill i (l.map digitChar), i + l.length) := by
  induction l with
  | nil =>
    intro n hl buffer i
    have hn : n = 0 := BitVec.eq_of_toNat_eq (Nat.digits_eq_nil_iff_eq_zero.mp hl)
    subst hn
    rw [itoaDigits_of_zero, List.map_nil, Buffer.fill_nil]
    exact ⟨rfl, rfl⟩
  | cons x l ih =>
    intro n hl buffer i
    have hpos : n.toNat ≠ 0 := by
      rw [← Nat.digits_ne_nil_iff_ne_zero, hl]
      exact List.cons_ne_nil x l
    rw [Nat.digits_def' hbase (Nat.pos_of_ne_zero hpos), ← BitVec.toNat_udiv] at hl
    obtain ⟨rfl, hrest⟩ := List.cons.inj hl
    have hn : n ≠ 0 := by
      rintro rfl
      exact hpos rfl
    obtain ⟨hlog, hout⟩ :=
      ih hrest (Function.update buffer i (digitChar (n.toNat % base.toNat))) (i + 1)
    rw [itoaDigits_of_ne hbase hn]
    refine ⟨congrArg (i :: ·) hlog, ?_⟩
    rw [Traced.out_bind]
    refine hout.trans ?_
    rw [Buffer.fill_cons, List.map_cons, List.length_cons, Nat.add_right_comm, Nat.add_assoc]

/-! ### The exchanges -/

/-- **The second loop** reverses the digits, and touches nothing else. -/
theorem itoaSwap_loop (size : ℕ) (buffer : Buffer) :
    ((List.range (size / 2)).foldlM (itoaSwap size) buffer).out =
        .ok (exchanged size (size / 2) buffer) ∧
      ∀ i ∈ ((List.range (size / 2)).foldlM (itoaSwap size) buffer).log, i < size := by
  have hturn : ∀ k < size / 2, ∀ (L : List ℕ) (b : Buffer),
      (b = exchanged size k buffer ∧ ∀ i ∈ L, i < size) →
        ∃ b', (itoaSwap size b k).out = .ok b' ∧ b' = exchanged size (k + 1) buffer ∧
          ∀ i ∈ L ++ (itoaSwap size b k).log, i < size := by
    rintro k hk L b ⟨rfl, hL⟩
    refine ⟨_, rfl, exchanged_succ hk buffer, ?_⟩
    intro i hi
    rcases List.mem_append.mp hi with hi | hi
    · exact hL i hi
    · change i ∈ [size - k - 1, k, size - k - 1, k] at hi
      have hends : i = size - k - 1 ∨ i = k ∨ i = size - k - 1 ∨ i = k := by simpa using hi
      omega
  obtain ⟨_, hout, rfl, hlog⟩ := Traced.foldlM_range_log
    (P := fun k L b => b = exchanged size k buffer ∧ ∀ i ∈ L, i < size)
    ⟨(exchanged_zero size buffer).symm, nofun⟩ hturn
  exact ⟨hout, hlog⟩

/-! ### The string -/

/-- The string in the buffer is `s`. -/
structure Buffer.Holds (buffer : Buffer) (s : List U8) : Prop where
  chars : ∀ i (hi : i < s.length), buffer i = s[i]
  terminated : buffer s.length = 0
  inside : (0 : U8) ∉ s

theorem digitChar_distinct {base : ℕ} (hbase : base ≤ 16) : Distinct digitChar base := by
  have hall : ∀ x < 16, ∀ y < 16, digitChar x = digitChar y → x = y := by decide
  intro x hx y hy heq
  exact hall x (lt_of_lt_of_le hx hbase) y (lt_of_lt_of_le hy hbase) heq

theorem digitChar_ne_zero {x : ℕ} (hx : x < 16) : digitChar x ≠ 0 := by
  have hall : ∀ x < 16, digitChar x ≠ 0 := by decide
  exact hall x hx

theorem Buffer.holds_numeral (buffer : Buffer) {base n : ℕ} {s : List U8} (hbase : base ≤ 16)
    (hs : Canonical digitChar base n s) : (buffer.fill 0 (s ++ [0])).Holds s := by
  have hlen : (s ++ [0]).length = s.length + 1 := List.length_append
  refine ⟨?_, ?_, ?_⟩
  · intro i hi
    rw [Buffer.fill_of_lt _ (by omega), List.getElem_append_left hi]
  · rw [Buffer.fill_of_lt _ (by omega), List.getElem_append_right le_rfl]
    exact List.getElem_singleton _
  · intro hmem
    obtain ⟨x, hx, hzero⟩ := hs.digits 0 hmem
    exact digitChar_ne_zero (lt_of_lt_of_le hx hbase) hzero.symm

/-- The stores of both loops and of the terminator, together. -/
theorem exchanged_fill (buffer : Buffer) (l : List U8) :
    exchanged l.length (l.length / 2) (Function.update (buffer.fill 0 l) l.length 0) =
      buffer.fill 0 (l.reverse ++ [0]) := by
  have hlen : (l.reverse ++ [(0 : U8)]).length = l.length + 1 := by
    rw [List.length_append, List.length_reverse, List.length_singleton]
  funext j
  rcases Nat.lt_trichotomy j l.length with hlt | rfl | hgt
  · have hback : l.length - 1 - j < l.length := by omega
    rw [exchanged_half _ _ hlt, Function.update_of_ne (by omega), Buffer.fill_of_lt _ hback,
      Buffer.fill_of_lt _ (by omega),
      List.getElem_append_left (by rw [List.length_reverse]; exact hlt), List.getElem_reverse]
  · rw [exchanged_of_le _ le_rfl, Function.update_self, Buffer.fill_of_lt _ (by omega),
      List.getElem_append_right (by rw [List.length_reverse])]
    exact (List.getElem_singleton _).symm
  · rw [exchanged_of_le _ hgt.le, Function.update_of_ne (by omega), Buffer.fill_of_le _ hgt.le,
      Buffer.fill_of_le _ (by omega)]

/-- `__itoa` stores the numeral of `n` with a terminator, and nothing behind it. -/
theorem itoa_eq (buffer : Buffer) {n base : U32} (hlow : 1 < base.toNat)
    (hhigh : base.toNat ≤ 16) :
    (itoa buffer n base).out =
        .ok (buffer.fill 0 (numeral digitChar base.toNat n.toNat ++ [0])) ∧
      ∀ i ∈ (itoa buffer n base).log, i ≤ (numeral digitChar base.toNat n.toNat).length := by
  by_cases hn : n = 0
  · subst hn
    have hzero : numeral digitChar base.toNat (0 : U32).toNat = [0x30] := rfl
    rw [itoa, if_pos rfl, hzero]
    refine ⟨?_, ?_⟩
    · show Except.ok (Function.update (Function.update buffer 0 0x30) 1 0) = _
      rw [← Buffer.fill_nil (Function.update _ 1 0) 2, Buffer.fill_cons, Buffer.fill_cons]
      rfl
    · intro i hi
      change i ∈ [0, 1] at hi
      have hends : i = 0 ∨ i = 1 := by simpa using hi
      show i ≤ 1
      omega
  · have hpos : n.toNat ≠ 0 := fun h => hn (BitVec.eq_of_toNat_eq h)
    have hle : ¬16 < base := by
      intro h
      have h16 : (16 : U32).toNat < base.toNat := h
      exact absurd h16 (by rw [show (16 : U32).toNat = 16 from rfl]; omega)
    obtain ⟨hlog, hout⟩ := itoaDigits_eq hlow (n := n) rfl buffer 0
    rw [itoa, if_neg hn, if_neg hle, numeral, if_neg hpos]
    rw [← List.length_map digitChar] at hlog hout
    generalize (Nat.digits base.toNat n.toNat).map digitChar = l at hlog hout ⊢
    rw [Nat.zero_add] at hout
    obtain ⟨hswap, hinside⟩ :=
      itoaSwap_loop l.length (Function.update (buffer.fill 0 l) l.length 0)
    rw [exchanged_fill] at hswap
    refine ⟨?_, ?_⟩
    · rw [Traced.out_bind, hout]
      exact hswap
    · -- the digits, the terminator, and the exchanges in front of it
      rw [Traced.log_bind_ok hout, hlog]
      intro i hi
      rw [List.length_reverse]
      rcases List.mem_append.mp hi with hi | hi
      · have hlt := (List.mem_range'_1.mp hi).2
        omega
      · rcases List.mem_cons.mp hi with rfl | hi
        · exact le_rfl
        · exact (hinside i hi).le

/-- **Every number is printed**: in each base from 2 to 16, the buffer holds the canonical
numeral of `n` and its terminator, and no byte behind the terminator is read or written.
In the bases `debug_printf` uses the string fits its 13 bytes. -/
theorem itoa_canonical (buffer : Buffer) (n base : U32) (hlow : 2 ≤ base.toNat)
    (hhigh : base.toNat ≤ 16) :
    ∃ buffer' s, (itoa buffer n base).out = .ok buffer' ∧
      Canonical digitChar base.toNat n.toNat s ∧ buffer'.Holds s ∧
      (∀ i ∈ (itoa buffer n base).log, i ≤ s.length) ∧
      (∀ i, s.length < i → buffer' i = buffer i) ∧
      (base = 10 ∨ base = 16 → s.length + 1 ≤ 13) := by
  obtain ⟨hout, hlog⟩ := itoa_eq buffer (n := n) hlow hhigh
  have hcanonical := canonical_numeral (digitChar_distinct hhigh) hlow n.toNat
  refine ⟨_, _, hout, hcanonical, Buffer.holds_numeral buffer hhigh hcanonical, hlog, ?_, ?_⟩
  · intro i hi
    rw [Buffer.fill_of_le]
    rw [List.length_append, List.length_singleton]
    exact hi
  · -- ten digits in base 10 and eight in base 16
    have hn := n.isLt
    rintro (rfl | rfl)
    · have hten : n.toNat < 10 ^ 10 := hn.trans (by norm_num)
      have hle := numeral_length_le (d := digitChar) hlow (by norm_num) hten
      omega
    · have height : n.toNat < 16 ^ 8 := by norm_num; exact hn
      have hle := numeral_length_le (d := digitChar) hlow (by norm_num) height
      omega

/-- 48879 is printed as `BEEF`, and the fifth byte is the last that changes. -/
theorem itoa_canonical_beef :
    ∃ buffer', (itoa (fun _ => 0xAA) 0xBEEF 16).out = .ok buffer' ∧
      buffer'.Holds [0x42, 0x45, 0x45, 0x46] ∧ buffer' 5 = 0xAA := by
  have hlow : 2 ≤ (16 : U32).toNat := by decide
  have hhigh : (16 : U32).toNat ≤ 16 := by decide
  obtain ⟨buffer', s, hout, hcanonical, hholds, -, hrest, -⟩ :=
    itoa_canonical (fun _ => 0xAA) 0xBEEF 16 hlow hhigh
  have hdigits : numeral digitChar (16 : U32).toNat (0xBEEF : U32).toNat =
      [0x42, 0x45, 0x45, 0x46] := by
    have hbase : Nat.digits 16 0xBEEF = [15, 14, 14, 11] := by norm_num
    show ((Nat.digits 16 0xBEEF).map digitChar).reverse = _
    rw [hbase]
    rfl
  rw [canonical_iff (digitChar_distinct hhigh) hlow, hdigits] at hcanonical
  subst hcanonical
  exact ⟨buffer', hout, hholds, hrest 5 (by decide)⟩

end Pinion
