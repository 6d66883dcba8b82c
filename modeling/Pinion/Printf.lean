/-
`debug_printf`, which prints on the serial line.

The characters between two directives are collected in `fmtbuffer`, without a check of its size, and
the digits of a number in `buffer`.  As in the log, the byte after a `%` is a directive whatever it
is, and the arguments are taken as the format says.

* `debugPrintf` — the embedding;
* `debugText` — what a format prints with its arguments;
* `debug_printf_returns` — when it returns, and what was sent;
* `debug_panic_prints` — the last line of a kernel that panics.
-/
import Pinion.Formats
import Pinion.Itoa
import Pinion.Log

open Formats Numerals Runs

namespace Pinion

/-! ### The embedding -/

/-- Why `debug_printf` does not return. -/
inductive PrintfStop
  /-- It reads behind an array, or an argument that is not there. -/
  | overrun
  /-- It stores behind one of its buffers. -/
  | overflow
  | itoa (stop : ItoaStop)

/-- What is sent, with the transmitter ready: a line feed is followed by a carriage return. -/
def debugChar (c : U8) (out : List U8) : List U8 :=
  if c = 0x0A then out ++ [c] ++ [0x0D] else out ++ [c]

/-- `for (i = 0; s[i]; i++)`. -/
def debugString : List U8 → List U8 → Except PrintfStop (List U8)
  | [], _ => .error .overrun
  | c :: s, out => if c = 0 then .ok out else debugString s (debugChar c out)

/-- An array of `n` bytes. -/
def Buffer.bytes (buffer : Buffer) (n : ℕ) : List U8 := (List.range n).map buffer

/-- The local variables, and what was sent. -/
structure Printf where
  fmtbuffer : Buffer
  fbt : ℕ
  buffer : Buffer
  out : List U8

/-- `fmtbuffer[fbt++] = format[i]`. -/
def Printf.put (p : Printf) (c : U8) : Except PrintfStop Printf :=
  if p.fbt < 100 then
    .ok { p with fmtbuffer := Function.update p.fmtbuffer p.fbt c, fbt := p.fbt + 1 }
  else .error .overflow

/-- `fmtbuffer[fbt] = '\0'; debug_string(fmtbuffer); fbt = 0`. -/
def Printf.flush (p : Printf) : Except PrintfStop Printf :=
  if p.fbt < 100 then do
    let fmtbuffer : Buffer := Function.update p.fmtbuffer p.fbt 0
    let out ← debugString (fmtbuffer.bytes 100) p.out
    return { p with fmtbuffer := fmtbuffer, fbt := 0, out := out }
  else .error .overflow

/-- `__itoa(buffer, n, base); debug_string(buffer)`. -/
def Printf.int (p : Printf) (n base : U32) : Except PrintfStop Printf :=
  let run := itoa p.buffer n base
  if run.log.all (· < 13) then
    match run.out with
    | .ok buffer => do
      let out ← debugString (buffer.bytes 13) p.out
      return { p with buffer := buffer, out := out }
    | .error stop => .error (.itoa stop)
  else .error .overflow

/-- `va_arg(ap, int)`. -/
def argInt : List Arg → Except PrintfStop (U32 × List Arg)
  | .int x :: ap => .ok (x, ap)
  | _ => .error .overrun

/-- `"(null)"`. -/
def nullText : List U8 := [0x28, 0x6E, 0x75, 0x6C, 0x6C, 0x29]

/-- `va_arg(ap, const char*)`, or `"(null)"` in its place. -/
def argStr : List Arg → Except PrintfStop (List U8 × List Arg)
  | .str bytes :: ap => .ok (bytes, ap)
  | .int x :: ap => if x = 0 then .ok (nullText ++ [0], ap) else .error .overrun
  | [] => .error .overrun

/-- The `switch` on the byte after a `%`. -/
def printfDirective (y : U8) (ap : List Arg) (p : Printf) : Except PrintfStop (Printf × List Arg) :=
  if y = 0x78 ∨ y = 0x58 then do
    let (x, ap) ← argInt ap
    return (← p.int x 16, ap)
  else if y = 0x64 ∨ y = 0x69 then do
    let (x, ap) ← argInt ap
    return (← p.int x 10, ap)
  else if y = 0x73 then do
    let (str, ap) ← argStr ap
    return ({ p with out := ← debugString str p.out }, ap)
  else if y = 0x63 then do
    let (x, ap) ← argInt ap
    return ({ p with out := debugChar (x.setWidth 8) p.out }, ap)
  else if y = 0x25 then .ok ({ p with out := debugChar 0x25 p.out }, ap)
  else .ok (p, ap)

/-- `for (i = 0; format[i]; i++)`. -/
def printfLoop : List U8 → List Arg → Printf → Except PrintfStop Printf
  | [], _, _ => .error .overrun
  | [x], ap, p =>
    if x = 0 then .ok p
    else if x = 0x25 then do
      let _ ← p.flush
      .error .overrun
    else do printfLoop [] ap (← p.put x)
  | x :: y :: format, ap, p =>
    if x = 0 then .ok p
    else if x = 0x25 then do
      let (p, ap) ← printfDirective y ap (← p.flush)
      printfLoop format ap p
    else do printfLoop (y :: format) ap (← p.put x)

/-- What is sent; the buffers hold what the stack held. -/
def debugPrintf (fmtbuffer buffer : Buffer) (format : List U8) (ap : List Arg) :
    Except PrintfStop (List U8) := do
  let p ← printfLoop format ap ⟨fmtbuffer, 0, buffer, []⟩
  return (← p.flush).out

/-! ### The text -/

/-- The string in an array, if it is terminated. -/
def cstring : List U8 → Option (List U8)
  | [] => none
  | c :: s => if c = 0 then some [] else (cstring s).map (c :: ·)

/-- The text of a directive, and the arguments that are left. -/
def debugWant (y : U8) (ap : List Arg) : Option (List U8 × List Arg) :=
  if y = 0x78 ∨ y = 0x58 then
    (argInt ap).toOption.map fun r => (numeral digitChar 16 r.1.toNat, r.2)
  else if y = 0x64 ∨ y = 0x69 then
    (argInt ap).toOption.map fun r => (numeral digitChar 10 r.1.toNat, r.2)
  else if y = 0x73 then
    (argStr ap).toOption.bind fun r => (cstring r.1).map (·, r.2)
  else if y = 0x63 then (argInt ap).toOption.map fun r => ([r.1.setWidth 8], r.2)
  else if y = 0x25 then some ([0x25], ap)
  else some ([], ap)

def debugText : List (Piece U8) → List Arg → Option (List U8)
  | [], _ => some []
  | .text x :: ps, ap => (debugText ps ap).map (x :: ·)
  | .directive y :: ps, ap => (debugWant y ap).bind fun r => (debugText ps r.2).map (r.1 ++ ·)

/-- A text as it is sent. -/
def onLine (s : List U8) : List U8 := s.flatMap fun c => if c = 0x0A then [0x0A, 0x0D] else [c]

theorem onLine_append (s t : List U8) : onLine (s ++ t) = onLine s ++ onLine t :=
  List.flatMap_append

theorem debugChar_eq (c : U8) (out : List U8) : debugChar c out = out ++ onLine [c] := by
  rw [debugChar, onLine, List.flatMap_singleton]
  by_cases hc : c = 0x0A
  · rw [if_pos hc, if_pos hc, hc, List.append_assoc]
    rfl
  · rw [if_neg hc, if_neg hc]

theorem debugString_eq (s : List U8) : ∀ out,
    (debugString s out).toOption = (cstring s).map fun t => out ++ onLine t := by
  induction s with
  | nil => exact fun _ => rfl
  | cons c s ih =>
    intro out
    rw [debugString, cstring]
    by_cases hc : c = 0
    · rw [if_pos hc, if_pos hc, Option.map_some]
      exact congrArg some (List.append_nil out).symm
    · rw [if_neg hc, if_neg hc, ih, debugChar_eq, Option.map_map]
      congr 1
      funext t
      rw [Function.comp_apply, show c :: t = [c] ++ t from rfl, onLine_append, List.append_assoc]

theorem cstring_append {s : List U8} (hs : 0 ∉ s) (rest : List U8) :
    cstring (s ++ 0 :: rest) = some s := by
  induction s with
  | nil => exact if_pos rfl
  | cons c s ih =>
    rw [List.mem_cons, not_or] at hs
    rw [List.cons_append, cstring, if_neg (Ne.symm hs.1), ih hs.2]
    rfl

/-- An array that holds a string. -/
theorem Buffer.Holds.cstring {buffer : Buffer} {s : List U8} (h : buffer.Holds s) {n : ℕ}
    (hn : s.length < n) : Pinion.cstring (buffer.bytes n) = some s := by
  obtain ⟨k, rfl⟩ : ∃ k, n = s.length + (k + 1) := ⟨n - s.length - 1, by omega⟩
  have hfirst : (List.range s.length).map buffer = s := by
    refine List.ext_getElem (by rw [List.length_map, List.length_range]) fun i _ hi => ?_
    rw [List.getElem_map, List.getElem_range]
    exact h.chars i hi
  rw [bytes, List.range_add, List.map_append, hfirst, List.range_succ_eq_map, List.map_cons,
    List.map_cons, Nat.add_zero, h.terminated]
  exact cstring_append h.inside _

/-! ### The loop -/

section Loop

variable {p : Printf} {r : List U8}

/-- The characters `r` are in `fmtbuffer`. -/
structure Pending (p : Printf) (r : List U8) : Prop where
  fbt : p.fbt = r.length
  chars : ∀ i (hi : i < r.length), p.fmtbuffer i = r[i]
  inside : (0 : U8) ∉ r

theorem Pending.nil (h : p.fbt = 0) : Pending p [] :=
  ⟨h, fun i hi => absurd hi (Nat.not_lt_zero i), List.not_mem_nil⟩

theorem Pending.put (h : Pending p r) {c : U8} (hc : c ≠ 0) (hlt : r.length < 100) :
    ∃ p', p.put c = .ok p' ∧ Pending p' (r ++ [c]) ∧ p'.out = p.out := by
  refine ⟨_, if_pos (by rw [h.fbt]; exact hlt), ⟨?_, fun i hi => ?_, ?_⟩, rfl⟩
  · rw [List.length_append, List.length_singleton, ← h.fbt]
  · rw [List.length_append, List.length_singleton] at hi
    rcases Nat.lt_succ_iff_lt_or_eq.mp hi with hi | rfl
    · rw [List.getElem_append_left hi, ← h.chars i hi]
      exact Function.update_of_ne (by rw [h.fbt]; omega) _ _
    · rw [List.getElem_append_right le_rfl, List.getElem_singleton, ← h.fbt]
      exact Function.update_self _ _ _
  · rw [List.mem_append, List.mem_singleton, not_or]
    exact ⟨h.inside, Ne.symm hc⟩

theorem Pending.flush (h : Pending p r) (hlt : r.length < 100) :
    ∃ p', p.flush = .ok p' ∧ Pending p' [] ∧ p'.out = p.out ++ onLine r := by
  have hholds : Buffer.Holds (Function.update p.fmtbuffer p.fbt 0) r := by
    refine ⟨fun i hi => ?_, ?_, h.inside⟩
    · rw [Function.update_of_ne (by rw [h.fbt]; omega)]
      exact h.chars i hi
    · rw [← h.fbt]
      exact Function.update_self _ _ _
  have hout := debugString_eq (Buffer.bytes (Function.update p.fmtbuffer p.fbt 0) 100) p.out
  rw [hholds.cstring hlt, Option.map_some, toOption_eq_some] at hout
  refine ⟨{ p with fmtbuffer := Function.update p.fmtbuffer p.fbt 0, fbt := 0
                   out := p.out ++ onLine r }, ?_, .nil rfl, rfl⟩
  rw [Printf.flush, if_pos (by rw [h.fbt]; exact hlt)]
  show (debugString _ p.out >>= _) = _
  rw [hout]
  rfl

theorem Pending.full (h : Pending p r) (hle : ¬r.length < 100) (c : U8) :
    p.put c = .error .overflow ∧ p.flush = .error .overflow :=
  ⟨if_neg (by rw [h.fbt]; exact hle), if_neg (by rw [h.fbt]; exact hle)⟩

/-- A number is printed, and its buffer is large enough. -/
theorem Printf.int_eq (p : Printf) (n : U32) {base : U32} (hbase : base = 10 ∨ base = 16) :
    ∃ buffer, p.int n base = .ok { p with
      buffer := buffer, out := p.out ++ onLine (numeral digitChar base.toNat n.toNat) } := by
  have hlow : 2 ≤ base.toNat := by rcases hbase with rfl | rfl <;> decide
  have hhigh : base.toNat ≤ 16 := by rcases hbase with rfl | rfl <;> decide
  obtain ⟨hrun, hlog⟩ := itoa_eq p.buffer (n := n) hlow hhigh
  have hcanonical := canonical_numeral (digitChar_distinct hhigh) hlow n.toNat
  have hlen : (numeral digitChar base.toNat n.toNat).length ≤ 12 := by
    have hn : n.toNat < base.toNat ^ 12 :=
      n.isLt.trans_le (by rcases hbase with rfl | rfl <;> decide)
    exact numeral_length_le hlow (by norm_num) hn
  have hall : (itoa p.buffer n base).log.all (· < 13) = true := by
    rw [List.all_eq_true]
    intro i hi
    exact decide_eq_true (by have := hlog i hi; omega)
  have hholds := Buffer.holds_numeral p.buffer hhigh hcanonical
  have hout := debugString_eq
    (Buffer.bytes (p.buffer.fill 0 (numeral digitChar base.toNat n.toNat ++ [0])) 13) p.out
  rw [hholds.cstring (by omega), Option.map_some, toOption_eq_some] at hout
  refine ⟨p.buffer.fill 0 (numeral digitChar base.toNat n.toNat ++ [0]), ?_⟩
  rw [Printf.int, if_pos hall, hrun]
  show (debugString _ p.out >>= _) = _
  rw [hout]
  rfl

/-- A directive sends a text, or goes wrong. -/
def Sends (p : Printf) (r : List U8) (x : Except PrintfStop (Printf × List Arg)) :
    Option (List U8 × List Arg) → Prop
  | some q => ∃ p', x = .ok (p', q.2) ∧ Pending p' r ∧ p'.out = p.out ++ onLine q.1
  | none => ∃ e, x = .error e

theorem Pending.sends_int (h : Pending p r) {base : U32} (hbase : base = 10 ∨ base = 16)
    (ap : List Arg) : Sends p r (argInt ap >>= fun q => do return (← p.int q.1 base, q.2))
      ((argInt ap).toOption.map fun q => (numeral digitChar base.toNat q.1.toNat, q.2)) := by
  cases argInt ap with
  | error e => exact ⟨e, rfl⟩
  | ok q =>
    obtain ⟨buffer, hok⟩ := p.int_eq q.1 hbase
    refine ⟨{ p with
      buffer := buffer, out := p.out ++ onLine (numeral digitChar base.toNat q.1.toNat) }, ?_,
      ⟨h.fbt, h.chars, h.inside⟩, rfl⟩
    show (p.int q.1 base >>= _) = _
    rw [hok]
    rfl

theorem Pending.sends_str (h : Pending p r) (ap : List Arg) :
    Sends p r (argStr ap >>= fun q => do return ({ p with out := ← debugString q.1 p.out }, q.2))
      ((argStr ap).toOption.bind fun q => (cstring q.1).map (·, q.2)) := by
  cases argStr ap with
  | error e => exact ⟨e, rfl⟩
  | ok q =>
    have hout := debugString_eq q.1 p.out
    show Sends p r (debugString q.1 p.out >>= _) ((cstring q.1).map (·, q.2))
    cases hs : cstring q.1 with
    | none =>
      rw [hs, Option.map_none] at hout
      cases hd : debugString q.1 p.out with
      | error e => exact ⟨e, rfl⟩
      | ok out =>
        rw [hd] at hout
        cases hout
    | some t =>
      rw [hs, Option.map_some, toOption_eq_some] at hout
      rw [hout]
      exact ⟨{ p with out := p.out ++ onLine t }, rfl, ⟨h.fbt, h.chars, h.inside⟩, rfl⟩

/-- What a directive does. -/
theorem Pending.directive (h : Pending p r) (y : U8) (ap : List Arg) :
    Sends p r (printfDirective y ap p) (debugWant y ap) := by
  unfold debugWant printfDirective
  by_cases h1 : y = 0x78 ∨ y = 0x58
  · rw [if_pos h1, if_pos h1]
    exact h.sends_int (Or.inr rfl) ap
  rw [if_neg h1, if_neg h1]
  by_cases h2 : y = 0x64 ∨ y = 0x69
  · rw [if_pos h2, if_pos h2]
    exact h.sends_int (Or.inl rfl) ap
  rw [if_neg h2, if_neg h2]
  by_cases h3 : y = 0x73
  · rw [if_pos h3, if_pos h3]
    exact h.sends_str ap
  rw [if_neg h3, if_neg h3]
  by_cases h4 : y = 0x63
  · rw [if_pos h4, if_pos h4]
    cases argInt ap with
    | error e => exact ⟨e, rfl⟩
    | ok q =>
      exact ⟨_, rfl, ⟨h.fbt, h.chars, h.inside⟩, debugChar_eq (q.1.setWidth 8) p.out⟩
  rw [if_neg h4, if_neg h4]
  by_cases h5 : y = 0x25
  · rw [if_pos h5, if_pos h5]
    exact ⟨_, rfl, ⟨h.fbt, h.chars, h.inside⟩, debugChar_eq 0x25 p.out⟩
  · rw [if_neg h5, if_neg h5]
    exact ⟨p, rfl, h, (List.append_nil _).symm⟩

/-- What is sent of the pieces `ps`, with `k` characters in the buffer already. -/
def printed (k : ℕ) (ps : List (Piece U8)) (ap : List Arg) : Option (List U8) :=
  if longest k ps < 100 then debugText ps ap else none

/-- With `fmtbuffer` full, the next character or the terminator does not fit. -/
theorem printed_full {k : ℕ} (hk : ¬k < 100) (ps : List (Piece U8)) (ap : List Arg) :
    printed k ps ap = none :=
  if_neg fun hlong => hk ((le_longest ps k).trans_lt hlong)

theorem printed_text (k : ℕ) (x : U8) (ps : List (Piece U8)) (ap : List Arg) :
    printed k (.text x :: ps) ap = (printed (k + 1) ps ap).map (x :: ·) := by
  rw [printed, printed, longest, debugText]
  split <;> rfl

theorem printed_directive {k : ℕ} (hk : k < 100) (y : U8) (ps : List (Piece U8)) (ap : List Arg) :
    printed k (.directive y :: ps) ap =
      (debugWant y ap).bind fun q => (printed 0 ps q.2).map (q.1 ++ ·) := by
  by_cases hps : longest 0 ps < 100
  · rw [printed, longest, if_pos (max_lt hk hps), debugText]
    simp only [printed, if_pos hps]
  · rw [printed, longest, if_neg fun hlong => hps (max_lt_iff.mp hlong).2]
    simp only [printed, if_neg hps, Option.map_none, Option.bind_fun_none]

/-- At the terminator the rest of the characters is sent. -/
theorem Pending.flush_eq (h : Pending p r) (ap : List Arg) :
    p.flush.toOption.map Printf.out =
      (printed r.length [] ap).map fun s => p.out ++ onLine (r ++ s) := by
  by_cases hlt : r.length < 100
  · obtain ⟨p', hok, -, hout⟩ := h.flush hlt
    rw [hok, printed, longest, if_pos hlt, debugText, Option.map_some, List.append_nil, ← hout]
    rfl
  · rw [(h.full hlt 0).2, printed_full hlt]
    rfl

/-- **The loop and what follows it.** -/
theorem printfLoop_eq (format : List U8) (ap : List Arg) (h : Pending p r) :
    (printfLoop format ap p >>= Printf.flush).toOption.map Printf.out =
      ((pieces 0 0x25 format).bind fun ps => printed r.length ps ap).map
        fun s => p.out ++ onLine (r ++ s) := by
  induction format using pieces.induct (0 : U8) (0x25 : U8) generalizing ap p r with
  | case1 => rfl
  | case2 => exact h.flush_eq ap
  | case3 x hx =>
    -- no terminator: the loop leaves the array
    rw [pieces, if_neg hx, printfLoop, if_neg hx]
    by_cases hp : x = 0x25
    · rw [if_pos hp]
      cases p.flush <;> rfl
    · rw [if_neg hp]
      cases p.put x <;> rfl
  | case4 y format => exact h.flush_eq ap
  | case5 y format h0 ih =>
    rw [pieces, if_neg h0, if_pos rfl, printfLoop, if_neg h0, if_pos rfl]
    by_cases hlt : r.length < 100
    · obtain ⟨p₁, hflush, hpend, hout₁⟩ := h.flush hlt
      have hdir := hpend.directive y ap
      rw [hflush]
      show ((printfDirective y ap p₁ >>= fun q => printfLoop format q.2 q.1) >>=
        Printf.flush).toOption.map Printf.out = _
      cases hw : debugWant y ap with
      | none =>
        rw [hw] at hdir
        obtain ⟨e, he⟩ := hdir
        rw [he]
        cases pieces 0 0x25 format with
        | none => rfl
        | some ps =>
          show none = (printed r.length (.directive y :: ps) ap).map _
          rw [printed_directive hlt, hw]
          rfl
      | some q =>
        rw [hw] at hdir
        obtain ⟨p₂, hok, hpend₂, hout₂⟩ := hdir
        rw [hok]
        refine (ih q.2 hpend₂).trans ?_
        cases pieces 0 0x25 format with
        | none => rfl
        | some ps =>
          show (printed 0 ps q.2).map _ = (printed r.length (.directive y :: ps) ap).map _
          rw [printed_directive hlt, hw, Option.bind_some, Option.map_map, hout₂, hout₁]
          congr 1
          funext s
          simp only [Function.comp_apply, onLine_append, List.append_assoc, List.nil_append]
    · rw [(h.full hlt 0).2]
      cases pieces 0 0x25 format with
      | none => rfl
      | some ps =>
        show none = (printed r.length (.directive y :: ps) ap).map _
        rw [printed_full hlt]
        rfl
  | case6 x y format h0 hx ih =>
    rw [pieces, if_neg h0, if_neg hx, printfLoop, if_neg h0, if_neg hx]
    by_cases hlt : r.length < 100
    · obtain ⟨p', hput, hpend, hout⟩ := h.put h0 hlt
      rw [hput]
      refine (ih ap hpend).trans ?_
      cases pieces 0 0x25 (y :: format) with
      | none => rfl
      | some ps =>
        show (printed (r ++ [x]).length ps ap).map _ = (printed r.length (.text x :: ps) ap).map _
        rw [printed_text, Option.map_map, List.length_append, List.length_singleton, hout]
        congr 1
        funext s
        rw [Function.comp_apply, List.append_assoc]
        rfl
    · rw [(h.full hlt x).1]
      cases pieces 0 0x25 (y :: format) with
      | none => rfl
      | some ps =>
        show none = (printed r.length (.text x :: ps) ap).map _
        rw [printed_full hlt]
        rfl

end Loop

/-! ### What is sent -/

theorem debugPrintf_eq (fmtbuffer buffer : Buffer) (format : List U8) (ap : List Arg) :
    (debugPrintf fmtbuffer buffer format ap).toOption =
      ((pieces 0 0x25 format).bind fun ps => printed 0 ps ap).map onLine := by
  have hstart : Pending ⟨fmtbuffer, 0, buffer, []⟩ [] := .nil rfl
  have hloop := printfLoop_eq format ap hstart
  simp only [List.nil_append] at hloop
  refine Eq.trans ?_ hloop
  unfold debugPrintf
  cases printfLoop format ap ⟨fmtbuffer, 0, buffer, []⟩ with
  | error e => rfl
  | ok p =>
    show (p.flush >>= _).toOption = p.flush.toOption.map _
    cases p.flush <;> rfl

/-- **When `debug_printf` returns, and what it sends**: the format ends outside of a directive, has
no hundred characters in a row, and gets the arguments it asks for; and what is sent is its text,
with a carriage return after every line feed. -/
theorem debug_printf_returns (fmtbuffer buffer : Buffer) (format : List U8) (ap : List Arg)
    (out : List U8) :
    debugPrintf fmtbuffer buffer format ap = .ok out ↔
      ∃ ps s, pieces 0 0x25 format = some ps ∧ (∀ l, l <:+: ps → Plain l → l.length < 100) ∧
        debugText ps ap = some s ∧ out = onLine s := by
  rw [← toOption_eq_some, debugPrintf_eq]
  cases pieces 0 0x25 format with
  | none =>
    constructor
    · intro h
      cases h
    · rintro ⟨ps, s, hps, -⟩
      cases hps
  | some ps =>
    show (printed 0 ps ap).map onLine = some out ↔ _
    rw [printed, Option.map_eq_some_iff]
    constructor
    · rintro ⟨s, hs, rfl⟩
      split at hs
      · rename_i hlong
        exact ⟨ps, s, rfl, (longest_lt_iff ps).mp hlong, hs, rfl⟩
      · cases hs
    · rintro ⟨_, s, ⟨⟩, hlong, hs, rfl⟩
      exact ⟨s, by rw [if_pos ((longest_lt_iff ps).mpr hlong), hs], rfl⟩

/-- `"Kernel panic: %s\n"`. -/
def panicFormat : List U8 :=
  [0x4B, 0x65, 0x72, 0x6E, 0x65, 0x6C, 0x20, 0x70, 0x61, 0x6E, 0x69, 0x63, 0x3A, 0x20, 0x25, 0x73,
    0x0A, 0]

/-- `debug_panic`, up to `cpu_halt`. -/
def debugPanic (fmtbuffer buffer : Buffer) (message : List U8) : Except PrintfStop (List U8) :=
  debugPrintf fmtbuffer buffer panicFormat [.str message]

/-- **A panic is printed in full**, whatever the message. -/
theorem debug_panic_prints (fmtbuffer buffer : Buffer) {s : List U8} (hs : 0 ∉ s)
    (rest : List U8) :
    debugPanic fmtbuffer buffer (s ++ 0 :: rest) =
      .ok (panicFormat.take 14 ++ onLine s ++ [0x0A, 0x0D]) := by
  rw [← toOption_eq_some, debugPanic, debugPrintf_eq]
  have hpieces : pieces 0 0x25 panicFormat =
      some ((panicFormat.take 14).map .text ++ [.directive 0x73, .text 0x0A]) := by decide
  have htext : debugText ((panicFormat.take 14).map .text ++ [.directive 0x73, .text 0x0A])
      [.str (s ++ 0 :: rest)] = some (panicFormat.take 14 ++ (s ++ [0x0A])) := by
    have hdir : debugText [.directive 0x73, .text 0x0A] [.str (s ++ 0 :: rest)] =
        some (s ++ [0x0A]) := by
      rw [debugText, debugWant, if_neg (by decide), if_neg (by decide), if_pos rfl]
      show ((cstring (s ++ 0 :: rest)).map _).bind _ = _
      rw [cstring_append hs]
      rfl
    have htexts : ∀ (t : List U8) (ps : List (Piece U8)) (ap : List Arg),
        debugText (t.map .text ++ ps) ap = (debugText ps ap).map (t ++ ·) := by
      intro t ps ap
      induction t with
      | nil => exact Option.map_id'.symm
      | cons c t ih =>
        rw [List.map_cons, List.cons_append, debugText, ih, Option.map_map]
        rfl
    rw [htexts, hdir]
    rfl
  rw [hpieces, Option.bind_some, printed, if_pos (by decide), htext, Option.map_some,
    onLine_append, onLine_append, List.append_assoc]
  rfl

/-- A message of one letter. -/
theorem debug_panic_prints_letter : debugPanic (fun _ => 0) (fun _ => 0) [0x78, 0] =
    .ok (panicFormat.take 14 ++ [0x78, 0x0A, 0x0D]) :=
  debug_panic_prints (s := [0x78]) (fun _ => 0) (fun _ => 0) (by decide) []

end Pinion
