/-
The keyboard thread of the system layer, `keyboard` in `init.c`.

After every interrupt the thread reads a scan code: the number of a key, with bit 7
set when the key goes up.  Two of its three flags are set by the press and cleared by
the release of a key, the third one changes with each press of caps lock; the flags
choose one of four tables.  There are two shift keys, and the release of either clears
the flag.  The keys of the flags are the same ones in all four tables, so that the flags
follow from the scan codes alone, and every other code is logged.

* `keymap`, `keyboard` — the embedding, one turn of the loop after another;
* `modifiers` — the flags, from the history;
* `keyTokens` — what the log says of a scan code, with the flags of its time;
* `keyboard_shows` — the flags and the screen after any scan codes.
-/
import Pinion.Log

open Numerals Terminal

namespace Pinion

/-! ### The embedding -/

def ALT : U32 := 0x00800000
def CTRL : U32 := 0x00800001
def SHFT : U32 := 0x00800002
def SYSR : U32 := 0x00800003
def WIN : U32 := 0x00800004
def CAPS : U32 := 0x00800005
def INS : U32 := 0x00800006
def UP : U32 := 0x00800008
def DOWN : U32 := 0x00800009
def LEFT : U32 := 0x0080000A
def RGHT : U32 := 0x0080000B
def PGUP : U32 := 0x0080000C
def PGDN : U32 := 0x0080000D
def HOME : U32 := 0x0080000E
def END : U32 := 0x0080000F
def ESC : U32 := 0x00800010

/-- `F1` to `F12`. -/
def FKEY (n : ℕ) : U32 := 0x00800010 + BitVec.ofNat 32 n

def NUML : U32 := 0x0080001D
def SCRL : U32 := 0x0080001E
def DEL : U32 := 0x0080001F

/-- Keys of characters. -/
def keys (text : List Char) : List U32 := text.map fun c => BitVec.ofNat 32 c.toNat

/-- `F1` to `F10`, and the locks. -/
def functionKeys : List U32 := (List.range 10).map (fun n => FKEY (n + 1)) ++ [NUML, SCRL]

/-- The keys before those, in the first two tables. -/
def lowerKeys : List U32 :=
  [0, ESC] ++ keys ['1', '2', '3', '4', '5', '6', '7', '8', '9', '0', '-', '='] ++ [8] ++
    [9] ++ keys ['q', 'w', 'e', 'r', 't', 'y', 'u', 'i', 'o', 'p', '[', ']'] ++ [10] ++
    [CTRL] ++ keys ['a', 's', 'd', 'f', 'g', 'h', 'j', 'k', 'l', ';'] ++ [0x27, 0x60, SHFT] ++
    [0x5C] ++ keys ['z', 'x', 'c', 'v', 'b', 'n', 'm', ',', '.', '/'] ++ [SHFT] ++ keys ['*'] ++
    [ALT] ++ keys [' '] ++ [CAPS]

/-- The same keys in the last two tables. -/
def upperKeys : List U32 :=
  [0, ESC] ++ keys ['!', '@', '#', '$', '%', '^', '&', '*', '(', ')', '_', '+'] ++ [8] ++
    [9] ++ keys ['Q', 'W', 'E', 'R', 'T', 'Y', 'U', 'I', 'O', 'P'] ++ [0x7B, 0x7D, 10] ++
    [CTRL] ++ keys ['A', 'S', 'D', 'F', 'G', 'H', 'J', 'K', 'L', ':'] ++ [0x22, 0x7E, SHFT] ++
    [0x7C] ++ keys ['Z', 'X', 'C', 'V', 'B', 'N', 'M', '<', '>', '?'] ++ [SHFT] ++ keys ['*'] ++
    [ALT] ++ keys [' '] ++ [CAPS]

def padKeys : List U32 :=
  [HOME, UP, PGUP] ++ keys ['-'] ++ [LEFT, 5, RGHT] ++ keys ['+'] ++ [END, DOWN, PGDN, INS, DEL]

def numlockKeys : List U32 :=
  [7, 8, 9] ++ keys ['-'] ++ [4, 5, 6] ++ keys ['+'] ++ [1, 2, 3, 0] ++ keys ['.']

def lastKeys : List U32 := [SYSR, 0, WIN, FKEY 11, FKEY 12, 0, 0, WIN, WIN]

/-- `keymap`; what the initialisers leave out is zero. -/
def keymap : List (List U32) :=
  [lowerKeys ++ functionKeys ++ padKeys, lowerKeys ++ functionKeys ++ numlockKeys,
    upperKeys ++ functionKeys ++ padKeys, upperKeys ++ functionKeys ++ numlockKeys].map
      fun row => row ++ lastKeys ++ List.replicate 35 0

/-- The static variables of `keyboard`. -/
structure Modifiers where
  shift : Bool
  caps : Bool
  numlk : Bool

/-- `keymap[((shift ^ caps) ? 2 : 0) | ((numlk) ? 1 : 0)][scan & ~0x80]`. -/
def keyCode (m : Modifiers) (scan : U8) : Except Overrun U32 :=
  let row := (if (m.shift ^^ m.caps) then 2 else 0) ||| (if m.numlk then 1 else 0)
  match (keymap[row]?).bind fun codes => codes[(scan &&& ~~~0x80).toNat]? with
  | some code => .ok code
  | none => .error .overrun

/-- A literal, with its terminator. -/
def literal (s : String) : List U8 := (s.toList.map fun c => BitVec.ofNat 8 c.toNat) ++ [0]

structure Keyboard where
  modifiers : Modifiers
  logger : Logger

/-- One turn of the loop, with the byte from port 0x60. -/
def keyboard (k : Keyboard) (scan : U8) : Except Overrun Keyboard :=
  if scan = 0xE0 then .ok k
  else do
    let code ← keyCode k.modifiers scan
    if scan &&& 0x80 ≠ 0 then
      if code = SHFT then return { k with modifiers.shift := false }
      else if code = NUML then return { k with modifiers.numlk := false }
      else do
        let logger ← log 3 (literal "keyboard") 180 (literal "key release\t%c") [.int code] k.logger
        return { k with logger := logger }
    else if code = SHFT then return { k with modifiers.shift := true }
    else if code = CAPS then return { k with modifiers.caps := k.modifiers.caps ^^ true }
    else if code = NUML then return { k with modifiers.numlk := true }
    else do
      let logger ← log 3 (literal "keyboard") 189 (literal "key press\t%c") [.int code] k.logger
      return { k with logger := logger }

/-! ### The flags -/

/-- The last code of these keys was a press. -/
def held (keys : List U8) (h : List U8) : Bool :=
  match h.reverse.find? fun scan => keys.contains (scan &&& 0x7F) with
  | some scan => scan &&& 0x80 = 0
  | none => false

/-- The flags after the scan codes `h`: the shift keys are 0x2A and 0x36, caps lock is 0x3A, and
num lock is 0x45.  After 0x2A, 0x36 and 0xAA the right shift key is down and the flag is clear. -/
def modifiers (h : List U8) : Modifiers where
  shift := held [0x2A, 0x36] h
  caps := h.count 0x3A % 2 = 1
  numlk := held [0x45] h

/-- The code at `key` is that of the flag the key belongs to, if any. -/
def FlagCode (key : ℕ) (code : U32) : Prop :=
  (code = SHFT ↔ key = 0x2A ∨ key = 0x36) ∧ (code = CAPS ↔ key = 0x3A) ∧ (code = NUML ↔ key = 0x45)

instance (key : ℕ) (code : U32) : Decidable (FlagCode key code) :=
  inferInstanceAs (Decidable ((code = SHFT ↔ key = 0x2A ∨ key = 0x36) ∧
    (code = CAPS ↔ key = 0x3A) ∧ (code = NUML ↔ key = 0x45)))

/-- The tables have all keys, and those of the flags at the same places. -/
theorem keymap_spec : ∀ row < 4, ∀ key < 128,
    ((keymap[row]?).bind fun codes => codes[key]?).any fun code => FlagCode key code := by
  decide +kernel

/-- Bit 7 of a scan code, and the key. -/
theorem scan_bits : ∀ scan : U8, (scan &&& ~~~0x80).toNat < 128 ∧
    (scan &&& 0x7F = 0x2A ↔ (scan &&& ~~~0x80).toNat = 0x2A) ∧
    (scan &&& 0x7F = 0x36 ↔ (scan &&& ~~~0x80).toNat = 0x36) ∧
    (scan &&& 0x7F = 0x45 ↔ (scan &&& ~~~0x80).toNat = 0x45) ∧
    (scan = 0x3A ↔ (scan &&& ~~~0x80).toNat = 0x3A ∧ scan &&& 0x80 = 0) := by
  decide +kernel

/-- Every scan code has a code, and those of the flags do not depend on the table. -/
theorem keyCode_spec (m : Modifiers) (scan : U8) : ∃ code, keyCode m scan = .ok code ∧
    (code = SHFT ↔ scan &&& 0x7F ∈ [0x2A, 0x36]) ∧ (code = NUML ↔ scan &&& 0x7F ∈ [0x45]) ∧
    (code = CAPS ∧ scan &&& 0x80 = 0 ↔ scan = 0x3A) := by
  obtain ⟨hlt, hleft, hright, hnuml, hcaps⟩ := scan_bits scan
  have hrow : (if (m.shift ^^ m.caps) then 2 else 0) ||| (if m.numlk then 1 else 0) < 4 := by
    cases m.shift <;> cases m.caps <;> cases m.numlk <;> decide
  have hspec := keymap_spec _ hrow _ hlt
  rw [Option.any_eq_true] at hspec
  obtain ⟨code, hcode, hflag⟩ := hspec
  obtain ⟨hs, hc, hn⟩ := of_decide_eq_true hflag
  refine ⟨code, ?_, ?_, ?_, ?_⟩
  · simp only [keyCode, hcode]
  · rw [hs, List.mem_cons, List.mem_singleton, hleft, hright]
  · rw [hn, List.mem_singleton, hnuml]
  · rw [hc, hcaps]

theorem held_concat (keys h : List U8) (scan : U8) : held keys (h ++ [scan]) =
    if scan &&& 0x7F ∈ keys then decide (scan &&& 0x80 = 0) else held keys h := by
  unfold held
  rw [List.reverse_append, List.reverse_singleton, List.singleton_append, List.find?_cons]
  by_cases hmem : scan &&& 0x7F ∈ keys
  · rw [if_pos hmem, List.contains_iff_mem.mpr hmem]
  · rw [if_neg hmem, Bool.eq_false_iff.mpr (mt List.contains_iff_mem.mp hmem)]

/-! ### The lines -/

/-- The characters of a text. -/
def chars (s : String) : List Token := s.toList.map fun c => .char (BitVec.ofNat 8 c.toNat)

/-- A line of the log. -/
def keyLine (line : U32) (text : String) (code : U32) : List Token :=
  .color 7 :: chars "keyboard " ++ (numeral digitChar 10 line.toNat).map .char ++ chars ":\t" ++
    .color 7 :: (chars text ++ [.char (code.setWidth 8)]) ++ [.char 0x0A, .color 7]

/-- What is logged of a scan code. -/
def keyTokens (m : Modifiers) (scan : U8) : List Token :=
  if scan = 0xE0 ∨ ([0x2A, 0x36, 0x45] : List U8).contains (scan &&& 0x7F) ∨ scan = 0x3A then []
  else
    match keyCode m scan with
    | .ok code =>
      if scan &&& 0x80 = 0 then keyLine 189 "key press\t" code else keyLine 180 "key release\t" code
    | .error _ => []

/-- What is logged of scan codes one after the other. -/
def typed (h : List U8) : List Token :=
  (List.range h.length).flatMap fun i => keyTokens (modifiers (h.take i)) (h.getD i 0)

theorem spellInt_line {line : U32} (hline : line = 189 ∨ line = 180) :
    spellInt line = some (numeral digitChar 10 line.toNat) := by
  rcases hline with rfl | rfl
  · rw [spellInt, if_neg (by decide), if_neg (by decide)]
    rfl
  · rw [spellInt, if_neg (by decide), if_neg (by decide)]
    rfl

/-- The two calls of `log`. -/
theorem log_key {line : U32} {text : String} (code : U32)
    (hline : line = 189 ∧ text = "key press\t" ∨ line = 180 ∧ text = "key release\t") :
    (LogCall.log 3 (literal "keyboard") line (literal (text ++ "%c")) [.int code]).tokens =
      some (keyLine line text code) := by
  have hname : spell (literal "keyboard") = some (chars "keyboard") := by
    refine (spell_literal _ (by decide)).trans ?_
    rw [chars, List.map_map]
    rfl
  have hint := spellInt_line (hline.imp And.left And.left)
  have hmessage : message (literal (text ++ "%c")) [.int code] =
      some (chars text ++ [.char (code.setWidth 8)]) := by
    rcases hline with ⟨-, rfl⟩ | ⟨-, rfl⟩ <;> rfl
  rw [LogCall.tokens, if_neg (by decide), place, if_pos (by decide), hname, hint, hmessage, keyLine]
  generalize numeral digitChar 10 line.toNat = digits
  rfl

/-! ### Runs -/

section Runs

variable {mem : ℕ → U16}

/-- The log after a key. -/
theorem log_key_shows {line : U32} {text : String} (code : U32)
    (hline : line = 189 ∧ text = "key press\t" ∨ line = 180 ∧ text = "key release\t") {l : Logger}
    {r : Roll} (hl : l.setup = true) (hr : OnScreen mem l.console r) :
    ∃ l', log 3 (literal "keyboard") line (literal (text ++ "%c")) [.int code] l = .ok l' ∧
      l'.setup = true ∧ OnScreen mem l'.console (r.type (keyLine line text code)) := by
  obtain ⟨f, hf, hrun⟩ := LogCall.run_spells
    (.log 3 (literal "keyboard") line (literal (text ++ "%c")) [.int code])
  rw [log_key code hline] at hf
  obtain ⟨c, hc, hon⟩ := hf mem l.console r hr
  refine ⟨⟨true, c⟩, ?_, rfl, hon⟩
  have hlog := hrun l hl
  rw [hc] at hlog
  exact hlog

/-- The flags after one more scan code. -/
theorem modifiers_concat (h : List U8) (scan : U8) : modifiers (h ++ [scan]) =
    ⟨if scan &&& 0x7F ∈ [0x2A, 0x36] then decide (scan &&& 0x80 = 0) else (modifiers h).shift,
      if scan = 0x3A then (modifiers h).caps ^^ true else (modifiers h).caps,
      if scan &&& 0x7F ∈ [0x45] then decide (scan &&& 0x80 = 0) else (modifiers h).numlk⟩ := by
  have hcount : (h ++ [scan]).count 0x3A = h.count 0x3A + if scan = 0x3A then 1 else 0 := by
    rw [List.count_append, List.count_singleton]
    by_cases hs : scan = 0x3A
    · rw [if_pos hs, if_pos (beq_iff_eq.mpr hs)]
    · rw [if_neg hs, if_neg (fun h => hs (beq_iff_eq.mp h))]
  simp only [modifiers, held_concat, hcount]
  congr 1
  by_cases hs : scan = 0x3A
  · simp only [if_pos hs]
    rcases Nat.mod_two_eq_zero_or_one (h.count 0x3A) with hpar | hpar
    · rw [Nat.add_mod, hpar]
      rfl
    · rw [Nat.add_mod, hpar]
      rfl
  · simp only [if_neg hs, Nat.add_zero]

/-- **One scan code.** -/
theorem keyboard_step {k : Keyboard} {h : List U8} {r : Roll} (hk : k.modifiers = modifiers h)
    (hl : k.logger.setup = true) (hr : OnScreen mem k.logger.console r) (scan : U8) :
    ∃ k', keyboard k scan = .ok k' ∧ k'.modifiers = modifiers (h ++ [scan]) ∧
      k'.logger.setup = true ∧
      OnScreen mem k'.logger.console (r.type (keyTokens (modifiers h) scan)) := by
  obtain ⟨code, hcode, hshift, hnuml, hcaps⟩ := keyCode_spec k.modifiers scan
  have hflags := modifiers_concat h scan
  obtain ⟨m, l⟩ := k
  obtain rfl : m = modifiers h := hk
  have hmem : ([0x2A, 0x36, 0x45] : List U8).contains (scan &&& 0x7F) ↔
      code = SHFT ∨ code = NUML := by
    rw [hshift, hnuml, List.contains_iff_mem]
    simp only [List.mem_cons, List.mem_nil_iff, or_false, or_assoc]
  simp only [← hshift, ← hnuml] at hflags
  by_cases hskip : scan = 0xE0
  · -- the prefix of a key is skipped, and belongs to no flag
    subst hskip
    have hs : code ≠ SHFT := fun h => absurd (hshift.mp h) (by decide)
    have hn : code ≠ NUML := fun h => absurd (hnuml.mp h) (by decide)
    rw [if_neg hs, if_neg hn, if_neg (by decide)] at hflags
    refine ⟨⟨modifiers h, l⟩, if_pos rfl, hflags.symm, hl, ?_⟩
    rw [keyTokens, if_pos (.inl rfl)]
    exact hr
  rw [keyboard, if_neg hskip, hcode, hflags]
  show ∃ k', (if scan &&& 0x80 ≠ 0 then _ else _ : Except Overrun Keyboard) = .ok k' ∧ _
  by_cases hpress : scan &&& 0x80 = 0
  · -- a press: one of the three flags, or a line
    rw [if_neg (not_not.mpr hpress), decide_eq_true hpress]
    by_cases hs : code = SHFT
    · have hn : code ≠ NUML := fun h => absurd (hs.symm.trans h) (by decide)
      have hc : scan ≠ 0x3A := fun h => absurd (hs.symm.trans (hcaps.mpr h).1) (by decide)
      rw [if_pos hs, if_pos hs, if_neg hc, if_neg hn, keyTokens,
        if_pos (.inr (.inl (hmem.mpr (.inl hs))))]
      exact ⟨_, rfl, rfl, hl, hr⟩
    rw [if_neg hs, if_neg hs]
    by_cases hc : scan = 0x3A
    · have hn : code ≠ NUML := fun h => absurd ((hcaps.mpr hc).1.symm.trans h) (by decide)
      rw [if_pos (hcaps.mpr hc).1, if_pos hc, if_neg hn, keyTokens, if_pos (.inr (.inr hc))]
      exact ⟨_, rfl, rfl, hl, hr⟩
    rw [if_neg fun h => hc (hcaps.mp ⟨h, hpress⟩), if_neg hc]
    by_cases hn : code = NUML
    · rw [if_pos hn, if_pos hn, keyTokens, if_pos (.inr (.inl (hmem.mpr (.inr hn))))]
      exact ⟨_, rfl, rfl, hl, hr⟩
    · obtain ⟨l', hlog, hsetup, hon⟩ := log_key_shows code (.inl ⟨rfl, rfl⟩) hl hr
      have hlog' : log 3 (literal "keyboard") 189 (literal "key press\t%c") [.int code] l =
        .ok l' := hlog
      rw [if_neg hn, if_neg hn, hlog', keyTokens,
        if_neg (by rw [hmem]; simp only [hskip, hs, hn, hc, or_self, not_false_iff]), hcode]
      simp only [if_pos hpress]
      exact ⟨_, rfl, rfl, hsetup, hon⟩
  · -- a release, which caps lock has no case for
    have hc : scan ≠ 0x3A := fun h => hpress (hcaps.mpr h).2
    rw [if_pos hpress, decide_eq_false hpress, if_neg hc]
    by_cases hs : code = SHFT
    · have hn : code ≠ NUML := fun h => absurd (hs.symm.trans h) (by decide)
      rw [if_pos hs, if_pos hs, if_neg hn, keyTokens, if_pos (.inr (.inl (hmem.mpr (.inl hs))))]
      exact ⟨_, rfl, rfl, hl, hr⟩
    rw [if_neg hs, if_neg hs]
    by_cases hn : code = NUML
    · rw [if_pos hn, if_pos hn, keyTokens, if_pos (.inr (.inl (hmem.mpr (.inr hn))))]
      exact ⟨_, rfl, rfl, hl, hr⟩
    · obtain ⟨l', hlog, hsetup, hon⟩ := log_key_shows code (.inr ⟨rfl, rfl⟩) hl hr
      have hlog' : log 3 (literal "keyboard") 180 (literal "key release\t%c") [.int code] l =
        .ok l' := hlog
      rw [if_neg hn, if_neg hn, hlog', keyTokens,
        if_neg (by rw [hmem]; simp only [hskip, hs, hn, hc, or_self, not_false_iff]), hcode]
      simp only [if_neg hpress]
      exact ⟨_, rfl, rfl, hsetup, hon⟩

theorem typed_concat (h : List U8) (scan : U8) :
    typed (h ++ [scan]) = typed h ++ keyTokens (modifiers h) scan := by
  unfold typed
  rw [List.length_append, List.length_singleton, List.range_succ, List.flatMap_append,
    List.flatMap_singleton, List.take_left, List.getD_append_right _ _ _ _ le_rfl, Nat.sub_self]
  congr 1
  refine List.flatMap_congr fun i hi => ?_
  have hlt : i < h.length := List.mem_range.mp hi
  rw [List.take_append_of_le_length hlt.le, List.getD_append _ _ _ _ hlt]

/-- **The keyboard thread**: whatever is typed, the flags are those of the last codes of the shift
keys and num lock and of the number of times caps lock was pressed, and every other key has a line
on the screen, with the code it has under the flags of its time. -/
theorem keyboard_shows {k : Keyboard} {r : Roll} (hk : k.modifiers = ⟨false, false, false⟩)
    (hl : k.logger.setup = true) (hr : OnScreen mem k.logger.console r) (h : List U8) :
    ∃ k', h.foldlM keyboard k = .ok k' ∧ k'.modifiers = modifiers h ∧
      OnScreen mem k'.logger.console (r.type (typed h)) := by
  have hrun : ∃ k', h.foldlM keyboard k = .ok k' ∧ k'.modifiers = modifiers h ∧
      k'.logger.setup = true ∧ OnScreen mem k'.logger.console (r.type (typed h)) := by
    induction h using List.reverseRecOn with
    | nil => exact ⟨k, rfl, hk, hl, hr⟩
    | append_singleton h scan ih =>
      obtain ⟨k₁, hrun, hm, hsetup, hon⟩ := ih
      obtain ⟨k', hstep, hm', hsetup', hon'⟩ := keyboard_step hm hsetup hon scan
      refine ⟨k', ?_, hm', hsetup', ?_⟩
      · rw [List.foldlM_append, hrun]
        show List.foldlM keyboard k₁ [scan] = _
        rw [List.foldlM_cons, hstep]
        rfl
      · rw [typed_concat, show r.type (typed h ++ keyTokens (modifiers h) scan) =
          (r.type (typed h)).type (keyTokens (modifiers h) scan) from List.foldl_append]
        exact hon'
  obtain ⟨k', hrun, hm, -, hon⟩ := hrun
  exact ⟨k', hrun, hm, hon⟩

end Runs

/-- A key is pressed after shift. -/
theorem keyboard_shows_shift : ∃ k', [0x2A, 0x1E].foldlM keyboard
    ⟨⟨false, false, false⟩, initLog ⟨false, ⟨fun _ => 0, 0, 0x0F00, ⟨0, fun _ => 0⟩⟩⟩⟩ = .ok k' ∧
      k'.modifiers.shift = true := by
  obtain ⟨k', hrun, hm, -⟩ := keyboard_shows (k := ⟨⟨false, false, false⟩,
    initLog ⟨false, ⟨fun _ => 0, 0, 0x0F00, ⟨0, fun _ => 0⟩⟩⟩⟩) rfl rfl (clear_onScreen _)
    [0x2A, 0x1E]
  exact ⟨k', hrun, by rw [hm]; decide⟩

end Pinion
