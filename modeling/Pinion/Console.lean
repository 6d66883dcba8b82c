/-
The console of the system layer, `monitor.c`.

`printc` writes to the text screen at `VIDMEM`, and `scroll` moves its lines up.  What has been
printed stands on a roll of paper, of which the screen shows the last 25 lines, and the cursor of
the display controller is where the next character goes.  Strings may hold escape sequences that set
the colour; they are read without a look at the terminator.

* `Console`, `printc`, `prints`, `printx`, `printd`, `printp` — the embedding;
* `Roll`, `Token` — the roll, and what is typed on it;
* `OnScreen` — the screen and the controller show the roll, and no other memory was written;
* `Prints` — what a function types, or that it reads outside of an array;
* `spell`, `prints_spells` — the characters and the colours of a string;
* `printx_spells`, `printd_spells`, `printp_spells` — the numerals.
-/
import Pinion.Terminal
import Pinion.Itoa

open Numerals Terminal

namespace Pinion

/-! ### The embedding -/

/-- A read outside of the array that holds the data. -/
inductive Overrun
  | overrun
  deriving DecidableEq, Repr

/-- The display controller: an index register, and the registers behind it. -/
structure Crtc where
  index : U8
  reg : U8 → U8

def Crtc.outb (d : Crtc) (port : U16) (value : U8) : Crtc :=
  if port = 0x3D4 then { d with index := value }
  else if port = 0x3D5 then { d with reg := Function.update d.reg d.index value }
  else d

/-- `VIDMEM` and what lies behind it, the variables of `monitor.c`, and the controller. -/
structure Console where
  vidmem : ℕ → U16
  cursor : U16
  color : U16
  crtc : Crtc

def SCRWIDTH : ℕ := 80
def SCRHEIGHT : ℕ := 25

/-- `COLOR(bg, fg)`, as an argument of `setcolor`. -/
def COLOR (bg fg : U16) : U8 := (((bg &&& 0xF) <<< 4) ||| (fg &&& 0xF)).setWidth 8

def scroll (c : Console) : Console :=
  if SCRHEIGHT * 80 ≤ c.cursor.toNat then
    { c with
      vidmem := blankCells (24 * SCRWIDTH) (SCRHEIGHT * SCRWIDTH - 24 * SCRWIDTH) 0x0F20
        (shiftCells SCRWIDTH (24 * SCRWIDTH) c.vidmem)
      cursor := BitVec.ofNat 16 (SCRWIDTH * 24) }
  else c

def moveCursor (c : Console) : Console :=
  { c with
    crtc := (((c.crtc.outb 0x3D4 14).outb 0x3D5 ((c.cursor >>> 8).setWidth 8)).outb 0x3D4 15).outb 0x3D5
      (c.cursor.setWidth 8) }

def clear (c : Console) : Console :=
  moveCursor { c with vidmem := blankCells 0 (80 * 25) 0x0F00 c.vidmem, cursor := 0 }

def setcolor (col : U8) (c : Console) : Console := { c with color := col.setWidth 16 <<< 8 }

/-- The branches of `printc`; `char` is signed, so bytes from 0x80 on are below the space. -/
def printcPut (x : U8) (c : Console) : Console :=
  if x = 0x0A then { c with cursor := c.cursor - c.cursor % 80 + 80 }
  else if x = 0x09 then { c with cursor := c.cursor - c.cursor % 8 + 8 }
  else if 0x20 ≤ x.toInt then
    { c with
      vidmem := Function.update c.vidmem c.cursor.toNat (c.color ||| x.signExtend 16)
      cursor := c.cursor + 1 }
  else c

def printc (x : U8) (c : Console) : Console := moveCursor (scroll (printcPut x c))

/-- `strtoul`, with the bytes from the pointer to the end of its array. -/
def strtoul (tmp : BitVec 64) : List U8 → Except Overrun (BitVec 64)
  | [] => .error .overrun
  | x :: str =>
    if x = 0 then .ok tmp
    else if 0x30 ≤ x ∧ x ≤ 0x39 then strtoul (tmp * 10 + (x.setWidth 64 - 0x30)) str
    else .ok tmp

/-- The `switch` of `escape`. -/
def sgr (v : ℕ) (color : U16) : U16 :=
  let fg (f : U16) : U16 := (COLOR (color >>> 12) f).setWidth 16 <<< 8
  let bg (b : U16) : U16 := (COLOR b ((color >>> 8) &&& 0x0F)).setWidth 16 <<< 8
  match v with
  | 30 => fg 0
  | 31 => fg 4
  | 32 => fg 2
  | 34 => fg 1
  | 35 => fg 5
  | 36 => fg 3
  | 37 => fg 15
  | 40 => bg 0
  | 41 => bg 4
  | 42 => bg 2
  | 44 => bg 1
  | 45 => bg 5
  | 46 => bg 3
  | 47 => bg 15
  | _ => color

/-- `while(str[i] != 'm' && str[i] != ';') i++; if(str[i] == ';') i++;` -/
def skipParam : List U8 → Except Overrun (List U8)
  | [] => .error .overrun
  | x :: str => if x = 0x6D then .ok (x :: str) else if x = 0x3B then .ok str else skipParam str

theorem skipParam_lt {x : U8} {str str' : List U8} (hx : x ≠ 0x6D)
    (h : skipParam (x :: str) = .ok str') : str'.length < (x :: str).length := by
  have hle : ∀ {l : List U8}, skipParam l = .ok str' → str'.length ≤ l.length := by
    intro l
    induction l with
    | nil => exact fun h => nomatch h
    | cons y l ih =>
      intro h
      unfold skipParam at h
      split at h
      · cases h
        exact le_rfl
      · split at h
        · cases h
          exact Nat.le_succ _
        · exact (ih h).trans (Nat.le_succ _)
  unfold skipParam at h
  rw [if_neg hx] at h
  split at h
  · cases h
    exact Nat.lt_succ_self _
  · exact Nat.lt_succ_of_le (hle h)

/-- The outer loop of `escape`. -/
def escapeLoop (str : List U8) (color : U16) : Except Overrun U16 :=
  match str with
  | [] => .error .overrun
  | x :: rest =>
    if _hx : x = 0x6D then .ok color
    else
      match strtoul 0 (x :: rest) with
      | .error e => .error e
      | .ok v =>
        match _h : skipParam (x :: rest) with
        | .error e => .error e
        | .ok str => escapeLoop str (sgr v.toNat color)
termination_by str.length
decreasing_by exact skipParam_lt _hx _h

def escape (str : List U8) (color : U16) : Except Overrun U16 :=
  match str with
  | [] => .error .overrun
  | x :: str => if x ≠ 0x5B then .ok color else escapeLoop str color

/-- The loop of `prints`; in the inner loop it looks for the end of an escape sequence. -/
def printsLoop (inner : Bool) : List U8 → Console → Except Overrun Console
  | [], _ => .error .overrun
  | x :: string, c =>
    if inner then printsLoop (x ≠ 0x6D) string c
    else if x = 0 then .ok c
    else if x = 0x1B then do
      let color ← escape string c.color
      printsLoop true string { c with color := color }
    else printsLoop false string (printc x c)

def prints (string : List U8) (c : Console) : Except Overrun Console := printsLoop false string c

/-- `(x >> (4 * i)) & 0xF`. -/
def nibble (x : U32) (i : ℕ) : ℕ := ((x >>> (4 * i)) &&& 0xF).toNat

/-- `while (((x >> (4 * i)) & 0xF) == 0) i--;` for a number that is not zero. -/
def topNibble (x : U32) : ℕ → ℕ
  | 0 => 0
  | i + 1 => if nibble x (i + 1) = 0 then topNibble x i else i + 1

/-- `for (; i >= 0; i--)`. -/
def printNibbles (x : U32) (i : ℕ) (c : Console) : Console :=
  (List.range (i + 1)).reverse.foldl (fun c i => printc (digitChar (nibble x i)) c) c

def printx (x : U32) (c : Console) : Console :=
  if x = 0 then printc 0x30 c else printNibbles x (topNibble x 7) c

def printp (p : U32) (c : Console) : Console := printNibbles p 7 c

/-- `digit[x % 10]`, with the sign of the remainder. -/
def printdDigit (x : U32) : Except Overrun U8 :=
  if (x.srem 10).toNat < 10 then .ok (digitChar (x.srem 10).toNat) else .error .overrun

/-- `while (x)`: the digits in `buffer`, which has room for `n` more. -/
def printdLoop : ℕ → U32 → Except Overrun (List U8)
  | n, x =>
    if x = 0 then .ok []
    else
      match n with
      | 0 => .error .overrun
      | n + 1 => do
        let d ← printdDigit x
        let buffer ← printdLoop n (x.sdiv 10)
        return d :: buffer

def printd (x : U32) (c : Console) : Except Overrun Console :=
  let (x, c) := if x.toInt < 0 then (-x, printc 0x2D c) else (x, c)
  if x = 0 then .ok (printc 0x30 c)
  else do
    let buffer ← printdLoop 10 x
    return buffer.reverse.foldl (fun c d => printc d c) c

/-! ### The roll -/

/-- The paper, and the colour of what is typed next. -/
structure Roll where
  paper : Paper U16
  color : U16

/-- What a byte types. -/
def mark (color : U16) (x : U8) : Option (Mark U16) :=
  if x = 0x0A then some .newline
  else if x = 0x09 then some .tab
  else if 0x20 ≤ x.toInt then some (.glyph (color ||| x.signExtend 16))
  else none

/-- A byte, a parameter of an escape sequence, or an attribute. -/
inductive Token
  | char (x : U8)
  | sgr (v : ℕ)
  | color (col : U8)
  deriving DecidableEq

def Roll.token (r : Roll) : Token → Roll
  | .char x =>
    match mark r.color x with
    | some m => { r with paper := r.paper.put 80 8 m }
    | none => r
  | .sgr v => { r with color := sgr v r.color }
  | .color col => { r with color := col.setWidth 16 <<< 8 }

def Roll.type (r : Roll) (ts : List Token) : Roll := ts.foldl Roll.token r

def Console.screen (c : Console) : Screen U16 := ⟨c.vidmem, c.cursor.toNat⟩

/-- **The screen shows the last lines of the roll**, the controller has the cursor, and the memory
behind the screen is `mem`. -/
structure OnScreen (mem : ℕ → U16) (c : Console) (r : Roll) : Prop where
  shows : Shows 80 25 r.paper c.screen
  clean : r.paper.Clean 2000 0x0F20
  color : c.color = r.color
  high : c.crtc.reg 14 = (c.cursor >>> 8).setWidth 8
  low : c.crtc.reg 15 = c.cursor.setWidth 8
  outside : ∀ i, 2000 ≤ i → c.vidmem i = mem i

/-- The function types `ts`; or it reads outside of an array, if there is no such thing. -/
def Prints (f : Console → Except Overrun Console) (ts : Option (List Token)) : Prop :=
  ∀ mem c r, OnScreen mem c r →
    match ts with
    | some ts => ∃ c', f c = .ok c' ∧ OnScreen mem c' (r.type ts)
    | none => f c = .error .overrun

section Screen

variable {mem : ℕ → U16} {c : Console} {r : Roll}

theorem moveCursor_crtc (c : Console) : (moveCursor c).crtc.reg 14 = (c.cursor >>> 8).setWidth 8 ∧
    (moveCursor c).crtc.reg 15 = c.cursor.setWidth 8 := by
  constructor <;> simp [moveCursor, Crtc.outb]

/-- Scrolling is that of the library. -/
theorem scroll_screen (c : Console) : (scroll c).screen = c.screen.scroll 80 25 0x0F20 := by
  unfold scroll Screen.scroll
  by_cases h : SCRHEIGHT * 80 ≤ c.cursor.toNat
  · rw [if_pos h, if_pos (show 80 * 25 ≤ c.screen.cursor from h)]
    rfl
  · rw [if_neg h, if_neg (show ¬80 * 25 ≤ c.screen.cursor from h)]

/-- A mark at the cursor of the screen. -/
theorem OnScreen.cursor_lt (h : OnScreen mem c r) : c.cursor.toNat < 2000 :=
  h.shows.cursor_lt (by decide)

/-- The cursor is small enough for its sixteen bits. -/
theorem advance_toNat {v k : U16} (hv : v.toNat < 2000) (hk : k.toNat < 100) :
    (v - v % k + k).toNat = v.toNat - v.toNat % k.toNat + k.toNat := by
  have hle : v % k ≤ v := by
    rw [BitVec.le_def, BitVec.toNat_umod]
    exact Nat.mod_le _ _
  rw [BitVec.toNat_add, BitVec.toNat_sub_of_le hle, BitVec.toNat_umod, Nat.mod_eq_of_lt]
  omega

theorem printcPut_mark {x : U8} {m : Mark U16} (hc : c.cursor.toNat < 2000)
    (hm : mark c.color x = some m) : (printcPut x c).screen = c.screen.put 80 8 m ∧
      (printcPut x c).color = c.color := by
  unfold mark at hm
  unfold printcPut
  by_cases hn : x = 0x0A
  · rw [if_pos hn] at hm ⊢
    cases hm
    refine ⟨?_, rfl⟩
    simp only [Console.screen, Screen.put, Mark.write, Mark.advance, Screen.mk.injEq, true_and]
    exact advance_toNat hc (by decide)
  · rw [if_neg hn] at hm ⊢
    by_cases ht : x = 0x09
    · rw [if_pos ht] at hm ⊢
      cases hm
      refine ⟨?_, rfl⟩
      simp only [Console.screen, Screen.put, Mark.write, Mark.advance, Screen.mk.injEq, true_and]
      exact advance_toNat hc (by decide)
    · rw [if_neg ht] at hm ⊢
      by_cases hp : 0x20 ≤ x.toInt
      · rw [if_pos hp] at hm ⊢
        cases hm
        refine ⟨?_, rfl⟩
        simp only [Console.screen, Screen.put, Mark.write, Mark.advance, Screen.mk.injEq, true_and]
        bv_omega
      · rw [if_neg hp] at hm
        cases hm

theorem printcPut_none {x : U8} (hm : mark c.color x = none) : printcPut x c = c := by
  unfold mark at hm
  unfold printcPut
  split at hm
  · cases hm
  · rename_i hn
    rw [if_neg hn]
    split at hm
    · cases hm
    · rename_i ht
      rw [if_neg ht]
      split at hm
      · cases hm
      · rename_i hp
        rw [if_neg hp]

/-- **`printc`** types a byte, or nothing. -/
theorem printc_prints (x : U8) : Prints (fun c => .ok (printc x c)) (some [.char x]) := by
  intro mem c r h
  refine ⟨_, rfl, ?_⟩
  obtain ⟨hhigh, hlow⟩ := moveCursor_crtc (scroll (printcPut x c))
  have hcolor : (scroll (printcPut x c)).color = (printcPut x c).color := by
    unfold scroll
    split <;> rfl
  have hc : c.screen.cursor < 80 * 25 := h.cursor_lt
  show OnScreen mem (printc x c) (r.token (.char x))
  cases hm : mark c.color x with
  | some m =>
    obtain ⟨hscreen, hkeep⟩ := printcPut_mark h.cursor_lt hm
    have hroll : r.token (.char x) = { r with paper := r.paper.put 80 8 m } := by
      rw [h.color] at hm
      simp only [Roll.token, hm]
    have hshown : (printc x c).screen = (c.screen.put 80 8 m).scroll 80 25 0x0F20 := by
      rw [← hscreen, ← scroll_screen]
      rfl
    rw [hroll]
    refine ⟨?_, h.clean.put (by decide) (by decide) m, hcolor.trans (hkeep.trans h.color), hhigh, hlow,
      fun i hi => ?_⟩
    · rw [hshown]
      exact h.shows.put (by decide) (by decide) (by decide) (by decide) h.clean m
    · have houtside : ((c.screen.put 80 8 m).scroll 80 25 0x0F20).cell i = c.screen.cell i :=
        Screen.put_outside (by decide) (by decide) hc m hi
      rw [← hshown] at houtside
      exact houtside.trans (h.outside i hi)
  | none =>
    have hroll : r.token (.char x) = r := by
      rw [h.color] at hm
      simp only [Roll.token, hm]
    have hsame : scroll c = c := by
      have hlt := h.cursor_lt
      unfold scroll
      exact if_neg (by simp only [SCRHEIGHT]; omega)
    rw [hroll, printc, printcPut_none hm, hsame]
    rw [printcPut_none hm, hsame] at hhigh hlow
    exact ⟨h.shows, h.clean, h.color, hhigh, hlow, h.outside⟩

/-- **`clear`** starts a roll, on which the first lines look like those that `clear` leaves. -/
theorem clear_onScreen (c : Console) :
    OnScreen c.vidmem (clear c) ⟨Paper.fresh 2000 0x0F00 0x0F20, c.color⟩ := by
  obtain ⟨hhigh, hlow⟩ :=
    moveCursor_crtc { c with vidmem := blankCells 0 (80 * 25) 0x0F00 c.vidmem, cursor := 0 }
  have hcell (i : ℕ) :
      (clear c).vidmem i = if 0 ≤ i ∧ i < 0 + 80 * 25 then 0x0F00 else c.vidmem i := by
    simp only [clear, moveCursor]
    rw [blankCells_apply]
  refine ⟨Shows.fresh (by decide) 0x0F00 fun i hi => ?_, Paper.clean_fresh _ _ _, rfl, hhigh, hlow,
    fun i hi => ?_⟩
  · exact (hcell i).trans (if_pos ⟨Nat.zero_le i, by omega⟩)
  · rw [hcell, if_neg (by omega)]

/-- A change of the colour. -/
theorem OnScreen.ink (h : OnScreen mem c r) (color : U16) :
    OnScreen mem { c with color := color } { r with color := color } :=
  ⟨h.shows, h.clean, rfl, h.high, h.low, h.outside⟩

end Screen

/-! ### Composition -/

section Compose

variable {f g : Console → Except Overrun Console} {ts us : Option (List Token)}

theorem Prints.nothing : Prints (fun c => .ok c) (some []) := fun _ c _ h => ⟨c, rfl, h⟩

theorem Prints.overrun : Prints (fun _ => .error .overrun) none := fun _ _ _ _ => rfl

/-- One after the other. -/
theorem Prints.seq (hf : Prints f ts) (hg : Prints g us) :
    Prints (fun c => f c >>= g) (do return (← ts) ++ (← us)) := by
  intro mem c r h
  have hfirst := hf mem c r h
  cases ts with
  | none =>
    show (f c >>= g) = _
    rw [show f c = .error .overrun from hfirst]
    rfl
  | some ts =>
    obtain ⟨c₁, h₁, hr₁⟩ := hfirst
    have hsecond := hg mem c₁ _ hr₁
    cases us with
    | none =>
      show (f c >>= g) = _
      rw [h₁]
      exact hsecond
    | some us =>
      obtain ⟨c₂, h₂, hr₂⟩ := hsecond
      refine ⟨c₂, ?_, ?_⟩
      · show (f c >>= g) = _
        rw [h₁]
        exact h₂
      · rw [show r.type (ts ++ us) = (r.type ts).type us from List.foldl_append]
        exact hr₂

theorem Prints.congr (hf : Prints f ts) (hg : ∀ c, g c = f c) (hts : us = ts) : Prints g us := by
  rw [hts, show g = f from funext hg]
  exact hf

/-- A row of bytes. -/
theorem Prints.bytes (l : List U8) :
    Prints (fun c => .ok (l.foldl (fun c x => printc x c) c)) (some (l.map .char)) := by
  induction l with
  | nil => exact .nothing
  | cons x l ih => exact ((printc_prints x).seq ih).congr (fun _ => rfl) rfl

theorem setcolor_prints (col : U8) : Prints (fun c => .ok (setcolor col c)) (some [.color col]) :=
  fun _ _ _ h => ⟨_, rfl, h.ink _⟩

end Compose

/-! ### Escape sequences -/

/-- `'0'` to `'9'`. -/
def isDigit (x : U8) : Bool := 0x30 ≤ x ∧ x ≤ 0x39

/-- The number at the start of a parameter, in 64 bits. -/
def paramValue (str : List U8) : ℕ :=
  (str.takeWhile isDigit).foldl (fun v x => v * 10 + (x.toNat - 48)) 0 % 2 ^ 64

/-- The parameters of an escape sequence; other sequences are passed over. -/
def escapeTokens : List U8 → List Token
  | [] => []
  | x :: body => if x = 0x5B then (body.splitOn 0x3B).map fun str => .sgr (paramValue str) else []

section Escape

theorem strtoul_digits {ds : List U8} (hds : ∀ x ∈ ds, isDigit x = true) {y : U8}
    (hy : isDigit y = false) (str : List U8) : ∀ v : ℕ,
    strtoul (BitVec.ofNat 64 v) (ds ++ y :: str) =
      .ok (BitVec.ofNat 64 (ds.foldl (fun v x => v * 10 + (x.toNat - 48)) v)) := by
  induction ds with
  | nil =>
    intro v
    have hno : ¬(0x30 ≤ y ∧ y ≤ 0x39) := by simpa [isDigit] using hy
    rw [List.nil_append, strtoul, if_neg hno, ite_self]
    rfl
  | cons x ds ih =>
    intro v
    have hx : 0x30 ≤ x ∧ x ≤ 0x39 := by simpa [isDigit] using hds x List.mem_cons_self
    have hzero : x ≠ 0 := by
      rintro rfl
      exact absurd hx.1 (by decide)
    have hnext : BitVec.ofNat 64 v * 10 + (x.setWidth 64 - 0x30) =
        BitVec.ofNat 64 (v * 10 + (x.toNat - 48)) := by
      have hlow : 48 ≤ x.toNat := hx.1
      have hlt := x.isLt
      have hwide : (x.setWidth 64).toNat = x.toNat := by
        rw [BitVec.toNat_setWidth]
        exact Nat.mod_eq_of_lt (by omega)
      have hdigit : (x.setWidth 64 - 0x30).toNat = x.toNat - 48 := by
        rw [BitVec.toNat_sub_of_le (by rw [BitVec.le_def, hwide]; exact hlow), hwide]
        rfl
      apply BitVec.eq_of_toNat_eq
      rw [BitVec.toNat_add, BitVec.toNat_mul, hdigit, BitVec.toNat_ofNat, BitVec.toNat_ofNat,
        show (10 : BitVec 64).toNat = 10 from rfl, Nat.mod_mul_mod, Nat.mod_add_mod]
    rw [List.cons_append, strtoul, if_neg hzero, if_pos hx, hnext, List.foldl_cons]
    exact ih (fun a ha => hds a (List.mem_cons_of_mem x ha)) _

/-- The number before a byte that is no digit. -/
theorem strtoul_param (str : List U8) {y : U8} (hy : isDigit y = false) (rest : List U8) :
    ∃ v, strtoul 0 (str ++ y :: rest) = .ok v ∧ v.toNat = paramValue str := by
  have hds : ∀ x ∈ str.takeWhile isDigit, isDigit x = true := fun x hx => List.mem_takeWhile_imp hx
  obtain ⟨z, tail, hz, htail⟩ : ∃ z tail, isDigit z = false ∧
      str.dropWhile isDigit ++ y :: rest = z :: tail := by
    cases hdrop : str.dropWhile isDigit with
    | nil => exact ⟨y, rest, hy, rfl⟩
    | cons z tail =>
      refine ⟨z, tail ++ y :: rest, ?_, rfl⟩
      have hne : str.dropWhile isDigit ≠ [] := by
        rw [hdrop]
        exact List.cons_ne_nil z tail
      have hhead := List.head_dropWhile_not isDigit hne
      simpa only [hdrop, List.head_cons, Bool.not_eq_true'] using hhead
  have hsplit : str ++ y :: rest = str.takeWhile isDigit ++ z :: tail := by
    rw [← htail, ← List.append_assoc, List.takeWhile_append_dropWhile]
  refine ⟨_, ?_, BitVec.toNat_ofNat _ 64⟩
  rw [hsplit]
  exact strtoul_digits hds hz tail 0

theorem skipParam_append {str : List U8} (hm : 0x6D ∉ str) (hs : 0x3B ∉ str) (rest : List U8) :
    skipParam (str ++ rest) = skipParam rest := by
  induction str with
  | nil => rfl
  | cons x str ih =>
    rw [List.mem_cons, not_or] at hm hs
    rw [List.cons_append, skipParam, if_neg (Ne.symm hm.1), if_neg (Ne.symm hs.1)]
    exact ih hm.2 hs.2

/-- **The loop of `escape`** reads one parameter after the other, up to the end of the sequence. -/
theorem escapeLoop_params {body : List U8} (hm : 0x6D ∉ body) (rest : List U8) (color : U16) :
    escapeLoop (body ++ 0x6D :: rest) color =
      .ok (((body.splitOn 0x3B).map paramValue).foldl (fun color v => sgr v color) color) := by
  induction hn : body.length using Nat.strong_induction_on generalizing body color with
  | _ n ih =>
    subst hn
    have hsgr : ∀ color, sgr (paramValue []) color = color := fun _ => rfl
    by_cases hnil : body = []
    · subst hnil
      unfold escapeLoop
      rfl
    · have hhead : ∃ x tail, body ++ 0x6D :: rest = x :: tail ∧ x ≠ 0x6D := by
        cases body with
        | nil => exact absurd rfl hnil
        | cons x body => exact ⟨x, body ++ 0x6D :: rest, rfl, fun hx => hm (by rw [hx]; simp)⟩
      obtain ⟨x, tail, hcons, hx⟩ := hhead
      -- the loop makes a turn
      have hturn : ∀ {v : BitVec 64} {str : List U8}, strtoul 0 (body ++ 0x6D :: rest) = .ok v →
          skipParam (body ++ 0x6D :: rest) = .ok str →
          escapeLoop (body ++ 0x6D :: rest) color = escapeLoop str (sgr v.toNat color) := by
        intro v str hv hstr
        rw [hcons] at hv hstr ⊢
        rw [escapeLoop, dif_neg hx, hv]
        simp only
        split
        · rename_i heq
          rw [hstr] at heq
          cases heq
        · rename_i heq
          rw [hstr] at heq
          cases heq
          rfl
      by_cases hs : 0x3B ∈ body
      · obtain ⟨str, body', hbody, hstr⟩ := List.eq_append_cons_of_mem hs
        subst hbody
        rw [List.mem_append, List.mem_cons, not_or, not_or] at hm
        have hassoc : (str ++ 0x3B :: body') ++ 0x6D :: rest =
            str ++ 0x3B :: (body' ++ 0x6D :: rest) := by
          rw [List.append_assoc, List.cons_append]
        obtain ⟨v, hv, hval⟩ := strtoul_param str (show isDigit 0x3B = false by decide)
          (body' ++ 0x6D :: rest)
        have hskip : skipParam (str ++ 0x3B :: (body' ++ 0x6D :: rest)) =
            .ok (body' ++ 0x6D :: rest) := by
          rw [skipParam_append hm.1 hstr]
          rfl
        have hsplit : (str ++ 0x3B :: body').splitOn 0x3B = str :: body'.splitOn 0x3B := by
          refine List.splitOnP_append_cons_of_forall_mem (p := (· == 0x3B)) ?_ _ rfl body'
          exact fun x hx => beq_false_of_ne fun hxs => hstr (hxs ▸ hx)
        rw [hturn (by rw [hassoc]; exact hv) (by rw [hassoc]; exact hskip), hsplit, List.map_cons,
          List.foldl_cons, hval]
        refine ih body'.length ?_ hm.2.2 _ rfl
        rw [List.length_append, List.length_cons]
        omega
      · obtain ⟨v, hv, hval⟩ := strtoul_param body (show isDigit 0x6D = false by decide) rest
        have hskip : skipParam (body ++ 0x6D :: rest) = .ok (0x6D :: rest) := by
          rw [skipParam_append hm hs]
          rfl
        have hsplit : body.splitOn 0x3B = [body] :=
          List.splitOnP_eq_singleton fun x hx => beq_false_of_ne fun hxs => hs (hxs ▸ hx)
        rw [hturn hv hskip, hsplit, hval]
        unfold escapeLoop
        rfl

/-- A sequence that ends sets the colour. -/
theorem escape_tokens {body : List U8} (hm : 0x6D ∉ body) (rest : List U8) (c : Console) (r : Roll)
    {mem : ℕ → U16} (h : OnScreen mem c r) :
    ∃ color, escape (body ++ 0x6D :: rest) c.color = .ok color ∧
      OnScreen mem { c with color := color } (r.type (escapeTokens body)) := by
  have htypes : ∀ (vs : List ℕ) (r : Roll), r.type (vs.map .sgr) =
      { r with color := vs.foldl (fun color v => sgr v color) r.color } := by
    intro vs
    induction vs with
    | nil => exact fun r => rfl
    | cons v vs ih => exact fun r => ih { r with color := sgr v r.color }
  cases body with
  | nil => exact ⟨c.color, rfl, h⟩
  | cons x body =>
    rw [List.cons_append, escape, escapeTokens]
    by_cases hx : x = 0x5B
    · have hmap := List.map_map (f := paramValue) (g := Token.sgr) (l := body.splitOn 0x3B)
      have hloop := escapeLoop_params (fun hmem => hm (List.mem_cons_of_mem x hmem)) rest c.color
      rw [if_neg (not_not.mpr hx), if_pos hx]
      refine ⟨_, hloop, ?_⟩
      rw [show (body.splitOn 0x3B).map (fun str => Token.sgr (paramValue str)) = _ from hmap.symm,
        htypes, ← h.color]
      exact h.ink _
    · rw [if_pos hx, if_neg hx]
      exact ⟨c.color, rfl, h⟩

/-- The inner loop of `prints` stops behind the next `m`. -/
theorem printsLoop_skip {body : List U8} (hm : 0x6D ∉ body) (rest : List U8) (c : Console) :
    printsLoop true (body ++ 0x6D :: rest) c = printsLoop false rest c := by
  induction body with
  | nil => rfl
  | cons x body ih =>
    rw [List.mem_cons, not_or] at hm
    rw [List.cons_append, printsLoop, if_pos rfl, decide_eq_true (Ne.symm hm.1)]
    exact ih hm.2

theorem printsLoop_end {str : List U8} (hm : 0x6D ∉ str) (c : Console) :
    printsLoop true str c = .error .overrun := by
  induction str with
  | nil => rfl
  | cons x str ih =>
    rw [List.mem_cons, not_or] at hm
    rw [printsLoop, if_pos rfl, decide_eq_true (Ne.symm hm.1)]
    exact ih hm.2

end Escape

/-! ### Strings -/

/-- What is left behind the next `m`. -/
def afterEscape (str : List U8) : List U8 := (str.dropWhile (· ≠ 0x6D)).tail

/-- What a string types, read up to its terminator: an escape sequence ends with the next `m`, also
where the terminator comes before it. -/
def spell (str : List U8) : Option (List Token) :=
  match str with
  | [] => none
  | x :: str =>
    if x = 0 then some []
    else if x = 0x1B then
      if 0x6D ∈ str then do
        return escapeTokens (str.takeWhile (· ≠ 0x6D)) ++ (← spell (afterEscape str))
      else none
    else do return .char x :: (← spell str)
termination_by str.length
decreasing_by
  · have hle := (List.dropWhile_sublist (fun x : U8 => decide (x ≠ 0x6D)) (l := str)).length_le
    simp only [afterEscape, List.length_tail, List.length_cons]
    omega
  · exact Nat.lt_succ_self _

theorem split_escape {str : List U8} (hm : 0x6D ∈ str) :
    0x6D ∉ str.takeWhile (· ≠ 0x6D) ∧
      str = str.takeWhile (· ≠ 0x6D) ++ 0x6D :: afterEscape str := by
  refine ⟨fun hmem => by simpa using List.mem_takeWhile_imp hmem, ?_⟩
  have hne : str.dropWhile (· ≠ 0x6D) ≠ [] := by
    rw [Ne, List.dropWhile_eq_nil_iff]
    exact fun h => by simpa using h 0x6D hm
  have hhead := List.head_dropWhile_not (fun x : U8 => decide (x ≠ 0x6D)) hne
  obtain ⟨y, tail, hdrop⟩ := List.exists_cons_of_ne_nil hne
  have hy : y = 0x6D := by
    simpa only [hdrop, List.head_cons, decide_eq_false_iff_not, not_not] using hhead
  conv_lhs => rw [← List.takeWhile_append_dropWhile (p := fun x : U8 => decide (x ≠ 0x6D)) (l := str)]
  rw [afterEscape, hdrop, hy]
  rfl

/-- **`prints`** types the characters and the colours of its string. -/
theorem prints_spells (str : List U8) : Prints (prints str) (spell str) := by
  induction hn : str.length using Nat.strong_induction_on generalizing str with
  | _ n ih =>
    subst hn
    match str with
    | [] =>
      rw [spell]
      exact .overrun
    | x :: str =>
      have hstep : ∀ c, prints (x :: str) c = if x = 0 then .ok c
          else if x = 0x1B then do
            let color ← escape str c.color
            printsLoop true str { c with color := color }
          else prints str (printc x c) := fun c => rfl
      rw [spell]
      by_cases hx : x = 0
      · rw [if_pos hx]
        exact Prints.nothing.congr (fun c => (hstep c).trans (if_pos hx)) rfl
      · rw [if_neg hx]
        by_cases hesc : x = 0x1B
        · rw [if_pos hesc]
          by_cases hm : 0x6D ∈ str
          · rw [if_pos hm]
            obtain ⟨hbody, hstr⟩ := split_escape hm
            have hrest := ih (afterEscape str).length (by
              have hle := congrArg List.length hstr
              rw [List.length_append, List.length_cons] at hle
              rw [List.length_cons]
              omega) _ rfl
            -- the colours of the sequence, and then what is behind it
            have hcolors : Prints
                (fun c => (escape str c.color).map fun color => { c with color := color })
                (some (escapeTokens (str.takeWhile (· ≠ 0x6D)))) := by
              intro mem c r h
              obtain ⟨color, hok, hon⟩ := escape_tokens hbody (afterEscape str) c r h
              rw [← hstr] at hok
              refine ⟨_, ?_, hon⟩
              show (escape str c.color).map _ = _
              rw [hok]
              rfl
            refine (hcolors.seq hrest).congr (fun c => ?_) rfl
            rw [hstep, if_neg hx, if_pos hesc]
            cases escape str c.color with
            | error e => rfl
            | ok color =>
              have hskip := printsLoop_skip hbody (afterEscape str) { c with color := color }
              rw [← hstr] at hskip
              exact hskip
          · rw [if_neg hm]
            refine Prints.overrun.congr (fun c => ?_) rfl
            rw [hstep, if_neg hx, if_pos hesc]
            cases escape str c.color with
            | error e => rfl
            | ok color => exact printsLoop_end hm _
        · rw [if_neg hesc]
          refine ((printc_prints x).seq (ih str.length (Nat.lt_succ_self _) str rfl)).congr ?_ rfl
          intro c
          rw [hstep, if_neg hx, if_neg hesc]
          rfl

/-- A string without escape sequences. -/
theorem spell_literal (str : List U8) (hstr : ∀ x ∈ str, x ≠ 0 ∧ x ≠ 0x1B) :
    spell (str ++ [0]) = some (str.map .char) := by
  induction str with
  | nil =>
    rw [List.nil_append, spell, if_pos rfl]
    rfl
  | cons x str ih =>
    obtain ⟨hx, hesc⟩ := hstr x List.mem_cons_self
    rw [List.cons_append, spell, if_neg hx, if_neg hesc,
      ih fun y hy => hstr y (List.mem_cons_of_mem x hy)]
    rfl

/-- **When `prints` stays in its string**: there is an `m` behind every escape character. -/
theorem spell_isSome_iff {str : List U8} (hnul : 0 ∉ str) :
    (spell (str ++ [0])).isSome ↔ ∀ t u, str = t ++ 0x1B :: u → 0x6D ∈ u := by
  induction hn : str.length using Nat.strong_induction_on generalizing str with
  | _ n ih =>
    subst hn
    cases str with
    | nil =>
      rw [List.nil_append, spell, if_pos rfl]
      exact ⟨fun _ t u h => by simp at h, fun _ => rfl⟩
    | cons x str =>
      rw [List.mem_cons, not_or] at hnul
      rw [List.cons_append, spell, if_neg (Ne.symm hnul.1)]
      by_cases hesc : x = 0x1B
      · subst hesc
        rw [if_pos rfl]
        by_cases hm : 0x6D ∈ str
        · obtain ⟨hbody, hstr⟩ := split_escape hm
          have hafter : afterEscape (str ++ [0]) = afterEscape str ++ [0] := by
            have hne : str.dropWhile (· ≠ 0x6D) ≠ [] := by
              rw [Ne, List.dropWhile_eq_nil_iff]
              exact fun h => by simpa using h 0x6D hm
            rw [afterEscape, afterEscape, List.dropWhile_append,
              if_neg (by simpa only [List.isEmpty_iff] using hne), List.tail_append_of_ne_nil hne]
          have hrest := ih (afterEscape str).length (by
            have hle := congrArg List.length hstr
            rw [List.length_append, List.length_cons] at hle
            rw [List.length_cons]
            omega) (fun h0 => hnul.2 (by
              rw [hstr]
              exact List.mem_append_right _ (List.mem_cons_of_mem _ h0))) rfl
          rw [if_pos (List.mem_append_left _ hm), hafter]
          have hmap : (do return escapeTokens ((str ++ [0]).takeWhile (· ≠ 0x6D)) ++
              (← spell (afterEscape str ++ [0])) : Option (List Token)).isSome =
              (spell (afterEscape str ++ [0])).isSome := by
            cases spell (afterEscape str ++ [0]) <;> rfl
          rw [hmap, hrest]
          generalize str.takeWhile (· ≠ 0x6D) = body at hbody hstr
          constructor
          · intro h t u htu
            cases t with
            | nil => exact (List.cons.inj htu).2 ▸ hm
            | cons y t =>
              -- the character is in the sequence that was passed over, or behind it
              have hsame := hstr.symm.trans (List.cons.inj htu).2
              rcases List.append_eq_append_iff.mp hsame with ⟨a, ha, ha'⟩ | ⟨a, ha, ha'⟩
              · cases a with
                | nil => exact absurd (List.cons.inj ha').1 (by decide)
                | cons z a => exact h a u (List.cons.inj ha').2
              · have hmu : 0x6D ∈ 0x1B :: u := by
                  rw [ha']
                  exact List.mem_append_right _ List.mem_cons_self
                exact (List.mem_cons.mp hmu).resolve_left (by decide)
          · intro h t u htu
            refine h (0x1B :: body ++ 0x6D :: t) u ?_
            rw [hstr, htu]
            simp
        · rw [if_neg (by simpa using hm)]
          exact ⟨fun h => by simp at h, fun h => absurd (h [] str rfl) hm⟩
      · rw [if_neg hesc]
        have hmap : (do return .char x :: (← spell (str ++ [0])) : Option (List Token)).isSome =
            (spell (str ++ [0])).isSome := by
          cases spell (str ++ [0]) <;> rfl
        rw [hmap, ih str.length (Nat.lt_succ_self _) hnul.2 rfl]
        constructor
        · intro h t u htu
          cases t with
          | nil => exact absurd (List.cons.inj htu).1 hesc
          | cons y t => exact h t u (List.cons.inj htu).2
        · intro h t u htu
          exact h (x :: t) u (by rw [htu]; rfl)

/-! ### Numbers -/

/-- What `printd` types; it looks for the digits of the most negative number in front of its table.
-/
def spellInt (x : U32) : Option (List U8) :=
  if x = 0x80000000 then none
  else some ((if x.toInt < 0 then [0x2D] else []) ++ numeral digitChar 10 x.toInt.natAbs)

section Numbers

theorem nibble_eq (x : U32) (i : ℕ) : nibble x i = x.toNat / 16 ^ i % 16 := by
  have hmask : (0xF : U32).toNat = 2 ^ 4 - 1 := rfl
  rw [nibble, BitVec.toNat_and, BitVec.toNat_ushiftRight, Nat.shiftRight_eq_div_pow, Nat.pow_mul,
    hmask, Nat.and_two_pow_sub_one_eq_mod]

theorem printNibbles_prints {i : ℕ} {x : U32} (hx : x.toNat < 16 ^ (i + 1)) :
    Prints (fun c => .ok (printNibbles x i c))
      (some ((padded digitChar 16 (i + 1) x.toNat).map .char)) := by
  refine (Prints.bytes _).congr (fun c => ?_) rfl
  rw [padded_eq (by decide) hx, List.foldl_map, printNibbles]
  simp only [nibble_eq]

/-- The first digit that is not zero. -/
theorem topNibble_spec {x : U32} (hx : x ≠ 0) :
    ∀ i, x.toNat < 16 ^ (i + 1) →
      16 ^ topNibble x i ≤ x.toNat ∧ x.toNat < 16 ^ (topNibble x i + 1) := by
  have hpos : x.toNat ≠ 0 := fun h => hx (BitVec.eq_of_toNat_eq h)
  intro i
  induction i with
  | zero =>
    intro hlt
    exact ⟨Nat.one_le_iff_ne_zero.mpr hpos, hlt⟩
  | succ i ih =>
    intro hlt
    have hdigit : x.toNat / 16 ^ (i + 1) < 16 := by
      rw [Nat.div_lt_iff_lt_mul (by positivity), Nat.mul_comm, ← Nat.pow_succ]
      exact hlt
    rw [topNibble, nibble_eq, Nat.mod_eq_of_lt hdigit]
    by_cases hzero : x.toNat / 16 ^ (i + 1) = 0
    · rw [if_pos hzero]
      exact ih ((Nat.div_eq_zero_iff_lt (by positivity)).mp hzero)
    · rw [if_neg hzero]
      refine ⟨?_, hlt⟩
      by_contra hless
      exact hzero (Nat.div_eq_of_lt (by omega))

/-- **`printx`** types the numeral, and **`printp`** all its eight places. -/
theorem printx_spells (x : U32) :
    Prints (fun c => .ok (printx x c)) (some ((numeral digitChar 16 x.toNat).map .char)) := by
  by_cases hx : x = 0
  · subst hx
    exact (printc_prints 0x30).congr (fun c => rfl) rfl
  · obtain ⟨hlow, hhigh⟩ := topNibble_spec hx 7 (by have := x.isLt; omega)
    rw [numeral_eq_padded (by decide) hlow hhigh]
    refine (printNibbles_prints hhigh).congr (fun c => ?_) rfl
    rw [printx, if_neg hx]

theorem printp_spells (p : U32) :
    Prints (fun c => .ok (printp p c)) (some ((padded digitChar 16 8 p.toNat).map .char)) :=
  printNibbles_prints (by have := p.isLt; omega)

/-- The digits of a number that is not negative. -/
theorem printdLoop_digits (n : ℕ) : ∀ x : U32, x.toNat < 2 ^ 31 → x.toNat < 10 ^ n →
    printdLoop n x = .ok ((Nat.digits 10 x.toNat).map digitChar) := by
  induction n with
  | zero =>
    intro x _ hx
    have hzero : x = 0 := BitVec.eq_of_toNat_eq (Nat.lt_one_iff.mp hx)
    subst hzero
    rfl
  | succ n ih =>
    intro x hpos hx
    by_cases hzero : x = 0
    · subst hzero
      rfl
    · have hmsb : x.msb = false := by
        rw [BitVec.msb_eq_false_iff_two_mul_lt]
        omega
      have hrem : (x.srem 10).toNat = x.toNat % 10 := by
        rw [BitVec.srem_eq, hmsb]
        exact BitVec.toNat_umod
      have hdiv : (x.sdiv 10).toNat = x.toNat / 10 := by
        rw [BitVec.sdiv_eq, hmsb]
        exact BitVec.toNat_udiv
      have hne : x.toNat ≠ 0 := fun h => hzero (BitVec.eq_of_toNat_eq h)
      have hdigit : printdDigit x = .ok (digitChar (x.toNat % 10)) := by
        rw [printdDigit, hrem, if_pos (Nat.mod_lt _ (by decide))]
      have hrest := ih (x.sdiv 10) (by omega) (by rw [Nat.pow_succ] at hx; omega)
      rw [printdLoop, if_neg hzero]
      simp only [hdigit, hrest, hdiv]
      rw [Nat.digits_def' (by decide) (Nat.pos_of_ne_zero hne)]
      rfl

/-- What is printed after the sign. -/
theorem printdLoop_prints {x : U32} (hx : x.toNat < 2 ^ 31) :
    Prints (fun c => if x = 0 then .ok (printc 0x30 c)
      else do
        let buffer ← printdLoop 10 x
        return buffer.reverse.foldl (fun c d => printc d c) c)
      (some ((numeral digitChar 10 x.toNat).map .char)) := by
  by_cases hzero : x = 0
  · subst hzero
    exact (printc_prints 0x30).congr (fun c => rfl) rfl
  · have hne : x.toNat ≠ 0 := fun h => hzero (BitVec.eq_of_toNat_eq h)
    refine (Prints.bytes _).congr (fun c => ?_) rfl
    rw [if_neg hzero, printdLoop_digits 10 x hx (by omega), numeral, if_neg hne]
    rfl

/-- **`printd`** types the sign and the numeral. -/
theorem printd_spells (x : U32) : Prints (printd x) ((spellInt x).map (List.map .char)) := by
  unfold spellInt
  by_cases hmin : x = 0x80000000
  · subst hmin
    have hloop : printdLoop 10 (-0x80000000) = .error .overrun := by
      rw [printdLoop, if_neg (by decide), show printdDigit (-0x80000000) = .error .overrun from rfl]
      rfl
    refine Prints.overrun.congr (fun c => ?_) rfl
    rw [printd, if_pos (by decide)]
    simp only
    rw [if_neg (by decide), hloop]
    rfl
  · rw [if_neg hmin]
    have hlt := x.isLt
    have hne : x.toNat ≠ 2 ^ 31 := fun h => hmin (BitVec.eq_of_toNat_eq h)
    have hint := BitVec.toInt_eq_toNat_cond x
    by_cases hneg : x.toInt < 0
    · have habs : (-x).toNat = x.toInt.natAbs := by
        rw [BitVec.toNat_neg]
        split at hint <;> omega
      have hbody := printdLoop_prints (show (-x).toNat < 2 ^ 31 by
        rw [habs]
        split at hint <;> omega)
      rw [if_pos hneg, ← habs]
      refine ((printc_prints 0x2D).seq hbody).congr (fun c => ?_) rfl
      rw [printd, if_pos hneg]
      rfl
    · have habs : x.toNat = x.toInt.natAbs := by
        split at hint <;> omega
      rw [if_neg hneg, ← habs]
      refine (printdLoop_prints (by split at hint <;> omega)).congr (fun c => ?_) rfl
      rw [printd, if_neg hneg]

end Numbers

end Pinion
