/-
The log of the system layer, `log.c`.

`lograw` and `__log` print a format with its arguments.  The loop over the format takes the byte
after a `%` as a directive whatever it is, also when it is the terminator, and does not look at the
number or the types of the arguments; `prints` does not look for the terminator inside an escape
sequence.  Apart from that the log is what was typed on a roll of paper: after any calls the screen
shows its last 25 lines.

* `lograw`, `log` — the embedding;
* `want`, `expand`, `message` — what a piece of a format asks for, and what a format types;
* `message_isSome_iff` — when the loop stays in the format and in the arguments;
* `log_shows` — the screen after any sequence of calls;
* `log_returns_iff` — when a call stays in its format and its strings.
-/
import Pinion.Console
import Pinion.Formats

open Formats Numerals Terminal

namespace Pinion

/-! ### The embedding -/

/-- An argument: a number, or a pointer, with the bytes from there to the end of the array. -/
inductive Arg
  | int (x : U32)
  | str (bytes : List U8)

/-- `va_arg(ap, int)`; it goes wrong when there is no such argument. -/
def vaInt : List Arg → Except Overrun (U32 × List Arg)
  | .int x :: ap => .ok (x, ap)
  | _ => .error .overrun

/-- `va_arg(ap, const char*)`. -/
def vaStr : List Arg → Except Overrun (List U8 × List Arg)
  | .str bytes :: ap => .ok (bytes, ap)
  | _ => .error .overrun

/-- The `switch` on the byte after a `%`. -/
def logDirective (y : U8) (ap : List Arg) (c : Console) : Except Overrun (Console × List Arg) :=
  if y = 0 then .ok (c, ap)
  else if y = 0x25 then .ok (printc 0x25 c, ap)
  else if y = 0x64 then do
    let (x, ap) ← vaInt ap
    return (← printd x c, ap)
  else if y = 0x78 then do
    let (x, ap) ← vaInt ap
    return (printx x c, ap)
  else if y = 0x70 then do
    let (x, ap) ← vaInt ap
    return (printp x c, ap)
  else if y = 0x73 then do
    let (str, ap) ← vaStr ap
    return (← prints str c, ap)
  else if y = 0x63 then do
    let (x, ap) ← vaInt ap
    return (printc (x.setWidth 8) c, ap)
  else .ok (c, ap)

/-- `for (int i = 0; fmt[i]; i++)`. -/
def logLoop : List U8 → List Arg → Console → Except Overrun Console
  | [], _, _ => .error .overrun
  | [x], ap, c =>
    if x = 0 then .ok c
    else if x = 0x25 then .error .overrun
    else logLoop [] ap (printc x c)
  | x :: y :: fmt, ap, c =>
    if x = 0 then .ok c
    else if x = 0x25 then do
      let (c, ap) ← logDirective y ap c
      logLoop fmt ap c
    else logLoop (y :: fmt) ap (printc x c)

/-- `_setup`, and the console. -/
structure Logger where
  setup : Bool
  console : Console

def initLog (l : Logger) : Logger := ⟨true, clear l.console⟩

def lograw (fmt : List U8) (ap : List Arg) (l : Logger) : Except Overrun Logger :=
  if l.setup = false then .ok l
  else do
    let c ← logLoop fmt ap (setcolor 14 l.console)
    return { l with console := printc 0x0A c }

def LOGLEVEL : ℤ := 3

/-- The `switch` on the level: `ERROR`, `INIT`, `DEBUG` and `VERBOSE`. -/
def levelColor (level : U32) : U8 :=
  if level = 0 then 12
  else if level = 1 then 14
  else if level = 2 then 9
  else if level = 3 then 7
  else 6

/-- `if (level != INIT)`. -/
def logPlace (level : U32) (func : List U8) (line : U32) (c : Console) : Except Overrun Console :=
  if level ≠ 1 then do
    let c ← prints func (setcolor 7 c)
    let c ← prints [0x20, 0] c
    let c ← printd line c
    prints [0x3A, 0x09, 0] c
  else .ok c

def log (level : U32) (func : List U8) (line : U32) (fmt : List U8) (ap : List Arg) (l : Logger) :
    Except Overrun Logger :=
  if l.setup = false then .ok l
  else if LOGLEVEL < level.toInt then .ok l
  else do
    let c ← logPlace level func line l.console
    let c ← logLoop fmt ap (setcolor (levelColor level) c)
    let c ← prints [0x0A, 0] c
    return { l with console := setcolor 7 c }

/-! ### Formats -/

/-- What a piece does with the arguments. -/
inductive Want
  | nothing (ts : List Token)
  | int (text : U32 → Option (List U8))
  | str

def want : Piece U8 → Want
  | .text x => .nothing [.char x]
  | .directive y =>
    if y = 0x25 then .nothing [.char 0x25]
    else if y = 0x64 then .int spellInt
    else if y = 0x78 then .int fun x => some (numeral digitChar 16 x.toNat)
    else if y = 0x70 then .int fun x => some (padded digitChar 16 8 x.toNat)
    else if y = 0x73 then .str
    else if y = 0x63 then .int fun x => some [x.setWidth 8]
    else .nothing []

/-- What is typed, and the arguments that are left. -/
def Want.take : Want → List Arg → Option (List Token × List Arg)
  | .nothing ts, ap => some (ts, ap)
  | .int text, .int x :: ap => (text x).map fun l => (l.map .char, ap)
  | .str, .str bytes :: ap => (spell bytes).map (·, ap)
  | _, _ => none

def expand : List (Piece U8) → List Arg → Option (List Token)
  | [], _ => some []
  | p :: ps, ap => (want p).take ap >>= fun r => do return r.1 ++ (← expand ps r.2)

/-- What a format types with its arguments. -/
def message (fmt : List U8) (ap : List Arg) : Option (List Token) := do
  expand (← pieces 0 0x25 fmt) ap

section Directives

variable {g : List Arg → Console → Except Overrun Console} {us : List Arg → Option (List Token)}

theorem vaInt_spells {text : U32 → Option (List U8)} {f : U32 → Console → Except Overrun Console}
    (hf : ∀ x, Prints (f x) ((text x).map (List.map .char))) (hg : ∀ ap, Prints (g ap) (us ap))
    (ap : List Arg) :
    Prints (fun c => (vaInt ap >>= fun r => do return (← f r.1 c, r.2)) >>= fun r => g r.2 r.1)
      ((Want.int text).take ap >>= fun r => do return r.1 ++ (← us r.2)) := by
  match ap with
  | [] => exact .overrun
  | .str bytes :: ap => exact .overrun
  | .int x :: ap =>
    refine ((hf x).seq (hg ap)).congr (fun c => ?_) ?_
    · show (f x c >>= fun c => pure (c, ap)) >>= (fun r => g r.2 r.1) = _
      cases f x c <;> rfl
    · show (text x).map (fun l => (l.map Token.char, ap)) >>= _ = _
      cases text x <;> rfl

theorem vaStr_spells (hg : ∀ ap, Prints (g ap) (us ap)) (ap : List Arg) :
    Prints (fun c => (vaStr ap >>= fun r => do return (← prints r.1 c, r.2)) >>= fun r => g r.2 r.1)
      (Want.str.take ap >>= fun r => do return r.1 ++ (← us r.2)) := by
  match ap with
  | [] => exact .overrun
  | .int x :: ap => exact .overrun
  | .str bytes :: ap =>
    refine ((prints_spells bytes).seq (hg ap)).congr (fun c => ?_) ?_
    · show (prints bytes c >>= fun c => pure (c, ap)) >>= (fun r => g r.2 r.1) = _
      cases prints bytes c <;> rfl
    · show (spell bytes).map (·, ap) >>= _ = _
      cases spell bytes <;> rfl

/-- A directive, and what follows it. -/
theorem logDirective_spells (y : U8) (hg : ∀ ap, Prints (g ap) (us ap)) (ap : List Arg) :
    Prints (fun c => logDirective y ap c >>= fun r => g r.2 r.1)
      ((want (.directive y)).take ap >>= fun r => do return r.1 ++ (← us r.2)) := by
  have hskip : Prints (g ap) (do return [] ++ (← us ap)) := Prints.nothing.seq (hg ap)
  by_cases h0 : y = 0
  · subst h0
    exact hskip
  by_cases h1 : y = 0x25
  · subst h1
    exact (printc_prints 0x25).seq (hg ap)
  by_cases h2 : y = 0x64
  · subst h2
    exact vaInt_spells printd_spells hg ap
  by_cases h3 : y = 0x78
  · subst h3
    exact vaInt_spells (fun x => (printx_spells x).congr (fun _ => rfl) rfl) hg ap
  by_cases h4 : y = 0x70
  · subst h4
    exact vaInt_spells (fun x => (printp_spells x).congr (fun _ => rfl) rfl) hg ap
  by_cases h5 : y = 0x73
  · subst h5
    exact vaStr_spells hg ap
  by_cases h6 : y = 0x63
  · subst h6
    exact vaInt_spells (fun x => (printc_prints (x.setWidth 8)).congr (fun _ => rfl) rfl) hg ap
  · simp only [logDirective, want, h0, h1, h2, h3, h4, h5, h6, if_false]
    exact hskip

end Directives

/-- **The loop over the format** types the message. -/
theorem logLoop_spells (fmt : List U8) (ap : List Arg) :
    Prints (logLoop fmt ap) (message fmt ap) := by
  induction fmt using pieces.induct (0 : U8) (0x25 : U8) generalizing ap with
  | case1 => exact .overrun
  | case2 =>
    exact Prints.nothing.congr (fun _ => rfl) rfl
  | case3 x hx =>
    refine Prints.overrun.congr (fun c => ?_) ?_
    · rw [logLoop, if_neg hx]
      split <;> rfl
    · rw [message, pieces, if_neg hx]
      rfl
  | case4 y fmt => exact Prints.nothing.congr (fun _ => rfl) rfl
  | case5 y fmt h0 ih =>
    refine (logDirective_spells y ih ap).congr (fun c => ?_) ?_
    · rw [logLoop, if_neg h0, if_pos rfl]
    · rw [message, pieces, if_neg h0, if_pos rfl]
      unfold message
      cases pieces 0 0x25 fmt with
      | none => cases (want (.directive y)).take ap <;> rfl
      | some ps => rfl
  | case6 x y fmt h0 hx ih =>
    refine ((printc_prints x).seq (ih ap)).congr (fun c => ?_) ?_
    · rw [logLoop, if_neg h0, if_neg hx]
      rfl
    · rw [message, pieces, if_neg h0, if_neg hx]
      unfold message
      cases pieces 0 0x25 (y :: fmt) with
      | none => rfl
      | some ps => rfl

/-! ### Calls -/

inductive LogCall
  | raw (fmt : List U8) (ap : List Arg)
  | log (level : U32) (func : List U8) (line : U32) (fmt : List U8) (ap : List Arg)

def LogCall.run (l : Logger) : LogCall → Except Overrun Logger
  | .raw fmt ap => lograw fmt ap l
  | .log level func line fmt ap => Pinion.log level func line fmt ap l

/-- The function and the line, which `INIT` leaves out. -/
def place (level : U32) (func : List U8) (line : U32) : Option (List Token) :=
  if level ≠ 1 then do
    return .color 7 :: (← spell func) ++ .char 0x20 :: (← spellInt line).map .char ++
      [.char 0x3A, .char 0x09]
  else some []

/-- What a call types. -/
def LogCall.tokens : LogCall → Option (List Token)
  | .raw fmt ap => do return .color 14 :: (← message fmt ap) ++ [.char 0x0A]
  | .log level func line fmt ap =>
    if LOGLEVEL < level.toInt then some []
    else do
      return (← place level func line) ++ .color (levelColor level) :: (← message fmt ap) ++
        [.char 0x0A, .color 7]

section Calls

theorem place_spells (level : U32) (func : List U8) (line : U32) :
    Prints (logPlace level func line) (place level func line) := by
  unfold place
  by_cases hlevel : level ≠ 1
  · have hspace : spell [0x20, 0] = some [.char 0x20] := spell_literal [0x20] (by decide)
    have hcolon : spell [0x3A, 0x09, 0] = some [.char 0x3A, .char 0x09] :=
      spell_literal [0x3A, 0x09] (by decide)
    have hall := (setcolor_prints 7).seq ((prints_spells func).seq ((prints_spells [0x20, 0]).seq
      ((printd_spells line).seq (prints_spells [0x3A, 0x09, 0]))))
    rw [hspace, hcolon] at hall
    refine hall.congr (fun c => ?_) ?_
    · rw [logPlace, if_pos hlevel]
      rfl
    · rw [if_pos hlevel]
      cases spell func with
      | none => rfl
      | some ts =>
        cases spellInt line with
        | none => rfl
        | some ds => simp
  · exact Prints.nothing.congr (fun c => if_neg hlevel) (if_neg hlevel)

/-- **One call**, once the log is set up. -/
theorem LogCall.run_spells (k : LogCall) : ∃ f, Prints f k.tokens ∧
    ∀ l : Logger, l.setup = true → k.run l = (f l.console).map (⟨true, ·⟩) := by
  cases k with
  | raw fmt ap =>
    have hall := (setcolor_prints 14).seq ((logLoop_spells fmt ap).seq (printc_prints 0x0A))
    refine ⟨_, hall.congr (fun _ => rfl) ?_, ?_⟩
    · rw [tokens]
      cases message fmt ap <;> rfl
    · rintro ⟨_, c⟩ rfl
      rw [run, lograw, if_neg nofun]
      show (logLoop fmt ap (setcolor 14 c) >>= _) = (logLoop fmt ap (setcolor 14 c) >>= _).map _
      cases logLoop fmt ap (setcolor 14 c) <;> rfl
  | log level func line fmt ap =>
    by_cases hlevel : LOGLEVEL < level.toInt
    · refine ⟨_, Prints.nothing.congr (fun _ => rfl) (by rw [tokens, if_pos hlevel]), ?_⟩
      rintro ⟨_, c⟩ rfl
      rw [run, Pinion.log, if_neg nofun, if_pos hlevel]
      rfl
    · have hline : spell [0x0A, 0] = some [.char 0x0A] := spell_literal [0x0A] (by decide)
      have hall := (place_spells level func line).seq ((setcolor_prints (levelColor level)).seq
        ((logLoop_spells fmt ap).seq ((prints_spells [0x0A, 0]).seq (setcolor_prints 7))))
      rw [hline] at hall
      refine ⟨_, hall.congr (fun _ => rfl) ?_, ?_⟩
      · rw [tokens, if_neg hlevel]
        cases place level func line with
        | none => rfl
        | some ts =>
          cases message fmt ap with
          | none => rfl
          | some us => simp
      · rintro ⟨_, c⟩ rfl
        rw [run, Pinion.log, if_neg nofun, if_neg hlevel]
        simp only
        show (logPlace level func line c >>= _) = (logPlace level func line c >>= _).map _
        cases logPlace level func line c with
        | error e => rfl
        | ok c =>
          show (logLoop fmt ap (setcolor (levelColor level) c) >>= _) =
            (logLoop fmt ap (setcolor (levelColor level) c) >>= _).map _
          cases logLoop fmt ap (setcolor (levelColor level) c) with
          | error e => rfl
          | ok c => rfl

theorem LogCall.run_early (k : LogCall) {l : Logger} (hl : l.setup = false) : k.run l = .ok l := by
  cases k with
  | raw fmt ap => exact if_pos hl
  | log level func line fmt ap => exact if_pos hl

/-- Calls one after the other, on a roll that is shown already. -/
theorem LogCall.runs_spell {mem : ℕ → U16} (ks : List LogCall) :
    ∀ {l : Logger} {r : Roll}, l.setup = true → OnScreen mem l.console r →
      match ks.mapM tokens with
      | some ts => ∃ l', ks.foldlM run l = .ok l' ∧ l'.setup = true ∧
          OnScreen mem l'.console (r.type ts.flatten)
      | none => ks.foldlM run l = .error .overrun := by
  induction ks with
  | nil => exact fun {l r} hl hr => ⟨l, rfl, hl, hr⟩
  | cons k ks ih =>
    intro l r hl hr
    obtain ⟨f, hf, hrun⟩ := k.run_spells
    have hfirst := hf mem l.console r hr
    rw [List.mapM_cons, List.foldlM_cons, hrun l hl]
    cases hk : k.tokens with
    | none =>
      rw [hk] at hfirst
      rw [show f l.console = _ from hfirst]
      rfl
    | some ts =>
      rw [hk] at hfirst
      obtain ⟨c, hc, hon⟩ := hfirst
      rw [hc]
      have hrest := ih (l := ⟨true, c⟩) rfl hon
      cases hks : ks.mapM tokens with
      | none =>
        rw [hks] at hrest
        exact hrest
      | some tss =>
        rw [hks] at hrest
        obtain ⟨l', hl', hsetup, hshown⟩ := hrest
        refine ⟨l', hl', hsetup, ?_⟩
        rw [show r.type (ts :: tss).flatten = (r.type ts).type tss.flatten from List.foldl_append]
        exact hshown

end Calls

/-- Calls before `__init_log`, and calls after it. -/
def logRun (early late : List LogCall) (l : Logger) : Except Overrun Logger := do
  late.foldlM LogCall.run (initLog (← early.foldlM LogCall.run l))

theorem logRun_eq (early late : List LogCall) {l : Logger} (hl : l.setup = false) :
    logRun early late l = late.foldlM LogCall.run (initLog l) := by
  have hearly : early.foldlM LogCall.run l = .ok l := by
    induction early with
    | nil => rfl
    | cons k ks ih =>
      rw [List.foldlM_cons, k.run_early hl]
      exact ih
  rw [logRun, hearly]
  rfl

/-- **The log**: whatever is called, the screen shows the last lines of what was logged since
`__init_log`, or some call reads outside of an array. -/
theorem log_shows (early late : List LogCall) {l : Logger} (hl : l.setup = false) :
    match late.mapM LogCall.tokens with
    | some ts => ∃ l', logRun early late l = .ok l' ∧ OnScreen l.console.vidmem l'.console
        (Roll.type ⟨Paper.fresh 2000 0x0F00 0x0F20, l.console.color⟩ ts.flatten)
    | none => logRun early late l = .error .overrun := by
  have hruns := LogCall.runs_spell late (l := initLog l) rfl (clear_onScreen l.console)
  rw [logRun_eq early late hl]
  cases hlate : late.mapM LogCall.tokens with
  | none =>
    rw [hlate] at hruns
    exact hruns
  | some ts =>
    rw [hlate] at hruns
    obtain ⟨l', hl', -, hshown⟩ := hruns
    exact ⟨l', hl', hshown⟩

/-- A letter, in the colour of `lograw`, and the cursor on the next line. -/
theorem log_shows_letter :
    ∃ l', logRun [] [.raw [0x41, 0] []] ⟨false, ⟨fun _ => 0, 0, 0x0F00, ⟨0, fun _ => 0⟩⟩⟩ = .ok l' ∧
      l'.console.vidmem 0 = 0x0E41 ∧ l'.console.cursor.toNat = 80 := by
  obtain ⟨l', hl', hon⟩ := log_shows [] [.raw [0x41, 0] []]
    (l := ⟨false, ⟨fun _ => 0, 0, 0x0F00, ⟨0, fun _ => 0⟩⟩⟩) rfl
  exact ⟨l', hl', hon.shows.cell 0 (by decide), hon.shows.cursor⟩

/-! ### When a call returns -/

/-- The arguments behind one of the type that is asked for. -/
def Want.rest : Want → List Arg → Option (List Arg)
  | .nothing _, ap => some ap
  | .int _, .int _ :: ap => some ap
  | .str, .str _ :: ap => some ap
  | _, _ => none

/-- The arguments have the types that the pieces ask for. -/
def Fits : List (Piece U8) → List Arg → Prop
  | [], _ => True
  | p :: ps, ap => ∃ rest, (want p).rest ap = some rest ∧ Fits ps rest

/-- A number but the most negative one, or a string with a terminator whose escape sequences end. -/
def Arg.Plain : Arg → Prop
  | .int x => x ≠ 0x80000000
  | .str bytes => ∃ str, bytes = str ++ [0] ∧ 0 ∉ str ∧ ∀ t u, str = t ++ 0x1B :: u → 0x6D ∈ u

section Returns

theorem want_int {p : Piece U8} {text : U32 → Option (List U8)} (hp : (want p) = .int text)
    {x : U32} (hx : x ≠ 0x80000000) : (text x).isSome := by
  cases p with
  | text y => cases hp
  | directive y =>
    have hint : (spellInt x).isSome := by
      rw [spellInt, if_neg hx]
      rfl
    simp only [want] at hp
    split_ifs at hp <;> cases hp <;> first | exact hint | rfl

theorem Arg.Plain.spells {bytes : List U8} (h : (Arg.str bytes).Plain) : (spell bytes).isSome := by
  obtain ⟨str, rfl, hnul, hesc⟩ := h
  exact (spell_isSome_iff hnul).mpr hesc

/-- Plain arguments of the right types are printed. -/
theorem take_rest (p : Piece U8) {ap : List Arg} (hap : ∀ a ∈ ap, a.Plain) :
    ((want p).take ap).map Prod.snd = (want p).rest ap ∧
      ∀ rest, (want p).rest ap = some rest → rest ⊆ ap := by
  cases hw : (want p) with
  | nothing ts =>
    refine ⟨rfl, ?_⟩
    rintro _ ⟨⟩
    exact List.Subset.refl ap
  | int text =>
    match ap with
    | [] => exact ⟨rfl, fun _ h => nomatch h⟩
    | .str bytes :: ap => exact ⟨rfl, fun _ h => nomatch h⟩
    | .int x :: ap =>
      obtain ⟨l, hl⟩ := Option.isSome_iff_exists.mp (want_int hw (hap (.int x) List.mem_cons_self))
      refine ⟨by rw [Want.take, hl]; rfl, ?_⟩
      rintro _ ⟨⟩
      exact List.subset_cons_self _ ap
  | str =>
    match ap with
    | [] => exact ⟨rfl, fun _ h => nomatch h⟩
    | .int x :: ap => exact ⟨rfl, fun _ h => nomatch h⟩
    | .str bytes :: ap =>
      obtain ⟨ts, hts⟩ := Option.isSome_iff_exists.mp (hap (.str bytes) List.mem_cons_self).spells
      refine ⟨by rw [Want.take, hts]; rfl, ?_⟩
      rintro _ ⟨⟩
      exact List.subset_cons_self _ ap

theorem expand_isSome_iff (ps : List (Piece U8)) : ∀ {ap : List Arg}, (∀ a ∈ ap, a.Plain) →
    ((expand ps ap).isSome ↔ Fits ps ap) := by
  induction ps with
  | nil => exact fun _ => ⟨fun _ => trivial, fun _ => rfl⟩
  | cons p ps ih =>
    intro ap hap
    obtain ⟨htake, hsub⟩ := take_rest p hap
    rw [expand, Fits]
    cases hr : (want p).take ap with
    | none =>
      rw [hr] at htake
      rw [← htake]
      exact ⟨fun h => (nomatch h), fun ⟨rest, h, _⟩ => (nomatch h)⟩
    | some r =>
      rw [hr] at htake
      have hrest := ih fun a ha => hap a (hsub r.2 htake.symm ha)
      have hsome : (some r >>= fun r => (do return r.1 ++ (← expand ps r.2))).isSome =
          (expand ps r.2).isSome := by
        show (expand ps r.2 >>= _).isSome = _
        cases expand ps r.2 <;> rfl
      rw [hsome, hrest, ← htake]
      exact ⟨fun h => ⟨r.2, rfl, h⟩, fun ⟨_, h, hfits⟩ => Option.some.inj h ▸ hfits⟩

theorem message_isSome_iff {s : List U8} (hs : 0 ∉ s) {ap : List Arg} (hap : ∀ a ∈ ap, a.Plain) :
    (message (s ++ [0]) ap).isSome ↔
      Even (trailing 0x25 s) ∧ ∀ ps, pieces 0 0x25 (s ++ [0]) = some ps → Fits ps ap := by
  rw [← pieces_isSome_iff 0 0x25 hs, message]
  cases pieces 0 0x25 (s ++ [0]) with
  | none => exact ⟨fun h => (nomatch h), fun h => (nomatch h.1)⟩
  | some ps =>
    refine (expand_isSome_iff ps hap).trans ⟨fun h => ⟨rfl, ?_⟩, fun h => h.2 ps rfl⟩
    rintro _ ⟨⟩
    exact h

end Returns

/-- The format of a call, without its terminator, and the arguments. -/
def LogCall.format : LogCall → List U8
  | .raw fmt _ => fmt.dropLast
  | .log _ _ _ fmt _ => fmt.dropLast

def LogCall.args : LogCall → List Arg
  | .raw _ ap => ap
  | .log _ _ _ _ ap => ap

/-- A call with a format that is a string, and with plain arguments. -/
def LogCall.Plain : LogCall → Prop
  | .raw fmt ap => (∃ s, fmt = s ++ [0] ∧ 0 ∉ s) ∧ ∀ a ∈ ap, a.Plain
  | .log _ func line fmt ap =>
    (∃ s, fmt = s ++ [0] ∧ 0 ∉ s) ∧ (∀ a ∈ ap, a.Plain) ∧ (Arg.str func).Plain ∧ (Arg.int line).Plain

/-- The level of the call is logged. -/
def LogCall.Logged : LogCall → Prop
  | .raw _ _ => True
  | .log level _ _ _ _ => level.toInt ≤ LOGLEVEL

/-- The format ends outside of a directive, and the arguments are what it asks for. -/
def LogCall.WellTyped (k : LogCall) : Prop :=
  Even (trailing 0x25 k.format) ∧ ∀ ps, pieces 0 0x25 (k.format ++ [0]) = some ps → Fits ps k.args

theorem LogCall.tokens_isSome_iff {k : LogCall} (hk : k.Plain) :
    k.tokens.isSome ↔ (k.Logged → k.WellTyped) := by
  cases k with
  | raw fmt ap =>
    obtain ⟨⟨s, rfl, hs⟩, hap⟩ := hk
    have hmessage := message_isSome_iff hs hap
    simp only [tokens, Logged, WellTyped, format, args, List.dropLast_concat, true_imp_iff]
    rw [← hmessage]
    cases message (s ++ [0]) ap <;> exact Iff.rfl
  | log level func line fmt ap =>
    obtain ⟨⟨s, rfl, hs⟩, hap, hfunc, hline⟩ := hk
    have hmessage := message_isSome_iff hs hap
    simp only [tokens, Logged, WellTyped, format, args, List.dropLast_concat]
    rw [← hmessage]
    by_cases hlevel : LOGLEVEL < level.toInt
    · rw [if_pos hlevel]
      exact ⟨fun _ h => absurd h (not_le.mpr hlevel), fun _ => rfl⟩
    · have hplace : ∃ ts, place level func line = some ts := by
        obtain ⟨ts, hts⟩ := Option.isSome_iff_exists.mp hfunc.spells
        rw [place]
        split
        · rw [hts, spellInt, if_neg hline]
          exact ⟨_, rfl⟩
        · exact ⟨_, rfl⟩
      obtain ⟨ts, hts⟩ := hplace
      rw [if_neg hlevel, hts]
      cases message (s ++ [0]) ap with
      | none => exact ⟨fun h => (by cases h), fun h => (by cases h (not_lt.mp hlevel))⟩
      | some us => exact ⟨fun _ _ => rfl, fun _ => rfl⟩

/-- **When a run of calls returns**: every call that is logged has a format that ends outside of a
directive, and arguments of the types it asks for. -/
theorem log_returns_iff (early late : List LogCall) {l : Logger} (hl : l.setup = false)
    (hlate : ∀ k ∈ late, k.Plain) :
    (∃ l', logRun early late l = .ok l') ↔ ∀ k ∈ late, k.Logged → k.WellTyped := by
  have hruns := LogCall.runs_spell late (l := initLog l) rfl (clear_onScreen l.console)
  have hall : (late.mapM LogCall.tokens).isSome ↔ ∀ k ∈ late, k.Logged → k.WellTyped := by
    clear hruns
    induction late with
    | nil => exact ⟨fun _ k hk => absurd hk List.not_mem_nil, fun _ => rfl⟩
    | cons k ks ih =>
      have hfirst := LogCall.tokens_isSome_iff (hlate k List.mem_cons_self)
      have hrest := ih fun k' hk' => hlate k' (List.mem_cons_of_mem k hk')
      rw [List.forall_mem_cons, ← hfirst, ← hrest, List.mapM_cons]
      cases k.tokens with
      | none => exact ⟨fun h => (by cases h), fun h => (by cases h.1)⟩
      | some ts =>
        cases ks.mapM LogCall.tokens with
        | none => exact ⟨fun h => (by cases h), fun h => (by cases h.2)⟩
        | some tss => exact ⟨fun _ => ⟨rfl, rfl⟩, fun _ => rfl⟩
  rw [logRun_eq early late hl, ← hall]
  cases hmap : late.mapM LogCall.tokens with
  | none =>
    rw [hmap] at hruns
    rw [hruns]
    refine ⟨?_, fun h => by cases h⟩
    rintro ⟨l', ⟨⟩⟩
  | some ts =>
    rw [hmap] at hruns
    obtain ⟨l', hl', -, -⟩ := hruns
    exact ⟨fun _ => rfl, fun _ => ⟨l', hl'⟩⟩

/-- A single `%` does not return. -/
theorem log_returns_percent : ¬∃ l', logRun [] [.raw [0x25, 0] []]
    ⟨false, ⟨fun _ => 0, 0, 0x0F00, ⟨0, fun _ => 0⟩⟩⟩ = .ok l' := by
  have hplain : ∀ k ∈ [LogCall.raw [0x25, 0] []], k.Plain := by
    intro k hk
    rw [List.mem_singleton.mp hk]
    exact ⟨⟨[0x25], rfl, by decide⟩, fun a ha => absurd ha List.not_mem_nil⟩
  rw [log_returns_iff [] _ rfl hplain]
  intro h
  have hodd := (h _ (List.mem_singleton_self _) trivial).1
  exact absurd hodd (by decide)

end Pinion
