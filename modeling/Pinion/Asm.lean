/-
Straight-line code of a 32-bit processor with rings.

The instructions work on the general registers, the selectors and the words of memory; a step
that the processor would answer with a fault gives `none`.  The program counter is that of the
interrupted code: it is pushed by an interrupt and loaded by `iret` and `ret`.

* `Gdt` — the descriptors, and which selectors may be loaded;
* `Machine`, `Instr`, `exec`, `run` — the processor and its instructions;
* `Machine.interrupt`, `Machine.iret` — into ring 0 through an interrupt gate, and back;
* `Cells mem a ws` — the words `ws` from address `a`;
* `Stack mem₀ top ws m` — `ws` is on the stack below `top`, and the rest of memory is `mem₀`;
* `Stack.pushes`, `Stack.interrupt`, `Held.push`, `Held.pop` — the rules for pushing and popping.
-/
import Mathlib

namespace Asm

abbrev Word := BitVec 32
abbrev Selector := BitVec 16

/-! ### Descriptors -/

/-- A selector: the index in the table, and the ring it asks for. -/
def Selector.index (s : Selector) : ℕ := (s.extractLsb' 3 13).toNat

def Selector.rpl (s : Selector) : ℕ := (s.extractLsb' 0 2).toNat

/-- The global descriptor table. -/
abbrev Gdt := List (BitVec 64)

/-- A descriptor of a segment of code or data. -/
structure SegDesc where
  present : Bool
  dpl : ℕ
  code : Bool
  conforming : Bool
  rw : Bool

/-- The access byte; system descriptors are no segments. -/
def decode (d : BitVec 64) : Option SegDesc :=
  if d.getLsbD 44 then
    some ⟨d.getLsbD 47, (d.extractLsb' 45 2).toNat, d.getLsbD 43, d.getLsbD 43 && d.getLsbD 42,
      d.getLsbD 41⟩
  else none

/-- The descriptor of a selector; there is no local table. -/
def Gdt.find (g : Gdt) (s : Selector) : Option SegDesc :=
  if s.getLsbD 2 then none else (g[s.index]?).bind decode

def Selector.null (s : Selector) : Bool := s.extractLsb' 2 14 == 0

/-- The selector may be loaded in `ds`, `es`, `fs` or `gs`. -/
def Gdt.data (g : Gdt) (cpl : ℕ) (s : Selector) : Bool :=
  s.null || (g.find s).any fun d => d.present && (!d.code || d.rw) &&
    (d.conforming || decide (cpl ≤ d.dpl) && decide (s.rpl ≤ d.dpl))

/-- The selector may be loaded in `ss`. -/
def Gdt.stack (g : Gdt) (cpl : ℕ) (s : Selector) : Bool :=
  (g.find s).any fun d => d.present && !d.code && d.rw && d.dpl == cpl && s.rpl == cpl

/-- The selector may be loaded in `cs` by a return to the ring it asks for. -/
def Gdt.code (g : Gdt) (s : Selector) : Bool :=
  (g.find s).any fun d => d.present && d.code &&
    (if d.conforming then decide (d.dpl ≤ s.rpl) else d.dpl == s.rpl)

/-- A return to an outer ring leaves the selector. -/
def Gdt.kept (g : Gdt) (cpl : ℕ) (s : Selector) : Bool :=
  s.null || (g.find s).any fun d => d.conforming || decide (cpl ≤ d.dpl)

/-- What may be loaded in an outer ring may be loaded in ring 0, and survives a return. -/
theorem Gdt.data_kept {g : Gdt} {cpl : ℕ} {s : Selector} (h : g.data cpl s = true) :
    g.data 0 s = true ∧ g.kept cpl s = true := by
  unfold Gdt.data at h
  unfold Gdt.data Gdt.kept
  rcases Bool.or_eq_true_iff.mp h with hnull | hfind
  · simp only [hnull, Bool.true_or, and_self]
  · rw [Option.any_eq_true] at hfind
    obtain ⟨d, hd, hok⟩ := hfind
    simp only [Bool.and_eq_true, Bool.or_eq_true, decide_eq_true_eq] at hok
    obtain ⟨⟨hpres, hread⟩, hring⟩ := hok
    simp only [hd, Option.any_some, Bool.or_eq_true, Bool.and_eq_true, decide_eq_true_eq]
    exact ⟨Or.inr ⟨⟨hpres, hread⟩, hring.imp_right fun h => ⟨Nat.zero_le _, h.2⟩⟩,
      Or.inr (hring.imp_right fun h => h.1)⟩

/-! ### The processor -/

inductive Reg
  | eax | ecx | edx | ebx | esp | ebp | esi | edi
  deriving DecidableEq, Repr

inductive Seg
  | cs | ss | ds | es | fs | gs
  deriving DecidableEq, Repr

structure Machine where
  reg : Reg → Word
  seg : Seg → Selector
  eip : Word
  eflags : Word
  mem : Word → Word

inductive Instr
  | cli
  | pushImm (w : Word)
  | push (r : Reg)
  | pop (r : Reg)
  | pusha
  | popa
  | xor (d s : Reg)
  | mov (d s : Reg)
  | movImm (d : Reg) (w : Word)
  | movLow (d : Reg) (v : BitVec 16)
  | movSeg (d : Seg) (s : Reg)
  | readSeg (d : Reg) (s : Seg)
  | addImm (d : Reg) (w : Word)
  | load (d base : Reg) (k : Word)
  | call (back : Word)
  | ret
  | iret

namespace Machine

def cpl (m : Machine) : ℕ := (m.seg .cs).rpl

def setReg (m : Machine) (r : Reg) (w : Word) : Machine :=
  { m with reg := Function.update m.reg r w }

def setSeg (m : Machine) (s : Seg) (v : Selector) : Machine :=
  { m with seg := Function.update m.seg s v }

@[simp] theorem setReg_self (m : Machine) (r : Reg) (w : Word) : (m.setReg r w).reg r = w :=
  Function.update_self _ _ _

@[simp] theorem setReg_ne (m : Machine) {r r' : Reg} (h : r' ≠ r) (w : Word) :
    (m.setReg r w).reg r' = m.reg r' := Function.update_of_ne h _ _

@[simp] theorem setSeg_self (m : Machine) (s : Seg) (v : Selector) : (m.setSeg s v).seg s = v :=
  Function.update_self _ _ _

@[simp] theorem setSeg_ne (m : Machine) {s s' : Seg} (h : s' ≠ s) (v : Selector) :
    (m.setSeg s v).seg s' = m.seg s' := Function.update_of_ne h _ _

/-- The other half of the register stays. -/
def setLow (m : Machine) (r : Reg) (v : BitVec 16) : Machine :=
  m.setReg r (m.reg r &&& 0xFFFF0000 ||| v.setWidth 32)

/-- A word of memory, at an address that is a multiple of four. -/
def get (m : Machine) (a : Word) : Option Word := if a.toNat % 4 = 0 then some (m.mem a) else none

def push (m : Machine) (w : Word) : Option Machine :=
  let a := m.reg .esp - 4
  if a.toNat % 4 = 0 then some { m.setReg .esp a with mem := Function.update m.mem a w } else none

def pop (m : Machine) : Option (Word × Machine) := do
  let w ← m.get (m.reg .esp)
  return (w, m.setReg .esp (m.reg .esp + 4))

/-- An interrupt through a gate to ring 0 with code segment `target`: `ss₀` and `esp₀` are those of
the task segment, and `err` is the error code the processor pushes, if any. -/
def interrupt (target ss₀ : Selector) (esp₀ : Word) (err : Option Word) (m : Machine) :
    Option Machine := do
  let outer := [(m.seg .ss).setWidth 32, m.reg .esp]
  let frame := [m.eflags, (m.seg .cs).setWidth 32, m.eip] ++ err.toList
  let m' ← if m.cpl = 0 then frame.foldlM push m
    else (outer ++ frame).foldlM push ((m.setSeg .ss ss₀).setReg .esp esp₀)
  -- the gate clears TF, IF, NT, RF and VM
  return { m'.setSeg .cs target with eflags := m.eflags &&& ~~~0x34300 }

/-- `iret`; a task return and a return to virtual-8086 mode are left out. -/
def iret (g : Gdt) (m : Machine) : Option Machine := do
  let (eip, m₁) ← m.pop
  let (cs, m₂) ← m₁.pop
  let (eflags, m₃) ← m₂.pop
  let cs := cs.setWidth 16
  if eflags.getLsbD 17 || !g.code cs || decide (Selector.rpl cs < m.cpl) then none
  else if Selector.rpl cs = m.cpl then some { m₃.setSeg .cs cs with eip := eip, eflags := eflags }
  else
    let (esp, m₄) ← m₃.pop
    let (ss, m₅) ← m₄.pop
    let ss := ss.setWidth 16
    if g.stack (Selector.rpl cs) ss then
      some { m₅.setReg .esp esp with
        eip := eip
        eflags := eflags
        seg := fun s => match s with
          | .cs => cs
          | .ss => ss
          | s => if g.kept (Selector.rpl cs) (m.seg s) then m.seg s else 0 }
    else none

end Machine

/-- One instruction.  The status flags of `xor` and `add` are not followed. -/
def exec (g : Gdt) (i : Instr) (m : Machine) : Option Machine :=
  match i with
  | .cli => some { m with eflags := m.eflags &&& ~~~0x200 }
  | .pushImm w => m.push w
  | .push r => m.push (m.reg r)
  | .pop r => m.pop.map fun x => x.2.setReg r x.1
  | .pusha => ([.eax, .ecx, .edx, .ebx, .esp, .ebp, .esi, .edi].map m.reg).foldlM Machine.push m
  | .popa =>
    [.edi, .esi, .ebp, .esp, .ebx, .edx, .ecx, .eax].foldlM (fun m r =>
      m.pop.map fun x => if r = .esp then x.2 else x.2.setReg r x.1) m
  | .xor d s => some (m.setReg d (m.reg d ^^^ m.reg s))
  | .mov d s => some (m.setReg d (m.reg s))
  | .movImm d w => some (m.setReg d w)
  | .movLow d v => some (m.setLow d v)
  | .movSeg d s =>
    let v := (m.reg s).setWidth 16
    match d with
    | .cs => none
    | .ss => if g.stack m.cpl v then some (m.setSeg .ss v) else none
    | d => if g.data m.cpl v then some (m.setSeg d v) else none
  | .readSeg d s => some (m.setLow d (m.seg s))
  | .addImm d w => some (m.setReg d (m.reg d + w))
  | .load d base k => (m.get (m.reg base + k)).map (m.setReg d)
  | .call back => m.push back
  | .ret => m.pop.map fun x => { x.2 with eip := x.1 }
  | .iret => m.iret g

def run (g : Gdt) (is : List Instr) (m : Machine) : Option Machine :=
  is.foldlM (fun m i => exec g i m) m

theorem run_cons {g : Gdt} {i : Instr} {is : List Instr} {m : Machine} :
    run g (i :: is) m = (exec g i m).bind (run g is) := List.foldlM_cons

theorem run_append {g : Gdt} (is js : List Instr) {m : Machine} :
    run g (is ++ js) m = (run g is m).bind (run g js) := List.foldlM_append

theorem run_step {g : Gdt} {i : Instr} {is : List Instr} {m m' : Machine}
    (h : exec g i m = some m') : run g (i :: is) m = run g is m' := by
  rw [run_cons, h, Option.bind_some]

/-- Loading data selectors from one register. -/
theorem run_movSegs {g : Gdt} {r : Reg} {v : Selector} : ∀ (segs : List Seg) {m : Machine},
    (∀ s ∈ segs, s ≠ .cs ∧ s ≠ .ss) → (m.reg r).setWidth 16 = v → g.data m.cpl v = true →
    run g (segs.map (.movSeg · r)) m =
      some { m with seg := fun s => if s ∈ segs then v else m.seg s } := by
  intro segs
  induction segs with
  | nil =>
    intro m _ _ _
    simp [run]
  | cons s segs ih =>
    intro m hsegs hr hv
    obtain ⟨hcs, hss⟩ := hsegs s List.mem_cons_self
    have hstep : exec g (.movSeg s r) m = some (m.setSeg s v) := by
      cases s <;> first
        | exact absurd rfl hcs
        | exact absurd rfl hss
        | simp only [exec, hr, hv, if_true]
    have hcpl : (m.setSeg s v).cpl = m.cpl :=
      congrArg Selector.rpl (Machine.setSeg_ne m (Ne.symm hcs) v)
    have hrest := @ih (m.setSeg s v) (fun s hs => hsegs s (List.mem_cons_of_mem _ hs)) hr
      (by rw [hcpl]; exact hv)
    rw [List.map_cons, run_step hstep, hrest]
    congr 2
    funext q
    by_cases hq : q ∈ segs
    · rw [if_pos hq, if_pos (List.mem_cons_of_mem _ hq)]
    · rw [if_neg hq]
      by_cases hqs : q = s
      · rw [hqs, Machine.setSeg_self, if_pos List.mem_cons_self]
      · rw [Machine.setSeg_ne _ hqs, if_neg (by simp [hqs, hq])]

/-- The low half of a register. -/
theorem setLow_low (w : Word) (v : BitVec 16) :
    (w &&& 0xFFFF0000 ||| v.setWidth 32).setWidth 16 = v := by
  apply BitVec.eq_of_getLsbD_eq
  intro i hi
  simp [hi]

/-! ### Words in memory -/

/-- The words `ws` from address `a`. -/
def Cells (mem : Word → Word) (a : ℕ) (ws : List Word) : Prop :=
  ∀ i (hi : i < ws.length) (b : Word), b.toNat = a + 4 * i → mem b = ws[i]

section Rules

variable {mem mem' mem₀ : Word → Word} {a top : ℕ} {w : Word} {ws vs : List Word}
  {m m' m₁ : Machine}

theorem Cells.nil : Cells mem a [] := fun _ hi => absurd hi (Nat.not_lt_zero _)

theorem Cells.head (h : Cells mem a (w :: ws)) {b : Word} (hb : b.toNat = a) : mem b = w :=
  h 0 (by simp) b (by omega)

theorem Cells.tail (h : Cells mem a (w :: ws)) : Cells mem (a + 4) ws := by
  intro i hi b hb
  exact h (i + 1) (by simpa using hi) b (by omega)

theorem Cells.cons (hw : ∀ b : Word, b.toNat = a → mem b = w) (h : Cells mem (a + 4) ws) :
    Cells mem a (w :: ws) := by
  intro i hi b hb
  cases i with
  | zero => exact hw b (by omega)
  | succ i => exact h i (by simpa using hi) b (by omega)

theorem Cells.congr (h : Cells mem a ws)
    (hmem : ∀ b : Word, a ≤ b.toNat → b.toNat < a + 4 * ws.length → mem' b = mem b) :
    Cells mem' a ws := by
  intro i hi b hb
  rw [hmem b (by omega) (by omega)]
  exact h i hi b hb

/-- Memory with the words `ws` at `a`. -/
def wordsAt (a : ℕ) (ws : List Word) : Word → Word := fun b => ws.getD ((b.toNat - a) / 4) 0

theorem Cells.wordsAt (a : ℕ) (ws : List Word) : Cells (wordsAt a ws) a ws := by
  intro i hi b hb
  have hdiv : (b.toNat - a) / 4 = i := by omega
  rw [Asm.wordsAt, hdiv, List.getD_eq_getElem _ _ hi]

/-- All but the stack pointer and memory is the same. -/
structure SameRegs (m m' : Machine) : Prop where
  reg : ∀ r, r ≠ .esp → m'.reg r = m.reg r
  seg : m'.seg = m.seg
  eip : m'.eip = m.eip
  eflags : m'.eflags = m.eflags

theorem SameRegs.refl (m : Machine) : SameRegs m m := ⟨fun _ _ => rfl, rfl, rfl, rfl⟩

theorem SameRegs.trans (h : SameRegs m m₁) (h' : SameRegs m₁ m') : SameRegs m m' :=
  ⟨fun r hr => (h'.reg r hr).trans (h.reg r hr), h'.seg.trans h.seg, h'.eip.trans h.eip,
    h'.eflags.trans h.eflags⟩

/-! ### Pushing -/

/-- The words `ws` lie on the stack, which ends at `top`; other memory is as in `mem₀`. -/
structure Stack (mem₀ : Word → Word) (top : ℕ) (ws : List Word) (m : Machine) : Prop where
  esp : (m.reg .esp).toNat + 4 * ws.length = top
  aligned : top % 4 = 0
  cells : Cells m.mem (m.reg .esp).toNat ws
  other : ∀ b : Word, b.toNat < (m.reg .esp).toNat ∨ top ≤ b.toNat → m.mem b = mem₀ b

theorem Stack.empty (ha : (m.reg .esp).toNat % 4 = 0) :
    Stack m.mem (m.reg .esp).toNat [] m := ⟨rfl, ha, Cells.nil, fun _ _ => rfl⟩

/-- Code that leaves the stack pointer and memory. -/
theorem Stack.congr (h : Stack mem₀ top ws m) (hesp : m'.reg .esp = m.reg .esp)
    (hmem : m'.mem = m.mem) : Stack mem₀ top ws m' := by
  refine ⟨?_, h.aligned, ?_, ?_⟩
  · rw [hesp]
    exact h.esp
  · rw [hesp, hmem]
    exact h.cells
  · rw [hesp, hmem]
    exact h.other

theorem Stack.push (h : Stack mem₀ top ws m) (hroom : 4 * (ws.length + 1) ≤ top) (w : Word) :
    ∃ m', m.push w = some m' ∧ Stack mem₀ top (w :: ws) m' ∧ SameRegs m m' := by
  have hesp := h.esp
  have haligned := h.aligned
  have haddr : (m.reg .esp - 4).toNat = (m.reg .esp).toNat - 4 := by bv_omega
  refine ⟨_, if_pos (by rw [haddr]; omega), ⟨?_, haligned, Cells.cons (fun b hb => ?_) ?_,
    fun b hb => ?_⟩, ⟨fun r hr => Function.update_of_ne hr _ _, rfl, rfl, rfl⟩⟩
  · simp only [Machine.setReg, Function.update_self, haddr, List.length_cons]
    omega
  · simp only [Machine.setReg, Function.update_self] at hb ⊢
    rw [BitVec.eq_of_toNat_eq hb, Function.update_self]
  · simp only [Machine.setReg, Function.update_self, haddr]
    rw [show (m.reg .esp).toNat - 4 + 4 = (m.reg .esp).toNat by omega]
    refine h.cells.congr fun b hb _ => Function.update_of_ne (fun he => ?_) _ _
    rw [he, haddr] at hb
    omega
  · simp only [Machine.setReg, Function.update_self, haddr] at hb ⊢
    rw [Function.update_of_ne]
    · exact h.other b (by omega)
    · rintro rfl
      rw [haddr] at hb
      omega

theorem Stack.pushes (h : Stack mem₀ top ws m) : ∀ (vs : List Word),
    4 * (ws.length + vs.length) ≤ top → ∃ m', vs.foldlM Machine.push m = some m' ∧
      Stack mem₀ top (vs.reverse ++ ws) m' ∧ SameRegs m m' := by
  intro vs
  induction vs generalizing ws m with
  | nil =>
    intro _
    exact ⟨m, rfl, h, .refl m⟩
  | cons v vs ih =>
    intro hroom
    rw [List.length_cons] at hroom
    obtain ⟨m₁, h₁, hs₁, hr₁⟩ := h.push (by omega) v
    obtain ⟨m', h', hs', hr'⟩ := ih hs₁ (by rw [List.length_cons]; omega)
    refine ⟨m', ?_, ?_, hr₁.trans hr'⟩
    · rw [List.foldlM_cons, h₁]
      exact h'
    · rw [List.reverse_cons, List.append_assoc]
      exact hs'

/-- `pusha` pushes the stack pointer as it was. -/
theorem Stack.pusha {g : Gdt} (h : Stack mem₀ top ws m) (hroom : 4 * (ws.length + 8) ≤ top) :
    ∃ m', exec g .pusha m = some m' ∧ SameRegs m m' ∧ Stack mem₀ top (m.reg .edi :: m.reg .esi ::
      m.reg .ebp :: m.reg .esp :: m.reg .ebx :: m.reg .edx :: m.reg .ecx :: m.reg .eax :: ws) m' := by
  obtain ⟨m', h', hs', hr'⟩ :=
    h.pushes ([.eax, .ecx, .edx, .ebx, .esp, .ebp, .esi, .edi].map m.reg) (by simpa using hroom)
  exact ⟨m', h', hr', hs'⟩

/-- **An interrupt from an outer ring** leaves its frame at the end of the stack of ring 0. -/
theorem Stack.interrupt (target ss₀ : Selector) {esp₀ : Word} (err : Option Word) (hcpl : m.cpl ≠ 0)
    (ha : esp₀.toNat % 4 = 0) (hroom : 24 ≤ esp₀.toNat) :
    ∃ m', m.interrupt target ss₀ esp₀ err = some m' ∧
      Stack m.mem esp₀.toNat (err.toList ++ [m.eip, (m.seg .cs).setWidth 32, m.eflags, m.reg .esp,
        (m.seg .ss).setWidth 32]) m' ∧
      (∀ r, r ≠ .esp → m'.reg r = m.reg r) ∧
      m'.seg = Function.update (Function.update m.seg .ss ss₀) .cs target := by
  set m₀ := (m.setSeg .ss ss₀).setReg .esp esp₀ with hm₀
  have hesp : m₀.reg .esp = esp₀ := Machine.setReg_self _ _ _
  have hstack : Stack m.mem esp₀.toNat [] m₀ := by
    have h := Stack.empty (m := m₀) (by rw [hesp]; exact ha)
    rw [hesp] at h
    exact h
  have hlen : err.toList.length ≤ 1 := by cases err <;> simp
  obtain ⟨m₁, h₁, hs₁, hr₁⟩ := hstack.pushes ([(m.seg .ss).setWidth 32, m.reg .esp] ++
    ([m.eflags, (m.seg .cs).setWidth 32, m.eip] ++ err.toList)) (by simp; omega)
  have hseg := hr₁.seg
  set m' : Machine := { m₁.setSeg .cs target with eflags := m.eflags &&& ~~~0x34300 } with hm'
  have hs' : Stack m.mem esp₀.toNat _ m' := hs₁.congr rfl rfl
  refine ⟨m', ?_, ?_, fun r hr => ?_, ?_⟩
  · unfold Machine.interrupt
    dsimp only
    rw [if_neg hcpl, h₁]
    rfl
  · have hwords : ([(m.seg .ss).setWidth 32, m.reg .esp] ++
        ([m.eflags, (m.seg .cs).setWidth 32, m.eip] ++ err.toList)).reverse ++ [] =
        err.toList ++ [m.eip, (m.seg .cs).setWidth 32, m.eflags, m.reg .esp,
          (m.seg .ss).setWidth 32] := by cases err <;> rfl
    rw [hwords] at hs'
    exact hs'
  · exact (hr₁.reg r hr).trans (Function.update_of_ne hr _ _)
  · show Function.update m₁.seg _ _ = _
    rw [hseg]
    rfl

/-- An interrupt of ring 0 stays on the stack. -/
theorem Stack.interruptInner (target ss₀ : Selector) (esp₀ : Word) (hcpl : m.cpl = 0)
    (ha : (m.reg .esp).toNat % 4 = 0) (hroom : 12 ≤ (m.reg .esp).toNat) :
    ∃ m', m.interrupt target ss₀ esp₀ none = some m' ∧
      Stack m.mem (m.reg .esp).toNat [m.eip, (m.seg .cs).setWidth 32, m.eflags] m' ∧
      (∀ r, r ≠ .esp → m'.reg r = m.reg r) ∧ m'.seg = Function.update m.seg .cs target := by
  obtain ⟨m₁, h₁, hs₁, hr₁⟩ := (Stack.empty ha).pushes
    ([m.eflags, (m.seg .cs).setWidth 32, m.eip] ++ (none : Option Word).toList) (by simpa using hroom)
  set m' : Machine := { m₁.setSeg .cs target with eflags := m.eflags &&& ~~~0x34300 } with hm'
  have hs' : Stack m.mem (m.reg .esp).toNat _ m' := hs₁.congr rfl rfl
  refine ⟨m', ?_, hs', hr₁.reg, ?_⟩
  · unfold Machine.interrupt
    dsimp only
    rw [if_pos hcpl, h₁]
    rfl
  · show Function.update m₁.seg _ _ = _
    rw [hr₁.seg]

/-! ### Popping -/

/-- The words `ws` lie at the stack pointer. -/
structure Held (ws : List Word) (m : Machine) : Prop where
  aligned : (m.reg .esp).toNat % 4 = 0
  room : (m.reg .esp).toNat + 4 * ws.length < 2 ^ 32
  cells : Cells m.mem (m.reg .esp).toNat ws

theorem Held.congr (h : Held ws m) (hesp : m'.reg .esp = m.reg .esp) (hmem : m'.mem = m.mem) :
    Held ws m' := by
  refine ⟨?_, ?_, ?_⟩
  · rw [hesp]
    exact h.aligned
  · rw [hesp]
    exact h.room
  · rw [hesp, hmem]
    exact h.cells

theorem Held.pop_eq (h : Held (w :: ws) m) :
    m.pop = some (w, m.setReg .esp (m.reg .esp + 4)) := by
  unfold Machine.pop Machine.get
  rw [if_pos h.aligned, h.cells.head rfl]
  rfl

theorem Held.pop (h : Held (w :: ws) m) :
    ∃ m', m.pop = some (w, m') ∧ Held ws m' ∧ SameRegs m m' ∧ m'.mem = m.mem := by
  have haligned := h.aligned
  have hroom := h.room
  rw [List.length_cons] at hroom
  have haddr : (m.reg .esp + 4).toNat = (m.reg .esp).toNat + 4 := by bv_omega
  have hesp : (m.setReg .esp (m.reg .esp + 4)).reg .esp = m.reg .esp + 4 :=
    Machine.setReg_self _ _ _
  refine ⟨m.setReg .esp (m.reg .esp + 4), h.pop_eq, ⟨?_, ?_, ?_⟩,
    ⟨fun r hr => Function.update_of_ne hr _ _, rfl, rfl, rfl⟩, rfl⟩
  · rw [hesp, haddr]
    omega
  · rw [hesp, haddr]
    omega
  · rw [hesp, haddr]
    exact h.cells.tail

theorem Held.push (h : Held ws m) (hroom : 4 ≤ (m.reg .esp).toNat) (w : Word) :
    ∃ m', m.push w = some m' ∧ Held (w :: ws) m' ∧ SameRegs m m' ∧
      m'.reg .esp = m.reg .esp - 4 ∧ m'.mem = Function.update m.mem (m.reg .esp - 4) w := by
  have haligned := h.aligned
  have hend := h.room
  have haddr : (m.reg .esp - 4).toNat = (m.reg .esp).toNat - 4 := by bv_omega
  set m' : Machine := { m.setReg .esp (m.reg .esp - 4) with
    mem := Function.update m.mem (m.reg .esp - 4) w }
  have hesp : m'.reg .esp = m.reg .esp - 4 := Machine.setReg_self m .esp _
  refine ⟨m', if_pos (by rw [haddr]; omega), ⟨?_, ?_, Cells.cons (fun b hb => ?_) ?_⟩,
    ⟨fun r hr => Function.update_of_ne hr _ _, rfl, rfl, rfl⟩, hesp, rfl⟩
  · rw [hesp, haddr]
    omega
  · rw [hesp, haddr, List.length_cons]
    omega
  · rw [hesp] at hb
    obtain rfl : b = m.reg .esp - 4 := BitVec.eq_of_toNat_eq hb
    exact Function.update_self _ _ _
  · rw [hesp, haddr, show (m.reg .esp).toNat - 4 + 4 = (m.reg .esp).toNat by omega]
    refine h.cells.congr fun b hb _ => Function.update_of_ne ?_ _ _
    rintro rfl
    omega

/-- A word above the stack pointer. -/
theorem Held.load {g : Gdt} {d : Reg} (h : Held ws m) {k : ℕ} (hk : k < ws.length) :
    exec g (.load d .esp (BitVec.ofNat 32 (4 * k))) m = some (m.setReg d ws[k]) := by
  have haligned := h.aligned
  have hroom := h.room
  have haddr : (m.reg .esp + BitVec.ofNat 32 (4 * k)).toNat = (m.reg .esp).toNat + 4 * k := by
    bv_omega
  rw [exec, Machine.get, if_pos (by rw [haddr]; omega), h.cells k hk _ haddr]
  rfl

/-- `ret`. -/
theorem Held.ret {g : Gdt} (h : Held (w :: ws) m) :
    ∃ m', exec g .ret m = some m' ∧ m'.eip = w ∧ m'.mem = m.mem ∧ m'.seg = m.seg ∧
      m'.eflags = m.eflags ∧ m'.reg = Function.update m.reg .esp (m.reg .esp + 4) := by
  refine ⟨{ m.setReg .esp (m.reg .esp + 4) with eip := w }, ?_, rfl, rfl, rfl, rfl, rfl⟩
  rw [exec, h.pop_eq]
  rfl

/-- `pop` into a register but the stack pointer. -/
theorem Held.popReg {g : Gdt} {r : Reg} (h : Held (w :: ws) m) (hr : r ≠ .esp) :
    ∃ m', exec g (.pop r) m = some m' ∧ Held ws m' ∧ m'.mem = m.mem ∧ m'.seg = m.seg ∧
      m'.reg r = w := by
  obtain ⟨m₁, h₁, hs₁, hr₁, hmem⟩ := h.pop
  refine ⟨m₁.setReg r w, ?_, hs₁.congr (Machine.setReg_ne m₁ hr.symm w) rfl, hmem, hr₁.seg,
    Machine.setReg_self _ _ _⟩
  rw [exec, h₁]
  rfl

/-- `popa`, over some of the registers. -/
theorem Held.popRegs (rs : List Reg) : ∀ (vs : List Word) {m : Machine}, Held (vs ++ ws) m →
    rs.length = vs.length → rs.Nodup →
    ∃ m', rs.foldlM (fun m r => m.pop.map fun x => if r = .esp then x.2 else x.2.setReg r x.1) m =
        some m' ∧ Held ws m' ∧ m'.mem = m.mem ∧ m'.seg = m.seg ∧
      (∀ r ∉ rs, r ≠ .esp → m'.reg r = m.reg r) ∧
      ∀ x ∈ rs.zip vs, x.1 ≠ .esp → m'.reg x.1 = x.2 := by
  induction rs with
  | nil =>
    intro vs m h hlen _
    obtain rfl := List.length_eq_zero_iff.mp hlen.symm
    exact ⟨m, rfl, h, rfl, rfl, fun _ _ _ => rfl, fun x hx => absurd hx List.not_mem_nil⟩
  | cons r rs ih =>
    intro vs m h hlen hnodup
    obtain ⟨v, vs, rfl⟩ := List.exists_cons_of_length_eq_add_one hlen.symm
    obtain ⟨hr, hnodup⟩ := List.nodup_cons.mp hnodup
    obtain ⟨m₁, h₁, hs₁, hr₁, hmem₁⟩ := h.pop
    set m₂ := if r = .esp then m₁ else m₁.setReg r v with hm₂
    have hesp : m₂.reg .esp = m₁.reg .esp := by
      by_cases hre : r = .esp
      · rw [hm₂, if_pos hre]
      · rw [hm₂, if_neg hre, Machine.setReg_ne _ (Ne.symm hre)]
    have hmem₂ : m₂.mem = m₁.mem ∧ m₂.seg = m₁.seg := by
      rw [hm₂]
      split <;> exact ⟨rfl, rfl⟩
    have hother : ∀ q, q ≠ r → m₂.reg q = m₁.reg q := by
      intro q hq
      by_cases hre : r = .esp
      · rw [hm₂, if_pos hre]
      · rw [hm₂, if_neg hre, Machine.setReg_ne _ hq]
    obtain ⟨m', h', hs', hmem', hseg', hkeep, hvals⟩ :=
      ih vs (hs₁.congr hesp hmem₂.1) (by simpa using hlen) hnodup
    refine ⟨m', ?_, hs', hmem'.trans (hmem₂.1.trans hmem₁),
      hseg'.trans (hmem₂.2.trans hr₁.seg), fun q hq hqe => ?_, fun x hx hxe => ?_⟩
    · rw [List.foldlM_cons, h₁]
      exact h'
    · rw [List.mem_cons, not_or] at hq
      rw [hkeep q hq.2 hqe, hother q hq.1, hr₁.reg q hqe]
    · rw [List.zip_cons_cons, List.mem_cons] at hx
      rcases hx with rfl | hx
      · rw [hkeep r hr hxe, hm₂, if_neg hxe]
        exact Machine.setReg_self _ _ _
      · exact hvals x hx hxe

/-- **`iret` to an outer ring.** -/
theorem Held.iret {g : Gdt} {eip cs eflags esp ss : Word}
    (h : Held (eip :: cs :: eflags :: esp :: ss :: ws) m) (hvm : eflags.getLsbD 17 = false)
    (hcs : g.code (cs.setWidth 16) = true) (hring : m.cpl < (Selector.rpl (cs.setWidth 16)))
    (hss : g.stack (Selector.rpl (cs.setWidth 16)) (ss.setWidth 16) = true) :
    ∃ m', exec g .iret m = some m' ∧ m'.mem = m.mem ∧ m'.eip = eip ∧ m'.eflags = eflags ∧
      m'.reg = Function.update m.reg .esp esp ∧ m'.seg .cs = cs.setWidth 16 ∧
      m'.seg .ss = ss.setWidth 16 ∧ ∀ s, s ≠ .cs → s ≠ .ss →
        m'.seg s = if g.kept (Selector.rpl (cs.setWidth 16)) (m.seg s) then m.seg s else 0 := by
  obtain ⟨m₁, h₁, hs₁, hr₁, hmem₁⟩ := h.pop
  obtain ⟨m₂, h₂, hs₂, hr₂, hmem₂⟩ := hs₁.pop
  obtain ⟨m₃, h₃, hs₃, hr₃, hmem₃⟩ := hs₂.pop
  obtain ⟨m₄, h₄, hs₄, hr₄, hmem₄⟩ := hs₃.pop
  obtain ⟨m₅, h₅, -, hr₅, hmem₅⟩ := hs₄.pop
  have hr := hr₁.trans (hr₂.trans (hr₃.trans (hr₄.trans hr₅)))
  let m' : Machine := { m₅.setReg .esp esp with
    eip := eip
    eflags := eflags
    seg := fun s => match s with
      | .cs => cs.setWidth 16
      | .ss => ss.setWidth 16
      | s => if g.kept (Selector.rpl (cs.setWidth 16)) (m.seg s) then m.seg s else 0 }
  refine ⟨m', ?_, hmem₅.trans (hmem₄.trans (hmem₃.trans (hmem₂.trans hmem₁))), rfl, rfl, ?_, rfl, rfl,
    fun s hc hs => ?_⟩
  · unfold exec Machine.iret
    simp only [h₁, h₂, h₃, h₄, h₅, hvm, hcs, Option.bind_eq_bind, Option.bind_some, Bool.not_true,
      Bool.or_false, Bool.false_or, decide_eq_true_eq, not_lt.mpr hring.le, if_false,
      if_neg hring.ne', hss, if_true]
    rfl
  · funext r
    show (m₅.setReg .esp esp).reg r = _
    by_cases hre : r = .esp
    · subst hre
      rw [Machine.setReg_self, Function.update_self]
    · rw [Machine.setReg_ne _ hre, Function.update_of_ne hre]
      exact hr.reg r hre
  · cases s <;> first | exact absurd rfl hc | exact absurd rfl hs | rfl

end Rules

end Asm
