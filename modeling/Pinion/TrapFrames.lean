/-
Into the kernel and out of it: the code of `int.s`.

A thread that enters the kernel leaves its registers at the start of its structure, as the stack
pointer of ring 0 is the end of that part of it.  `int_handler` gets the structure and returns one,
from which `int_return` loads the registers.

* `gdt` — the descriptors of `boot.s`;
* `stub`, `intCommon`, `intReturn` — the code;
* `imageWords` — the words of an image, as the code finds them;
* `AtHandler` — the call of `int_handler`;
* `int_entry` — the image is where it belongs, if the stub knows of the error code;
* `int_entry_iff` — so it is for every vector but that of alignment checks;
* `int_return` — the registers of an image are loaded.
-/
import Pinion.Asm
import Pinion.Modes

open Asm

namespace Pinion

/-! ### The code -/

/-- `gdt` of `boot.s`, before `init_tss` fills in the last descriptor. -/
def gdt : Gdt :=
  [0x0000000000000000, 0x00CF9A000000FFFF, 0x00CF92000000FFFF, 0x00CFBA000000FFFF,
    0x00CFB2000000FFFF, 0x00CFFA000000FFFF, 0x00CFF2000000FFFF, 0x0000E90000000000]

/-- The vectors with an `INTE` stub: these expect an error code.  The others have `INTN`. -/
def INTE : List ℕ := [8, 10, 11, 12, 13, 14]

/-- The stub of a vector, up to its jump to `int_common`. -/
def stub (n : ℕ) : List Instr :=
  if n ∈ INTE then [.cli, .pushImm (BitVec.ofNat 32 n)]
  else [.cli, .pushImm 0, .pushImm (BitVec.ofNat 32 n)]

/-- `int_common` up to the call of `int_handler`. -/
def intCommon (kstack back : U32) : List Instr :=
  [.pusha, .xor .eax .eax, .readSeg .eax .ds, .push .eax, .movLow .ecx 0x10, .movSeg .ds .ecx,
    .movSeg .es .ecx, .movSeg .fs .ecx, .movSeg .gs .ecx, .movSeg .ss .ecx, .mov .ebp .esp,
    .movImm .esp (kstack + 0x1FF0), .push .ebp, .call back]

/-- `int_return`. -/
def intReturn : List Instr :=
  [.pop .eax, .movSeg .ds .eax, .movSeg .es .eax, .movSeg .fs .eax, .movSeg .gs .eax, .popa,
    .addImm .esp 8, .iret]

/-- The end of `int_common`: the image that `int_handler` returned is resumed. -/
def intResume : List Instr := .mov .esp .eax :: intReturn

/-- The selectors of the kernel. -/
theorem gdt_kernel : gdt.data 0 0x10 = true ∧ gdt.stack 0 0x10 = true := by decide

/-! ### The call of `int_handler` -/

/-- The registers at an interrupt that `int_common` saves. -/
def savedWords (m : Machine) (esp : U32) : List U32 :=
  [(m.seg .ds).setWidth 32, m.reg .edi, m.reg .esi, m.reg .ebp, esp, m.reg .ebx, m.reg .edx,
    m.reg .ecx, m.reg .eax]

/-- `int_handler` is called on its stack, with the image at `image` that is made of `frame`;
elsewhere memory is as in `mem₀`. -/
structure AtHandler (mem₀ : U32 → U32) (kstack image : U32) (frame : List U32) (m : Machine) :
    Prop where
  cells : Cells m.mem image.toNat frame
  arg : m.mem (kstack + 0x1FEC) = image
  esp : m.reg .esp = kstack + 0x1FE8
  cpl : m.cpl = 0
  segs : ∀ s, s ≠ .cs → m.seg s = 0x10
  other : ∀ b : U32, b.toNat < image.toNat ∨ image.toNat + 4 * frame.length ≤ b.toNat →
    b.toNat < kstack.toNat + 0x1FE8 ∨ kstack.toNat + 0x1FF0 ≤ b.toNat → m.mem b = mem₀ b

/-- The kernel stack is apart from the addresses up to `top`, `n` words of them. -/
structure StackApart (kstack : U32) (top n : ℕ) : Prop where
  aligned : kstack.toNat % 4 = 0
  bound : kstack.toNat + 0x2000 ≤ 2 ^ 32
  apart : top ≤ kstack.toNat + 0x1FE8 ∨ kstack.toNat + 0x1FF0 ≤ top - 4 * n

/-- **`int_common`** completes the image and calls `int_handler` with it. -/
theorem intCommon_frame {mem₀ : U32 → U32} {top : ℕ} {ws : List U32} {m : Machine}
    (hs : Stack mem₀ top ws m) (hcpl : m.cpl = 0) (hroom : 4 * (ws.length + 9) ≤ top)
    {kstack : U32} (back : U32) (hk : StackApart kstack top (ws.length + 9)) :
    ∃ m' image, run gdt (intCommon kstack back) m = some m' ∧
      image.toNat + 4 * (ws.length + 9) = top ∧
      AtHandler mem₀ kstack image (savedWords m (m.reg .esp) ++ ws) m' := by
  obtain ⟨hk₄, hk₁, hapart⟩ := hk
  obtain ⟨m₁, h₁, hr₁, hs₁⟩ := hs.pusha (g := gdt) (by omega)
  -- the data selector, and then the selectors of the kernel
  set m₂ := m₁.setReg .eax (m₁.reg .eax ^^^ m₁.reg .eax)
  set m₃ := m₂.setLow .eax (m₂.seg .ds) with hm₃
  have heax : m₃.reg .eax = (m.seg .ds).setWidth 32 := by
    rw [hm₃, Machine.setLow, Machine.setReg_self, Machine.setReg_self, BitVec.xor_self,
      BitVec.zero_and, BitVec.zero_or, ← hr₁.seg]
    rfl
  have hs₃ : Stack mem₀ top _ m₃ := hs₁.congr rfl rfl
  obtain ⟨m₄, h₄, hs₄, hr₄⟩ := hs₃.push (by simp only [List.length_cons]; omega) (m₃.reg .eax)
  set m₅ := m₄.setLow .ecx 0x10 with hm₅
  have hxor : exec gdt (.xor .eax .eax) m₁ = some m₂ := rfl
  have hread : exec gdt (.readSeg .eax .ds) m₂ = some m₃ := rfl
  have hlow : exec gdt (.movLow .ecx 0x10) m₄ = some m₅ := rfl
  have hcpl₅ : m₅.cpl = 0 := by
    show (m₄.seg .cs).rpl = 0
    rw [hr₄.seg]
    show (m₁.seg .cs).rpl = 0
    rw [hr₁.seg]
    exact hcpl
  have hecx : (m₅.reg .ecx).setWidth 16 = (0x10 : Selector) := by
    rw [hm₅, Machine.setLow, Machine.setReg_self]
    exact setLow_low _ _
  have hdata := run_movSegs (g := gdt) (r := .ecx) [.ds, .es, .fs, .gs] (by decide) hecx
    (by rw [hcpl₅]; exact gdt_kernel.1)
  set m₆ : Machine :=
    { m₅ with seg := fun s => if s ∈ [Seg.ds, .es, .fs, .gs] then 0x10 else m₅.seg s } with hm₆
  have hcpl₆ : m₆.cpl = 0 := hcpl₅
  have hss : exec gdt (.movSeg .ss .ecx) m₆ = some (m₆.setSeg .ss 0x10) := by
    simp only [exec, hcpl₆, show (m₆.reg .ecx).setWidth 16 = (0x10 : Selector) from hecx,
      gdt_kernel.2, if_true]
  -- and then the stack of the kernel
  set m₆' := (m₆.setSeg .ss 0x10).setReg .ebp ((m₆.setSeg .ss 0x10).reg .esp) with hm₆'
  set m₇ := m₆'.setReg .esp (kstack + 0x1FF0) with hm₇
  have hebp₆ : exec gdt (.mov .ebp .esp) (m₆.setSeg .ss 0x10) = some m₆' := by rw [exec]
  have hesp₆ : exec gdt (.movImm .esp (kstack + 0x1FF0)) m₆' = some m₇ := by rw [exec]
  have hK : (kstack + 0x1FF0).toNat = kstack.toNat + 0x1FF0 := by bv_omega
  have hesp₇ : m₇.reg .esp = kstack + 0x1FF0 := Machine.setReg_self _ _ _
  have hstart : Stack m₄.mem (kstack.toNat + 0x1FF0) [] m₇ := by
    have h := Stack.empty (m := m₇) (by rw [hesp₇, hK]; omega)
    rw [hesp₇, hK] at h
    exact h
  obtain ⟨m₈, h₈, hs₈, hr₈⟩ := hstart.push (by simp) (m₇.reg .ebp)
  obtain ⟨m₉, h₉, hs₉, hr₉⟩ := hs₈.push (by simp) back
  have hpush : exec gdt (.push .ebp) m₇ = some m₈ := h₈
  have hcall : exec gdt (.call back) m₈ = some m₉ := h₉
  have hebp : m₇.reg .ebp = m₄.reg .esp := by
    rw [hm₇, Machine.setReg_ne _ (by decide), hm₆', Machine.setReg_self]
    rfl
  have hframe : Stack mem₀ top (savedWords m (m.reg .esp) ++ ws) m₄ := by
    rw [heax] at hs₄
    exact hs₄
  have hlen : (savedWords m (m.reg .esp) ++ ws).length = ws.length + 9 := by
    simp [savedWords]
  have hesp₄ := hframe.esp
  have hesp₉ := hs₉.esp
  rw [hlen] at hesp₄
  simp only [List.length_cons, List.length_nil] at hesp₉
  refine ⟨m₉, m₄.reg .esp, ?_, hesp₄, ⟨hframe.cells.congr fun b hb hb' => ?_, ?_, ?_, ?_,
    fun s hs => ?_, fun b hb hb' => ?_⟩⟩
  · rw [intCommon, run_step h₁, run_step hxor, run_step hread,
      run_step (i := .push .eax) h₄, run_step hlow]
    refine (run_append [.movSeg .ds .ecx, .movSeg .es .ecx, .movSeg .fs .ecx, .movSeg .gs .ecx]
      _).trans ?_
    rw [show run gdt [.movSeg .ds .ecx, .movSeg .es .ecx, .movSeg .fs .ecx, .movSeg .gs .ecx] m₅ =
      some m₆ from hdata, Option.bind_some, run_step hss,
      run_step hebp₆, run_step hesp₆, run_step hpush, run_step hcall]
    rfl
  · rw [hlen] at hb'
    exact hs₉.other b (by omega)
  · have harg := hs₉.cells.tail.head (b := kstack + 0x1FEC) (by bv_omega)
    rw [harg, hebp]
  · apply BitVec.eq_of_toNat_eq
    bv_omega
  · show (m₉.seg .cs).rpl = 0
    rw [hr₉.seg, hr₈.seg]
    exact hcpl₅
  · rw [hr₉.seg, hr₈.seg]
    cases s
    case cs => exact absurd rfl hs
    all_goals rfl
  · rw [hlen] at hb
    rw [hs₉.other b (by omega)]
    exact hframe.other b (by omega)

/-! ### Entry -/

/-- A stub pushes the vector, and a zero where it expects no error code. -/
theorem stub_frame {mem₀ : U32 → U32} {top : ℕ} {ws : List U32} {m : Machine} (n : ℕ)
    (hs : Stack mem₀ top ws m) (hroom : 4 * (ws.length + 2) ≤ top) :
    ∃ m', run gdt (stub n) m = some m' ∧
      Stack mem₀ top (BitVec.ofNat 32 n :: if n ∈ INTE then ws else 0 :: ws) m' ∧
      (∀ r, r ≠ .esp → m'.reg r = m.reg r) ∧ m'.seg = m.seg := by
  set m₀ : Machine := { m with eflags := m.eflags &&& ~~~0x200 }
  have hs₀ : Stack mem₀ top ws m₀ := hs.congr rfl rfl
  have hcli : exec gdt .cli m = some m₀ := rfl
  unfold stub
  by_cases hn : n ∈ INTE
  · rw [if_pos hn, if_pos hn]
    obtain ⟨m₁, h₁, hs₁, hr₁⟩ := hs₀.push (by omega) (BitVec.ofNat 32 n)
    have hpush : exec gdt (.pushImm (BitVec.ofNat 32 n)) m₀ = some m₁ := h₁
    exact ⟨m₁, by rw [run_step hcli, run_step hpush]; rfl, hs₁, hr₁.reg, hr₁.seg⟩
  · rw [if_neg hn, if_neg hn]
    obtain ⟨m₁, h₁, hs₁, hr₁⟩ := hs₀.push (by omega) 0
    obtain ⟨m₂, h₂, hs₂, hr₂⟩ := hs₁.push (by rw [List.length_cons]; omega) (BitVec.ofNat 32 n)
    have hzero : exec gdt (.pushImm 0) m₀ = some m₁ := h₁
    have hpush : exec gdt (.pushImm (BitVec.ofNat 32 n)) m₁ = some m₂ := h₂
    exact ⟨m₂, by rw [run_step hcli, run_step hzero, run_step hpush]; rfl, hs₂,
      (hr₁.trans hr₂).reg, hr₂.seg.trans hr₁.seg⟩

/-- From an interrupt to the call of `int_handler`: `err` is the error code the processor pushes,
and `esp₀` the stack of ring 0. -/
def enter (kstack back esp₀ : U32) (n : ℕ) (err : Option U32) (m : Machine) : Option Machine :=
  (m.interrupt 0x08 0x10 esp₀ err).bind (run gdt (stub n ++ intCommon kstack back))

/-- What the processor saves of a thread. -/
def trapWords (m : Machine) : List U32 :=
  [m.eip, (m.seg .cs).setWidth 32, m.eflags, m.reg .esp, (m.seg .ss).setWidth 32]

/-- The stub of a vector expects an error code where the processor pushes one. -/
def Agrees (n : ℕ) (err : Option U32) : Prop := n ∈ INTE ↔ err.isSome = true

instance (n : ℕ) (err : Option U32) : Decidable (Agrees n err) :=
  inferInstanceAs (Decidable (_ ↔ _))

section Entry

variable {m : Machine} {p kstack : U32}

/-- The frame ends where the stack of ring 0 starts, whatever its length. -/
theorem enter_frame (hcpl : m.cpl ≠ 0) (esp₀ : U32) (ha : esp₀.toNat % 4 = 0)
    (hroom : 68 ≤ esp₀.toNat) (hk : StackApart kstack esp₀.toNat 17) (back : U32) (n : ℕ)
    (err : Option U32) :
    ∃ m' image, enter kstack back esp₀ n err m = some m' ∧
      AtHandler m.mem kstack image (savedWords m (image + 36) ++ BitVec.ofNat 32 n ::
        ((if n ∈ INTE then [] else [0]) ++ err.toList ++ trapWords m)) m' ∧
      image.toNat + (if Agrees n err then 64 else if n ∈ INTE then 60 else 68) = esp₀.toNat := by
  obtain ⟨m₁, h₁, hs₁, hr₁, hseg₁⟩ := Stack.interrupt 0x08 0x10 err hcpl ha (by omega)
  have hlen : (err.toList ++ [m.eip, (m.seg .cs).setWidth 32, m.eflags, m.reg .esp,
      (m.seg .ss).setWidth 32]).length = 5 + if err.isSome then 1 else 0 := by
    cases err <;> rfl
  obtain ⟨m₂, h₂, hs₂, hr₂, hseg₂⟩ := stub_frame n hs₁ (by rw [hlen]; split <;> omega)
  set ws := BitVec.ofNat 32 n :: ((if n ∈ INTE then [] else [0]) ++ err.toList ++ trapWords m) with hws
  have hs₃ : Stack m.mem esp₀.toNat ws m₂ := by
    rw [hws]
    by_cases hn : n ∈ INTE
    · rw [if_pos hn] at hs₂ ⊢
      exact hs₂
    · rw [if_neg hn] at hs₂ ⊢
      exact hs₂
  have hwslen : 4 * (ws.length + 9) =
      if Agrees n err then 64 else if n ∈ INTE then 60 else 68 := by
    rw [hws]
    by_cases hn : n ∈ INTE <;> cases err <;> simp [Agrees, hn, trapWords]
  have hbound : ws.length + 9 ≤ 17 := by split_ifs at hwslen <;> omega
  have hcpl₂ : m₂.cpl = 0 := by
    show (m₂.seg .cs).rpl = 0
    rw [hseg₂, hseg₁, Function.update_self]
    rfl
  obtain ⟨m₃, image, h₃, htop, hat⟩ := intCommon_frame hs₃ hcpl₂ (by omega) back
    ⟨hk.aligned, hk.bound, hk.apart.imp_right fun h => by omega⟩
  have hsaved : savedWords m₂ (m₂.reg .esp) = savedWords m (image + 36) := by
    have hesp : m₂.reg .esp = image + 36 := by
      have hesp := hs₃.esp
      apply BitVec.eq_of_toNat_eq
      bv_omega
    have hds : m₂.seg .ds = m.seg .ds := by
      rw [hseg₂, hseg₁, Function.update_of_ne (by decide), Function.update_of_ne (by decide)]
    have hreg : ∀ r, r ≠ .esp → m₂.reg r = m.reg r := fun r hr => (hr₂ r hr).trans (hr₁ r hr)
    simp only [savedWords, hesp, hds, ne_eq, reduceCtorEq, not_false_eq_true, hreg]
  rw [hsaved] at hat
  refine ⟨m₃, image, ?_, hat, ?_⟩
  · rw [enter, h₁, Option.bind_some, run_append, h₂, Option.bind_some, h₃]
  · rw [← hwslen, htop]

/-- The words of an image. -/
def imageWords (i : Image) : List U32 :=
  [i.ds, i.edi, i.esi, i.ebp, i.esp, i.ebx, i.edx, i.ecx, i.eax, i.num, i.err, i.eip, i.cs, i.eflags,
    i.useresp, i.ss]

/-- The image an interrupt makes of the registers. -/
def trapImage (m : Machine) (p : Ptr) (n : ℕ) (err : U32) (i : Image) : Image :=
  { i with
    ds := (m.seg .ds).setWidth 32, edi := m.reg .edi, esi := m.reg .esi, ebp := m.reg .ebp
    esp := p + 36, ebx := m.reg .ebx, edx := m.reg .edx, ecx := m.reg .ecx, eax := m.reg .eax
    num := BitVec.ofNat 32 n, err := err, eip := m.eip, cs := (m.seg .cs).setWidth 32
    eflags := m.eflags, useresp := m.reg .esp, ss := (m.seg .ss).setWidth 32 }

/-- Into the kernel: `int_handler` is called with the structure of the interrupted thread, and
finds its registers there, exactly if the stub expects an error code where the processor pushes one;
else it gets another address, a word below or above. -/
theorem int_entry (hcpl : m.cpl ≠ 0) (hp : p.toNat % 4 = 0) (hlo : 4 ≤ p.toNat)
    (hhi : p.toNat + 64 < 2 ^ 32) (hk : StackApart kstack (p.toNat + 64) 17) (back : U32) (n : ℕ)
    (err : Option U32) :
    ∃ m', enter kstack back (p + 64) n err m = some m' ∧
      (m'.mem (kstack + 0x1FEC) = p ↔ Agrees n err) ∧ (Agrees n err → ∀ i, AtHandler m.mem kstack p
        (imageWords (trapImage m p n (err.getD 0) i)) m') := by
  have hend : (p + 64).toNat = p.toNat + 64 := by bv_omega
  obtain ⟨m', image, henter, hat, htop⟩ := enter_frame hcpl (p + 64) (by omega) (by omega)
    (by rw [hend]; exact hk) back n err
  rw [hend] at htop
  refine ⟨m', henter, ?_, fun hagree i => ?_⟩
  · rw [hat.arg]
    constructor
    · rintro rfl
      by_contra hno
      rw [if_neg hno] at htop
      split at htop <;> omega
    · intro hagree
      rw [if_pos hagree] at htop
      exact BitVec.eq_of_toNat_eq (by omega)
  · rw [if_pos hagree] at htop
    obtain rfl : image = p := BitVec.eq_of_toNat_eq (by omega)
    have hwords : savedWords m (image + 36) ++ BitVec.ofNat 32 n ::
        ((if n ∈ INTE then [] else [0]) ++ err.toList ++ trapWords m) =
        imageWords (trapImage m image n (err.getD 0) i) := by
      by_cases hn : n ∈ INTE
      · obtain ⟨e, rfl⟩ := Option.isSome_iff_exists.mp (hagree.mp hn)
        rw [if_pos hn]
        rfl
      · have hnone : err = none := by
          rw [← Option.not_isSome_iff_eq_none]
          exact fun he => hn (hagree.mpr he)
        rw [hnone, if_neg hn]
        rfl
    rw [← hwords]
    exact hat

/-- **Every vector but one**: with an error code where the processor pushes one, `int_handler` gets
the structure exactly if the interrupt is no alignment check, whose stub is `INTN`. -/
theorem int_entry_iff (hcpl : m.cpl ≠ 0) (hp : p.toNat % 4 = 0) (hlo : 4 ≤ p.toNat)
    (hhi : p.toNat + 64 < 2 ^ 32) (hk : StackApart kstack (p.toNat + 64) 17) (back : U32) (n : ℕ)
    (err : Option U32) (herr : err.isSome ↔ n ∈ INTE ∨ n = 17) :
    ∃ m', enter kstack back (p + 64) n err m = some m' ∧
      (m'.mem (kstack + 0x1FEC) = p ↔ n ≠ 17) ∧ (n ≠ 17 → ∀ i, AtHandler m.mem kstack p
        (imageWords (trapImage m p n (err.getD 0) i)) m') := by
  have hagree : Agrees n err ↔ n ≠ 17 := by
    rw [Agrees, herr]
    constructor
    · rintro hiff rfl
      exact absurd (hiff.mpr (Or.inr rfl)) (by decide)
    · exact fun hn => ⟨Or.inl, fun h => h.resolve_right hn⟩
  obtain ⟨m', henter, hiff, hat⟩ := int_entry hcpl hp hlo hhi hk back n err
  exact ⟨m', henter, hiff.trans hagree, fun hn => hat (hagree.mpr hn)⟩

end Entry

/-- An alignment check of a thread in ring 1. -/
theorem int_entry_alignment : ∃ m m' : Machine, m.cpl ≠ 0 ∧
    enter 0xF0100000 0 (0xF1000000 + 64) 17 (some 0) m = some m' ∧
    m'.mem (0xF0100000 + 0x1FEC) ≠ 0xF1000000 := by
  set m : Machine := ⟨fun _ => 0, fun _ => 0x19, 0, 0, fun _ => 0⟩ with hm
  have hcpl : m.cpl ≠ 0 := show Selector.rpl 0x19 ≠ 0 by decide
  have hk : StackApart 0xF0100000 ((0xF1000000 : U32).toNat + 64) 17 :=
    ⟨by decide, by decide, Or.inr (by decide)⟩
  obtain ⟨m', henter, hiff, -⟩ := int_entry_iff (p := 0xF1000000) hcpl (by decide) (by decide)
    (by decide) hk 0 17 (some 0) ⟨fun _ => Or.inr rfl, fun _ => rfl⟩
  exact ⟨m, m', hcpl, henter, fun he => hiff.mp he rfl⟩

/-! ### Return -/

/-- The registers the system code of a thread sees. -/
def cpuRegs (m : Machine) : UserRegs where
  ds := (m.seg .ds).setWidth 32
  edi := m.reg .edi
  esi := m.reg .esi
  ebp := m.reg .ebp
  ebx := m.reg .ebx
  edx := m.reg .edx
  ecx := m.reg .ecx
  eax := m.reg .eax
  eip := m.eip
  eflags := m.eflags
  esp := m.reg .esp

/-- Those in an image. -/
def Image.regs (i : Image) : UserRegs :=
  ⟨i.ds, i.edi, i.esi, i.ebp, i.ebx, i.edx, i.ecx, i.eax, i.eip, i.eflags, i.useresp⟩

/-- The image has the selectors of ring 1 or of ring 3, and a data selector of that ring. -/
structure Image.Runnable (i : Image) : Prop where
  ring : i.cs = 0x19 ∧ i.ss = 0x21 ∨ i.cs = 0x2B ∧ i.ss = 0x33
  data : ∃ v : Selector, i.ds = v.setWidth 32 ∧
    gdt.data (Selector.rpl (i.cs.setWidth 16)) v = true

theorem Image.Runnable.selectors {i : Image} (h : i.Runnable) :
    gdt.code (i.cs.setWidth 16) = true ∧ 0 < Selector.rpl (i.cs.setWidth 16) ∧
      gdt.stack (Selector.rpl (i.cs.setWidth 16)) (i.ss.setWidth 16) = true ∧
      (((i.cs.setWidth 16 : Selector).setWidth 32 = i.cs) ∧
        ((i.ss.setWidth 16 : Selector).setWidth 32 = i.ss)) := by
  rcases h.ring with ⟨hcs, hss⟩ | ⟨hcs, hss⟩ <;> rw [hcs, hss] <;> decide

/-- **Out of the kernel.**  `int_return` loads the registers of a runnable image and leaves memory;
`es`, `fs` and `gs` get the selector of `ds`. -/
theorem int_return {i : Image} {p : Ptr} {m : Machine} (hcells : Cells m.mem p.toNat (imageWords i))
    (hp : p.toNat % 4 = 0) (hhi : p.toNat + 64 < 2 ^ 32) (heax : m.reg .eax = p) (hcpl : m.cpl = 0)
    (hrun : i.Runnable) (hvm : i.eflags.getLsbD 17 = false) :
    ∃ m', run gdt intResume m = some m' ∧ m'.mem = m.mem ∧ cpuRegs m' = i.regs ∧
      m'.seg .cs = i.cs.setWidth 16 ∧ m'.seg .ss = i.ss.setWidth 16 ∧
      ∀ s ∈ [Seg.ds, .es, .fs, .gs], m'.seg s = i.ds.setWidth 16 := by
  obtain ⟨hcode, hring, hstack, -⟩ := hrun.selectors
  obtain ⟨v, hds, hdata⟩ := hrun.data
  obtain ⟨hdata₀, hkept⟩ := Gdt.data_kept hdata
  have hv : i.ds.setWidth 16 = v := by
    rw [hds]
    simp
  set m₀ := m.setReg .esp (m.reg .eax) with hm₀
  have hesp₀ : m₀.reg .esp = p := by rw [hm₀, Machine.setReg_self, heax]
  have hheld : Held (imageWords i) m₀ := by
    refine ⟨?_, ?_, ?_⟩
    · rw [hesp₀]
      exact hp
    · rw [hesp₀]
      exact hhi
    · rw [hesp₀]
      exact hcells
  obtain ⟨m₁, h₁, hs₁, hmem₁, hseg₁, heax₁⟩ := Held.popReg (g := gdt) (r := .eax) hheld (by decide)
  have hcpl₁ : m₁.cpl = 0 := by
    show (m₁.seg .cs).rpl = 0
    rw [hseg₁]
    exact hcpl
  have hsegs := run_movSegs (g := gdt) (r := .eax) (v := v) [.ds, .es, .fs, .gs] (m := m₁) (by decide)
    (by rw [heax₁]; exact hv) (by rw [hcpl₁]; exact hdata₀)
  set m₂ : Machine :=
    { m₁ with seg := fun s => if s ∈ [Seg.ds, .es, .fs, .gs] then v else m₁.seg s } with hm₂
  have hs₂ : Held _ m₂ := hs₁.congr rfl rfl
  -- the eight registers, and then the frame of the processor
  obtain ⟨m₃, h₃, hs₃, hmem₃, hseg₃, -, hvals⟩ := Held.popRegs
    [.edi, .esi, .ebp, .esp, .ebx, .edx, .ecx, .eax]
    [i.edi, i.esi, i.ebp, i.esp, i.ebx, i.edx, i.ecx, i.eax] hs₂ rfl (by decide)
  set m₄ := m₃.setReg .esp (m₃.reg .esp + 8) with hm₄
  have hs₄ : Held [i.eip, i.cs, i.eflags, i.useresp, i.ss] m₄ := by
    have haligned := hs₃.aligned
    have hroom := hs₃.room
    have hcells₃ := hs₃.cells.tail.tail
    simp only [List.length_cons, List.length_nil] at hroom
    have haddr : (m₃.reg .esp + 8).toNat = (m₃.reg .esp).toNat + 8 := by bv_omega
    refine ⟨?_, ?_, ?_⟩
    · rw [hm₄, Machine.setReg_self, haddr]
      omega
    · rw [hm₄, Machine.setReg_self, haddr]
      simp only [List.length_cons, List.length_nil]
      omega
    · rw [hm₄, Machine.setReg_self, haddr]
      exact hcells₃
  have hcpl₄ : m₄.cpl = 0 := by
    show (m₃.seg .cs).rpl = 0
    rw [hseg₃]
    exact hcpl₁
  obtain ⟨m₅, h₅, hmem₅, heip, hflags, hreg, hcs, hss, hkeep⟩ := hs₄.iret (g := gdt) hvm hcode
    (by rw [hcpl₄]; exact hring) hstack
  have hseg₄ : ∀ s ∈ [Seg.ds, .es, .fs, .gs], m₅.seg s = v := by
    intro s hs
    have hne : s ≠ .cs ∧ s ≠ .ss := by
      constructor <;> rintro rfl <;> exact absurd hs (by decide)
    have hval : m₄.seg s = v := by
      show m₃.seg s = v
      rw [hseg₃]
      exact if_pos hs
    rw [hkeep s hne.1 hne.2, hval, if_pos hkept]
  have hregs : ∀ r v, (r, v) ∈ List.zip [Reg.edi, .esi, .ebp, .esp, .ebx, .edx, .ecx, .eax]
      [i.edi, i.esi, i.ebp, i.esp, i.ebx, i.edx, i.ecx, i.eax] → r ≠ .esp → m₅.reg r = v := by
    intro r v hx hne
    rw [hreg, Function.update_of_ne hne, hm₄, Machine.setReg_ne _ hne]
    exact hvals (r, v) hx hne
  refine ⟨m₅, ?_, hmem₅.trans (hmem₃.trans hmem₁), ?_, hcs, hss, fun s hs => (hseg₄ s hs).trans hv.symm⟩
  · have hstack₀ : exec gdt (.mov .esp .eax) m = some m₀ := rfl
    rw [intResume, intReturn, run_step hstack₀, run_step h₁]
    refine (run_append [.movSeg .ds .eax, .movSeg .es .eax, .movSeg .fs .eax, .movSeg .gs .eax]
      _).trans ?_
    have hadd : exec gdt (.addImm .esp 8) m₃ = some m₄ := by rw [exec]
    have hpopa : exec gdt .popa m₂ = some m₃ := h₃
    rw [show run gdt [.movSeg .ds .eax, .movSeg .es .eax, .movSeg .fs .eax, .movSeg .gs .eax] m₁ =
      some m₂ from hsegs, Option.bind_some, run_step hpopa, run_step hadd, run_step h₅]
    rfl
  · have hesp : m₅.reg .esp = i.useresp := by rw [hreg, Function.update_self]
    simp only [cpuRegs, Image.regs, hesp, heip, hflags, hseg₄ .ds (by simp), hds,
      hregs .edi i.edi (by simp) (by decide), hregs .esi i.esi (by simp) (by decide),
      hregs .ebp i.ebp (by simp) (by decide), hregs .ebx i.ebx (by simp) (by decide),
      hregs .edx i.edx (by simp) (by decide), hregs .ecx i.ecx (by simp) (by decide),
      hregs .eax i.eax (by simp) (by decide)]

end Pinion
