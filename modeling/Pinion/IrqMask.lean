/-
The interrupt mask.

`_irq_mask` is the kernel's copy of the two mask registers of the 8259 pair.
`event_send` of an IRQ masks its line and `RESET` opens it again; nothing else
writes a mask register.

* `Kernel.masked` — the bit of a line in the mask registers;
* `MaskWf`, `maskWf_iff` — the registers agree with `_irq_mask`, bit by bit and
  byte by byte;
* `after_irqMask` — what an entry does to the bit of a line;
* `MaskBytes.after` — it writes the byte of that bit to the right register;
* `Input.io_eq` — an entry's part in this is read off its action;
* `next_masks`, `next_irqstate` — a whole entry, the latches included.
-/
import Pinion.Devices

open Runs

namespace Pinion

/-- The 8259 pair masks the line. -/
def Kernel.masked (s : Kernel) (n : ℕ) : Bool :=
  if n < 8 then s.pic.mask0.getLsbD n else s.pic.mask1.getLsbD (n - 8)

/-- The mask registers agree with `_irq_mask`. -/
def MaskWf (s : Kernel) : Prop := ∀ n < 16, s.masked n = s.irqMask.getLsbD n

/-- The mask registers hold the two bytes of `_irq_mask`. -/
structure MaskBytes (d : Devices) : Prop where
  low : d.pic.mask0 = d.irqMask.extractLsb' 0 8
  high : d.pic.mask1 = d.irqMask.extractLsb' 8 8

theorem maskWf_iff {s : Kernel} : MaskWf s ↔ MaskBytes s.devices := by
  constructor
  · intro h
    refine ⟨BitVec.eq_of_getLsbD_eq fun n hn => ?_, BitVec.eq_of_getLsbD_eq fun n hn => ?_⟩
    · have hbit := h n (by omega)
      rw [Kernel.masked, if_pos hn] at hbit
      rw [BitVec.getLsbD_extractLsb', decide_eq_true hn, Bool.true_and, Nat.zero_add]
      exact hbit
    · have hbit := h (8 + n) (by omega)
      rw [Kernel.masked, if_neg (by omega), Nat.add_sub_cancel_left] at hbit
      rw [BitVec.getLsbD_extractLsb', decide_eq_true hn, Bool.true_and]
      exact hbit
  · intro h n hn
    have hlow : s.pic.mask0 = s.irqMask.extractLsb' 0 8 := h.low
    have hhigh : s.pic.mask1 = s.irqMask.extractLsb' 8 8 := h.high
    unfold Kernel.masked
    by_cases h8 : n < 8
    · rw [if_pos h8, hlow, BitVec.getLsbD_extractLsb', decide_eq_true h8, Bool.true_and,
        Nat.zero_add]
    · rw [if_neg h8, hhigh, BitVec.getLsbD_extractLsb', decide_eq_true (by omega), Bool.true_and,
        show 8 + (n - 8) = n by omega]

/-! ### The line bits -/

theorem lineBit_getLsbD {m n : ℕ} (hm : m < 32) (hn : n < 16) :
    (lineBit m).getLsbD n = decide (n = m) := by
  rw [lineBit, Nat.mod_eq_of_lt (by omega), BitVec.getLsbD_setWidth, BitVec.getLsbD_shiftLeft,
    show (1 : U32) = 1#32 from rfl, BitVec.getLsbD_one]
  by_cases h : n = m
  · subst h
    simp [hn]
    omega
  · by_cases hlt : n < m
    · simp [h, hlt]
    · simp [h, show ¬n - m = 0 by omega]

/-- The line `irq_mask` or `irq_unmask` shifts by. -/
def Io.shift : Io → Option ℕ
  | .line n => some n
  | .reset n => some n
  | _ => none

/-- The bit of line `n` in `_irq_mask` after an entry. -/
def Io.bitAfter (b : Bool) (n : ℕ) : Io → Bool
  | .reset m => b && !decide (n = m)
  | .line m => b || decide (n = m)
  | _ => b

theorem Io.bitAfter_ne {b : Bool} {n : ℕ} {io : Io} (hl : io ≠ .line n) (hr : io ≠ .reset n) :
    io.bitAfter b n = b := by
  cases io with
  | nothing | timer => rfl
  | line m =>
    have hne : n ≠ m := fun h => hl (by rw [h])
    rw [Io.bitAfter, decide_eq_false hne, Bool.or_false]
  | reset m =>
    have hne : n ≠ m := fun h => hr (by rw [h])
    rw [Io.bitAfter, decide_eq_false hne, Bool.not_false, Bool.and_true]

/-- **What an entry does to the bit of a line.** -/
theorem after_irqMask (d : Devices) {io : Io} (hio : ∀ m, io.shift = some m → m < 32) {n : ℕ}
    (hn : n < 16) : (d.after io).irqMask.getLsbD n = io.bitAfter (d.irqMask.getLsbD n) n := by
  cases io with
  | nothing | timer => rfl
  | line m =>
    change (d.irqMask ||| lineBit m).getLsbD n = _
    rw [BitVec.getLsbD_or, lineBit_getLsbD (hio m rfl) hn]
    rfl
  | reset m =>
    change (d.irqMask &&& ~~~lineBit m).getLsbD n = _
    rw [BitVec.getLsbD_and, BitVec.getLsbD_not, lineBit_getLsbD (hio m rfl) hn, decide_eq_true hn,
      Bool.true_and]
    rfl

/-! ### The mask registers -/

/-- Writing the half of a mask that holds the line brings the registers in step with
it, if the line is all it changes. -/
theorem writeMask_bytes (c : Pic) {mask : U16} (mask' : U16) (irq : ℕ)
    (hlow : c.mask0 = mask.extractLsb' 0 8) (hhigh : c.mask1 = mask.extractLsb' 8 8)
    (hsame : ∀ n < 16, n ≠ irq → mask'.getLsbD n = mask.getLsbD n) :
    (c.writeMask mask' irq).mask0 = mask'.extractLsb' 0 8 ∧
      (c.writeMask mask' irq).mask1 = mask'.extractLsb' 8 8 := by
  unfold Pic.writeMask
  by_cases h7 : 7 < irq
  · rw [if_pos h7]
    refine ⟨?_, rfl⟩
    rw [show (c.outb 0xA1 (mask'.extractLsb' 8 8)).mask0 = c.mask0 from rfl, hlow]
    apply BitVec.eq_of_getLsbD_eq
    intro n hn
    simp only [BitVec.getLsbD_extractLsb', hn, decide_true, Bool.true_and, Nat.zero_add]
    exact (hsame n (by omega) (by omega)).symm
  · rw [if_neg h7]
    refine ⟨rfl, ?_⟩
    rw [show (c.outb 0x21 (mask'.extractLsb' 0 8)).mask1 = c.mask1 from rfl, hhigh]
    apply BitVec.eq_of_getLsbD_eq
    intro n hn
    simp only [BitVec.getLsbD_extractLsb', hn, decide_true, Bool.true_and]
    exact (hsame (8 + n) (by omega) (by omega)).symm

theorem deliver_masks (c : Pic) (n : ℕ) :
    (c.deliver n).mask0 = c.mask0 ∧ (c.deliver n).mask1 = c.mask1 := by
  unfold Pic.deliver
  split <;> exact ⟨rfl, rfl⟩

theorem reset_masks (c : Pic) (n : ℕ) :
    (c.reset n).mask0 = c.mask0 ∧ (c.reset n).mask1 = c.mask1 := by
  unfold Pic.reset
  split
  · exact ⟨rfl, rfl⟩
  · dsimp only
    split <;> exact ⟨rfl, rfl⟩

/-- **An entry keeps the registers in step**, if its shift is one of a 32-bit word. -/
theorem MaskBytes.after {d : Devices} (h : MaskBytes d) {io : Io}
    (hio : ∀ m, io.shift = some m → m < 32) : MaskBytes (d.after io) := by
  have hbit := fun n hn => after_irqMask d hio (n := n) hn
  cases io with
  | nothing => exact h
  | timer =>
    exact ⟨(reset_masks _ 0).1.trans ((deliver_masks d.pic 0).1.trans h.low),
      (reset_masks _ 0).2.trans ((deliver_masks d.pic 0).2.trans h.high)⟩
  | line m =>
    -- the line is in one half, and the other half does not change
    obtain ⟨hlow, hhigh⟩ := writeMask_bytes (d.pic.deliver m) (d.irqMask ||| lineBit m) m
      ((deliver_masks d.pic m).1.trans h.low) ((deliver_masks d.pic m).2.trans h.high)
      (fun n hn hne => (hbit n hn).trans (by
        rw [Io.bitAfter, decide_eq_false hne, Bool.or_false]))
    exact ⟨(reset_masks _ m).1.trans hlow, (reset_masks _ m).2.trans hhigh⟩
  | reset m =>
    obtain ⟨hlow, hhigh⟩ := writeMask_bytes d.pic (d.irqMask &&& ~~~lineBit m) m h.low h.high
      (fun n hn hne => (hbit n hn).trans (by
        rw [Io.bitAfter, decide_eq_false hne, Bool.not_false, Bool.and_true]))
    exact ⟨hlow, hhigh⟩

/-! ### One entry -/

/-- What an action does to the devices. -/
def Act.io : Act → Io
  | .reset n => .reset n
  | .irq n => .line n
  | .tick _ => .timer
  | _ => .nothing

theorem Act.io_line {a : Act} {n : ℕ} : a.io = .line n ↔ a = .irq n := by
  cases a <;> simp [Act.io]

theorem Act.io_reset {a : Act} {n : ℕ} : a.io = .reset n ↔ a = .reset n := by
  cases a <;> simp [Act.io]

/-- Of the calls only `RESET` of an IRQ does anything. -/
theorem callAct_io (k : Sched) (c : Ptr) (ebx : U32) (flags : U8) (call : Call) :
    (callAct k c ebx flags call).io =
      if call = .reset ∧ ebx.toNat < 240 then .reset ebx.toNat else .nothing := by
  cases call with
  | reset =>
    unfold callAct
    by_cases hn : ebx.toNat < 240 <;> simp only [hn, and_self, and_false, if_true, if_false] <;> rfl
  -- an action of a thread in the wrong state is `other`
  | pause =>
    cases ht : k.named c ebx with
    | none => simp [callAct, ht, Act.io]
    | some t => cases hst : (k.tcb t).state <;> simp [callAct, ht, pauseAct, hst, Act.io]
  | resume =>
    cases ht : threadGet k ebx.toInt with
    | none => simp [callAct, ht, Act.io]
    | some t => cases hst : (k.tcb t).state <;> simp [callAct, ht, resumeAct, hst, Act.io]
  | reap | setstate | wait =>
    simp only [callAct, reduceCtorEq, false_and, if_false]
    split
    · split <;> rfl
    · rfl
  | _ => rfl

/-- An entry's part is read off its action. -/
theorem Input.io_eq (s : Kernel) (i : Input) : i.io s = (i.act s).io := by
  cases i with
  | call r env =>
    by_cases huser : (s.img s.image).flags &&& TF_USER = 0
    · rw [show (Input.call r env).act s =
        callAct s.toSched s.image r.ebx env.info.flags (Call.ofEax r.eax) from
        if_neg (not_not.mpr huser), callAct_io]
      simp only [Input.io, huser, true_and]
    · rw [show (Input.call r env).act s = .other from if_pos huser]
      exact if_neg fun hr => huser hr.1
  | irq n r env =>
    by_cases hn : n.val = 0
    · rw [show (Input.irq n r env).io s = .timer from if_pos hn, Input.act, if_pos hn]
      rfl
    · rw [show (Input.irq n r env).io s = .line n from if_neg hn, Input.act, if_neg hn]
      rfl
  | fault n r env =>
    rw [Input.act]
    split <;> rfl

/-- An IRQ shifts by one of sixteen lines, so only `RESET` can go beyond a word. -/
theorem Input.shift_lt {s : Kernel} {i : Input} (h : ∀ m, i.act s = .reset m → m < 32) :
    ∀ m, (i.act s).io.shift = some m → m < 32 := by
  intro m hm
  cases ha : i.act s with
  | reset l =>
    rw [ha] at hm
    cases hm
    exact h _ ha
  | irq l =>
    have hio := Input.io_eq s i
    rw [ha] at hm hio
    cases hm
    cases i with
    | irq n r env =>
      by_cases hn : n.val = 0
      · rw [show (Input.irq n r env).io s = .timer from if_pos hn] at hio
        cases hio
      · rw [show (Input.irq n r env).io s = .line n from if_neg hn] at hio
        cases hio
        omega
    | call r env =>
      simp only [Input.io] at hio
      split at hio <;> cases hio
    | fault n r env => cases hio
  | _ =>
    rw [ha] at hm
    cases hm

/-- A whole entry keeps the registers in step and writes one bit of `_irq_mask`. -/
theorem next_masks {s s' : Kernel} {i : Input} (h : MaskWf s)
    (hl : ∀ m, (i.act s).io.shift = some m → m < 32) (hs : s.next i = .ok s') :
    MaskWf s' ∧
      ∀ n < 16, s'.irqMask.getLsbD n = (i.act s).io.bitAfter (s.irqMask.getLsbD n) n := by
  have hafter := next_devices hs
  rw [Input.io_eq] at hafter
  refine ⟨maskWf_iff.mpr ?_, fun n hn => ?_⟩
  · rw [hafter]
    exact (maskWf_iff.mp h).after hl
  · rw [show s'.irqMask = (s.devices.after (i.act s).io).irqMask from
      congrArg Devices.irqMask hafter]
    exact after_irqMask s.devices hl hn

/-! ### The latches -/

/-- An entry leaves the latch of a line it neither delivers nor resets. -/
theorem after_irqstate_ne (d : Devices) {io : Io} {n : ℕ} (hi : io ≠ .line n)
    (hr : io ≠ .reset n) : (d.after io).irqstate n = d.irqstate n := by
  cases io with
  | nothing | timer => rfl
  | line m => exact Function.update_of_ne (fun hm => hi (by rw [hm])) _ _
  | reset m => exact Function.update_of_ne (fun hm => hr (by rw [hm])) _ _

theorem next_irqstate {s s' : Kernel} {i : Input} (hs : s.next i = .ok s') :
    s'.irqstate = (s.devices.after (i.act s).io).irqstate := by
  rw [← Input.io_eq]
  exact congrArg Devices.irqstate (next_devices hs)

end Pinion
