/-
The interrupt lines along a run.

An IRQ sets its latch in `irqstate`, its bit in `_irq_mask` and the bit of a mask
register of the 8259 pair, and is acknowledged; `RESET` undoes the first three.  Two
tests are off: `RESET` takes line numbers up to 239 for sixteen lines and shifts by
them, and `irq_reset` takes line 8 for one of the master.

* `Coherent` — the latches, `_irq_mask` and the mask registers agree;
* `Coherent.after` — one entry keeps it, unless it resets a line from 32 on;
* `irq_masks_coherent_iff` — along a run;
* `Pic.Idle` — no line is in service;
* `idle_after_iff` — one entry keeps it, unless it is IRQ 8;
* `irqs_acknowledged_iff` — along a run.
-/
import Pinion.IrqMask

open Runs

namespace Pinion

/-! ### The masks -/

/-- The latches, `_irq_mask` and the bytes last written to the mask ports agree. -/
structure Coherent (d : Devices) : Prop where
  latch : ∀ n, 1 ≤ n → n < 16 → (d.irqMask.getLsbD n = true ↔ d.irqstate n ≠ 0)
  low : d.pic.mask0 = d.irqMask.extractLsb' 0 8
  high : d.pic.mask1 = d.irqMask.extractLsb' 8 8

/-- An entry keeps the masks in step, if its shift is one of a 32-bit word. -/
theorem Coherent.after {d : Devices} (h : Coherent d) {io : Io}
    (hio : ∀ n, io.shift = some n → n < 32) : Coherent (d.after io) := by
  obtain ⟨hlow, hhigh⟩ := (MaskBytes.mk h.low h.high).after hio
  refine ⟨fun n h1 hn => ?_, hlow, hhigh⟩
  rw [after_irqMask d hio hn]
  by_cases hl : io = .line n
  · subst hl
    simp [Io.bitAfter, Devices.after, Devices.latch]
  · by_cases hr : io = .reset n
    · subst hr
      simp [Io.bitAfter, Devices.after, Devices.latch, Devices.unmask]
    · rw [after_irqstate_ne d hl hr, Io.bitAfter_ne hl hr]
      exact h.latch n h1 hn

/-- The controller masks a line iff its bit of `_irq_mask` is set. -/
theorem Coherent.masked {s : Kernel} (h : Coherent s.devices) {n : ℕ} (hn : n < 16) :
    s.masked n = s.irqMask.getLsbD n :=
  maskWf_iff.mpr ⟨h.low, h.high⟩ n hn

/-- Only its own `RESET` clears the bit of a line. -/
theorem after_opened {d : Devices} {io : Io} (hio : ∀ n, io.shift = some n → n < 32) {n : ℕ}
    (hn : n < 16) (hset : d.irqMask.getLsbD n = true)
    (hclear : (d.after io).irqMask.getLsbD n = false) : io = .reset n := by
  by_contra hr
  rw [after_irqMask d hio hn, hset] at hclear
  by_cases hl : io = .line n
  · subst hl
    cases hclear
  · rw [Io.bitAfter_ne hl hr] at hclear
    cases hclear

/-! ### Masks along a run -/

/-- What an entry must do to the masks: shift within a word, leave latches, mask and
registers in step, and open a line only if it is the `RESET` of that line. -/
structure MasksFollow (s : Kernel) (i : Input) : Prop where
  shift : ∀ n, (i.io s).shift = some n → n < 32
  coherent : ∀ s', s.next i = .ok s' → Coherent s'.devices
  opened : ∀ s', s.next i = .ok s' → ∀ n, 1 ≤ n → n < 16 → s.masked n = true →
    s'.masked n = false → i.io s = .reset n

/-- A `RESET` names a line below 32, or none. -/
def Input.ResetOk (s : Kernel) : Input → Prop
  | .call r _ => (s.img s.image).flags &&& TF_USER = 0 → Call.ofEax r.eax = .reset →
      r.ebx.toNat < 32 ∨ 240 ≤ r.ebx.toNat
  | _ => True

theorem Input.resetOk_iff (s : Kernel) (i : Input) :
    i.ResetOk s ↔ ∀ n, (i.io s).shift = some n → n < 32 := by
  cases i with
  | irq n r env =>
    refine ⟨fun _ m hm => ?_, fun _ => trivial⟩
    by_cases hn : n.val = 0
    · rw [show (Input.irq n r env).io s = .timer from if_pos hn] at hm
      cases hm
    · rw [show (Input.irq n r env).io s = .line n from if_neg hn] at hm
      cases hm
      omega
  | fault n r env => exact ⟨fun _ m hm => (nomatch hm), fun _ => trivial⟩
  | call r env =>
    by_cases hr : (s.img s.image).flags &&& TF_USER = 0 ∧ Call.ofEax r.eax = .reset ∧
        r.ebx.toNat < 240
    · rw [show (Input.call r env).io s = .reset r.ebx.toNat from if_pos hr]
      constructor
      · intro h m hm
        cases hm
        exact (h hr.1 hr.2.1).resolve_right (by omega)
      · intro h _ _
        exact .inl (h _ rfl)
    · rw [show (Input.call r env).io s = .nothing from if_neg hr]
      refine ⟨fun _ m hm => (nomatch hm), fun _ huser hcall => .inr ?_⟩
      by_contra hlt
      exact hr ⟨huser, hcall, by omega⟩

theorem masksFollow_iff {s : Kernel} (h : Coherent s.devices) (i : Input) :
    MasksFollow s i ↔ i.ResetOk s := by
  rw [Input.resetOk_iff]
  constructor
  · exact fun hf => hf.shift
  · intro hio
    have hafter : ∀ s', s.next i = .ok s' → Coherent s'.devices := by
      intro s' hs
      rw [next_devices hs]
      exact h.after hio
    refine ⟨hio, hafter, fun s' hs n _ hn hset hclear => ?_⟩
    rw [h.masked hn] at hset
    rw [(hafter s' hs).masked hn] at hclear
    have hmask : s'.irqMask = (s.devices.after (i.io s)).irqMask :=
      congrArg Devices.irqMask (next_devices hs)
    rw [hmask] at hclear
    exact after_opened hio hn hset hclear

theorem Init.coherent {s : Kernel} (h : Init s) : Coherent s.devices := by
  rw [h.devices]
  refine ⟨fun n _ _ => ?_, by decide, by decide⟩
  simp

/-- **The masks stay in step exactly when every `RESET` names a line below 32, or none
at all**: along every run from boot, whatever its entries. -/
theorem irq_masks_coherent_iff {s : Kernel} (h : Init s) (is : List Input) :
    Coherent s.devices ∧ (EachStep Kernel.next MasksFollow s is ↔
      EachStep Kernel.next (fun s i => i.ResetOk s) s is) :=
  ⟨h.coherent, eachStep_congr (R := fun s => Coherent s.devices)
    (fun _ i hR => masksFollow_iff hR i) (fun _ _ s' _ hP hs => hP.coherent s' hs) h.coherent is⟩

/-- The kernel as it boots on `flatMem`. -/
theorem exists_init (f : Kernel → Bool)
    (h : (bootstrap flatMem 0 0 0).toOption.any f = true) : ∃ s, Init s ∧ f s = true := by
  obtain ⟨s, hs, hf⟩ := (Option.any_eq_true _ _).mp h
  exact ⟨s, ⟨flatMem, 0, 0, 0, .empty rfl fun _ => rfl, toOption_eq_some.mp hs⟩, hf⟩

/-- IRQ 1 arrives and the line is reset. -/
theorem irq_masks_coherent_reset : ∃ s, Init s ∧
    EachStep Kernel.next MasksFollow s [irqOf 1, callOf 0x0E 1] := by
  obtain ⟨s, hinit, -⟩ := exists_init (fun _ => true) (by decide +kernel)
  refine ⟨s, hinit, ((irq_masks_coherent_iff hinit _).2).mpr ?_⟩
  exact ⟨trivial, fun s₁ _ => ⟨fun _ _ => .inl (by decide), fun _ _ => trivial⟩⟩

/-- IRQ 1 arrives and line 33 is reset: line 1 opens with its latch still set. -/
theorem irq_masks_coherent_fails : ∃ s, Init s ∧
    ¬EachStep Kernel.next MasksFollow s [irqOf 1, callOf 0x0E 33] := by
  obtain ⟨s, hinit, hrun⟩ := exists_init (fun s =>
    (replay Kernel.next (fun s i => i.Enabled s.toSched) [irqOf 1] s).any fun s₁ =>
      (s₁.next (callOf 0x0E 33)).toOption.any fun s' =>
        decide (s'.irqMask.getLsbD 1 = false) && decide (s'.irqstate 1 = 1)) (by decide +kernel)
  simp only [Option.any_eq_true, Bool.and_eq_true, decide_eq_true_eq, toOption_eq_some] at hrun
  obtain ⟨s₁, h₁, s', h', hmask, hlatch⟩ := hrun
  refine ⟨s, hinit, fun h => ?_⟩
  have hrun : EachStep Kernel.next MasksFollow s ([irqOf 1] ++ [callOf 0x0E 33]) := h
  have hcoh := (hrun.last h₁).coherent s' h'
  have hset := (hcoh.latch 1 (le_refl 1) (by decide)).mpr (by
    rw [show s'.devices.irqstate 1 = 1 from hlatch]
    decide)
  exact absurd (hmask.symm.trans hset) (by decide)

/-! ### Acknowledgement -/

/-- No line is in service. -/
def Pic.Idle (c : Pic) : Prop := c.isr0 = 0 ∧ c.isr1 = 0

/-- A line in service blocks the delivery of line `n`: one of the same or a higher
priority on its controller, or on the master one up to the cascade. -/
def Pic.Blocks (c : Pic) (n : ℕ) : Prop :=
  if n < 8 then ∃ m ≤ n, c.isr0.getLsbD m = true
  else (∃ m ≤ 2, c.isr0.getLsbD m = true) ∨ ∃ m ≤ n - 8, c.isr1.getLsbD m = true

theorem Pic.Idle.open {c : Pic} (h : c.Idle) (n : ℕ) : ¬c.Blocks n := by
  unfold Pic.Blocks
  rw [h.1, h.2]
  split <;> simp

theorem outb_isr_mask (c : Pic) {port : U16} (h : port = 0x21 ∨ port = 0xA1) (v : U8) :
    (c.outb port v).isr0 = c.isr0 ∧ (c.outb port v).isr1 = c.isr1 := by
  rcases h with rfl | rfl <;> exact ⟨rfl, rfl⟩

theorem writeMask_isr (c : Pic) (mask : U16) (irq : ℕ) :
    (c.writeMask mask irq).isr0 = c.isr0 ∧ (c.writeMask mask irq).isr1 = c.isr1 := by
  unfold Pic.writeMask
  split
  · exact outb_isr_mask c (.inr rfl) _
  · exact outb_isr_mask c (.inl rfl) _

theorem reset_isr (c : Pic) {irq : ℕ} (h : irq ≤ 16) :
    (c.reset irq).isr0 = clearLowest c.isr0 ∧
      (c.reset irq).isr1 = if 8 < irq then clearLowest c.isr1 else c.isr1 := by
  unfold Pic.reset
  rw [if_neg (by omega)]
  by_cases h8 : 8 < irq
  · simp only [h8, if_true]
    exact ⟨rfl, rfl⟩
  · simp only [h8, if_false]
    exact ⟨rfl, rfl⟩

theorem clearLowest_bit : ∀ n < 8, clearLowest (0 ||| (1 <<< n : U8)) = 0 := by decide

/-- From idle, delivering a line and acknowledging it leads to idle, line 8 apart: it
is one of the slave, and only the master hears of it. -/
theorem serviced_idle (c' : Pic) {c : Pic} (h : c.Idle) {n : ℕ} (hn : n < 16)
    (h0 : c'.isr0 = (c.deliver n).isr0) (h1 : c'.isr1 = (c.deliver n).isr1) :
    (c'.reset n).Idle ↔ n ≠ 8 := by
  obtain ⟨hr0, hr1⟩ := reset_isr c' (show n ≤ 16 by omega)
  unfold Pic.Idle
  rw [hr0, hr1, h0, h1]
  unfold Pic.deliver
  by_cases h8 : n < 8
  · simp only [h8, if_true, show ¬8 < n by omega, if_false, h.1, h.2]
    exact ⟨fun _ => by omega, fun _ => ⟨clearLowest_bit n h8, trivial⟩⟩
  · simp only [h8, if_false, h.1, h.2]
    by_cases heq : n = 8
    · subst heq
      decide
    · simp only [show 8 < n by omega, if_true]
      exact ⟨fun _ => heq, fun _ => ⟨by decide, clearLowest_bit (n - 8) (by omega)⟩⟩

/-- One entry from idle. -/
theorem idle_after_iff {d : Devices} (h : d.pic.Idle) {io : Io} (hio : ∀ n, io = .line n → n < 16) :
    (d.after io).pic.Idle ↔ io ≠ .line 8 := by
  cases io with
  | nothing => simp [Devices.after, h]
  | timer =>
    have htimer := serviced_idle (d.pic.deliver 0) h (n := 0) (by decide) rfl rfl
    exact ⟨fun _ => by simp, fun _ => htimer.mpr (by decide)⟩
  | line n =>
    obtain ⟨h0, h1⟩ := writeMask_isr (d.pic.deliver n) (d.irqMask ||| lineBit n) n
    have hline := serviced_idle _ h (hio n rfl) h0 h1
    exact hline.trans (not_congr ⟨fun heq => by rw [heq], fun heq => Io.line.inj heq⟩)
  | reset n =>
    obtain ⟨h0, h1⟩ := writeMask_isr d.pic (d.irqMask &&& ~~~lineBit n) n
    exact ⟨fun _ => by simp, fun _ => ⟨h0.trans h.1, h1.trans h.2⟩⟩

/-- What an entry must do to the in-service registers: leave none set, so that every
line that is not masked can be delivered. -/
structure Acknowledges (s : Kernel) (i : Input) : Prop where
  idle : ∀ s', s.next i = .ok s' → s'.pic.Idle
  deliverable : ∀ s', s.next i = .ok s' → ∀ n < 16, ¬s'.pic.Blocks n

/-- The input is not the interrupt of line 8. -/
def Input.NotEight : Input → Prop
  | .irq n _ _ => n.val ≠ 8
  | _ => True

/-- The rest of `int_handler` always returns: it removes the head of the run queue. -/
theorem exists_schedule (s : Kernel) : ∃ o s', schedule s = .ok (o, s') := by
  unfold schedule
  cases s.active with
  | some image => exact ⟨_, _, rfl⟩
  | none =>
    cases hhead : scheduleNext s.toSched with
    | none => exact ⟨_, _, rfl⟩
    | some image =>
      have hhead' : s.schedHead = some image := hhead
      simp only [scheduleRemv, hhead', if_true]
      exact ⟨_, _, rfl⟩

/-- An interrupt always returns. -/
theorem exists_next_irq (s : Kernel) (n : Fin 16) (r : UserRegs) (env : Env) :
    ∃ s', s.next (.irq n r env) = .ok s' := by
  have hhandled : ∃ s₁, handled s (.irq n r env) = .ok (s₁, env.info) := by
    by_cases hn : n.val = 0
    · exact ⟨_, handled_tick s hn r env⟩
    · exact ⟨_, handled_irq s hn r env⟩
  obtain ⟨s₁, h₁⟩ := hhandled
  obtain ⟨o, s', h'⟩ := exists_schedule s₁
  exact ⟨s', map_eq_ok.mpr ⟨(o, s', env.info),
    bind_eq_ok.mpr ⟨(s₁, env.info), h₁, bind_eq_ok.mpr ⟨(o, s'), h', rfl⟩⟩, rfl⟩⟩

theorem acknowledges_iff {s : Kernel} (h : s.pic.Idle) (i : Input) :
    Acknowledges s i ↔ i.NotEight := by
  have hline : ∀ n, i.io s = .line n → n < 16 := by
    intro n hn
    cases i with
    | irq m r env =>
      simp only [Input.io] at hn
      split at hn
      · cases hn
      · cases hn
        exact m.isLt
    | call r env =>
      simp only [Input.io] at hn
      split at hn <;> cases hn
    | fault m r env => cases hn
  have height : i.io s ≠ .line 8 ↔ i.NotEight := by
    cases i with
    | irq m r env =>
      by_cases hm : m.val = 0
      · rw [show (Input.irq m r env).io s = .timer from if_pos hm]
        simp [Input.NotEight, hm]
      · rw [show (Input.irq m r env).io s = .line m from if_neg hm]
        simp [Input.NotEight]
    | call r env =>
      simp only [Input.io, Input.NotEight, iff_true]
      split <;> simp
    | fault m r env => simp [Input.io, Input.NotEight]
  have hafter : ∀ s', s.next i = .ok s' → (s'.pic.Idle ↔ i.NotEight) := by
    intro s' hs
    have hpic : s'.pic = (s.devices.after (i.io s)).pic := congrArg Devices.pic (next_devices hs)
    rw [hpic]
    exact (idle_after_iff h hline).trans height
  constructor
  · intro ha
    cases i with
    | irq n r env =>
      obtain ⟨s', hs⟩ := exists_next_irq s n r env
      exact (hafter s' hs).mp (ha.idle s' hs)
    | call r env => trivial
    | fault n r env => trivial
  · intro hi
    have hidle : ∀ s', s.next i = .ok s' → s'.pic.Idle := fun s' hs => (hafter s' hs).mpr hi
    exact ⟨hidle, fun s' hs n _ => (hidle s' hs).open n⟩

theorem Init.idle {s : Kernel} (h : Init s) : s.pic.Idle := by
  rw [show s.pic = s.devices.pic from rfl, h.devices]
  exact ⟨rfl, rfl⟩

/-- **Every serviced interrupt is acknowledged exactly when line 8 is not among
them**: along every run from boot, whatever its entries. -/
theorem irqs_acknowledged_iff {s : Kernel} (h : Init s) (is : List Input) :
    s.pic.Idle ∧ (EachStep Kernel.next Acknowledges s is ↔
      EachStep Kernel.next (fun _ i => i.NotEight) s is) :=
  ⟨h.idle, eachStep_congr (R := fun s => s.pic.Idle) (fun _ i hR => acknowledges_iff hR i)
    (fun _ _ s' _ hP hs => hP.idle s' hs) h.idle is⟩

/-- A line of the master, one of the slave and the timer. -/
theorem irqs_acknowledged_three : ∃ s, Init s ∧
    EachStep Kernel.next Acknowledges s [irqOf 1, irqOf 9, irqOf 0] := by
  obtain ⟨s, hinit, -⟩ := exists_init (fun _ => true) (by decide +kernel)
  have hone : (irqOf 1).NotEight := by unfold irqOf Input.NotEight; decide
  have hnine : (irqOf 9).NotEight := by unfold irqOf Input.NotEight; decide
  have htimer : (irqOf 0).NotEight := by unfold irqOf Input.NotEight; decide
  refine ⟨s, hinit, ((irqs_acknowledged_iff hinit _).2).mpr ?_⟩
  exact ⟨hone, fun _ _ => ⟨hnine, fun _ _ => ⟨htimer, fun _ _ => trivial⟩⟩⟩

/-- The first interrupt of line 8 is delivered and stays in service: after its `RESET`
the line is open and blocked for ever. -/
theorem irqs_acknowledged_fails : ∃ s, Init s ∧ s.masked 8 = false ∧ ¬s.pic.Blocks 8 ∧
    ¬EachStep Kernel.next Acknowledges s [irqOf 8] ∧
    ∃ s', replay Kernel.next (fun s i => i.Enabled s.toSched) [irqOf 8, callOf 0x0E 8] s = some s' ∧
      s'.masked 8 = false ∧ s'.pic.Blocks 8 := by
  obtain ⟨s, hinit, hrun⟩ := exists_init (fun s => decide (s.masked 8 = false) &&
    (replay Kernel.next (fun s i => i.Enabled s.toSched) [irqOf 8, callOf 0x0E 8] s).any
      fun (s' : Kernel) => decide (s'.masked 8 = false) &&
        decide (s'.pic.isr1.getLsbD 0 = true)) (by decide +kernel)
  simp only [Option.any_eq_true, Bool.and_eq_true, decide_eq_true_eq] at hrun
  obtain ⟨hmask, s', hs', hmask', hisr⟩ := hrun
  refine ⟨s, hinit, hmask, hinit.idle.open 8, fun h => ?_, s', hs', hmask', ?_⟩
  · exact absurd rfl ((acknowledges_iff hinit.idle _).mp h.1)
  · exact .inr ⟨0, by decide, hisr⟩

end Pinion
