/-
The interrupt controller and the timer along a run.

Of all the kernel's variables, the interrupt latches, `_irq_mask`, the 8259 pair
and the tick counter are written by three kinds of entry only: the timer, an IRQ of
another line, and `RESET`.

* `Io`, `Devices.after` — the three kinds of entry and what they write;
* `eventSend_devices_line`, `timerHandler_devices`, `reset_devices` — one lemma for each;
* `handled_devices`, `next_devices` — a whole entry;
* `Init.devices` — where a run starts.
-/
import Pinion.Images

open Runs

namespace Pinion

/-- The byte `irq_mask` and `irq_unmask` write, to the port that holds the line. -/
def Pic.writeMask (c : Pic) (mask : U16) (irq : ℕ) : Pic :=
  if 7 < irq then c.outb 0xA1 (mask.extractLsb' 8 8) else c.outb 0x21 (mask.extractLsb' 0 8)

/-- The writes of `irq_reset`. -/
def Pic.reset (c : Pic) (irq : ℕ) : Pic :=
  if 16 < irq then c
  else
    let c := if 8 < irq then c.outb 0xA0 0x20 else c
    c.outb 0x20 0x20

def Devices.mask (d : Devices) (irq : ℕ) : Devices :=
  { d with
    irqMask := d.irqMask ||| lineBit irq
    pic := d.pic.writeMask (d.irqMask ||| lineBit irq) irq }

def Devices.unmask (d : Devices) (irq : ℕ) : Devices :=
  { d with
    irqMask := d.irqMask &&& ~~~ lineBit irq
    pic := d.pic.writeMask (d.irqMask &&& ~~~ lineBit irq) irq }

def Devices.reset (d : Devices) (irq : ℕ) : Devices := { d with pic := d.pic.reset irq }

def Devices.latch (d : Devices) (n : ℕ) (v : ℤ) : Devices :=
  { d with irqstate := Function.update d.irqstate n v }

def Devices.deliver (d : Devices) (n : ℕ) : Devices := { d with pic := d.pic.deliver n }

/-- What an entry does to the devices. -/
inductive Io
  | nothing
  | timer
  | line (n : ℕ)
  | reset (n : ℕ)
  deriving DecidableEq

def Devices.after (d : Devices) : Io → Devices
  | .nothing => d
  | .timer => { (d.deliver 0).reset 0 with tick := d.tick + 1 }
  | .line n => (((d.deliver n).mask n).reset n).latch n 1
  | .reset n => (d.latch n 0).unmask n

/-- `RESET` by a thread in system mode, an IRQ, or neither. -/
def Input.io (s : Kernel) : Input → Io
  | .call r _ =>
    if (s.img s.image).flags &&& TF_USER = 0 ∧ Call.ofEax r.eax = .reset ∧ r.ebx.toNat < 240 then
      .reset r.ebx.toNat
    else .nothing
  | .irq n _ _ => if n.val = 0 then .timer else .line n
  | .fault _ _ _ => .nothing

/-! ### The controller -/

section Handlers

variable {s s' : Kernel}

@[simp] theorem updImg_devices (s : Kernel) (p : Ptr) (f : Image → Image) :
    (s.updImg p f).devices = s.devices := rfl

@[simp] theorem setEax_devices (s : Kernel) (p : Ptr) (v : U32) :
    (s.setEax p v).devices = s.devices := rfl

@[simp] theorem setState_devices (s : Kernel) (p : Ptr) (st : TState) :
    (s.setState p st).devices = s.devices := rfl

@[simp] theorem makeReady_devices (s : Kernel) (t : Ptr) :
    (s.onSched (makeReady · t)).devices = s.devices := by
  simp only [Kernel.devices, Kernel.onSched, makeReady_eq]

@[simp] theorem writeMask_devices (s : Kernel) (irq : ℕ) :
    (writeMask s irq).devices = { s.devices with pic := s.pic.writeMask s.irqMask irq } := by
  unfold writeMask Pic.writeMask
  split <;> rfl

@[simp] theorem irqMask_devices (s : Kernel) (irq : ℕ) :
    (irqMask s irq).devices = s.devices.mask irq := by
  rw [irqMask, writeMask_devices]
  rfl

@[simp] theorem irqUnmask_devices (s : Kernel) (irq : ℕ) :
    (irqUnmask s irq).devices = s.devices.unmask irq := by
  rw [irqUnmask, writeMask_devices]
  rfl

@[simp] theorem irqReset_devices (s : Kernel) (irq : ℕ) :
    (irqReset s irq).devices = s.devices.reset irq := by
  unfold irqReset Devices.reset Pic.reset
  split
  · rfl
  · dsimp only
    split <;> rfl

theorem eventSend_devices_line (s : Kernel) {n : ℕ} (hn : n < 240) :
    (eventSend s n).devices = ((s.devices.mask n).reset n).latch n 1 := by
  have hlatch : (eventSend s n).devices =
      (irqReset (irqMask (eventWake s n) n) n).devices.latch n 1 := by
    unfold eventSend
    rw [if_neg (show ¬EV_COUNT ≤ n by simp only [EV_COUNT]; omega), if_pos hn]
    rfl
  have hwake : (eventWake s n).devices = s.devices :=
    (eventWake_writes (σ := .any False False) (fun p _ => any_counts p) (.inl trivial)).devices id
  rw [hlatch, irqReset_devices, irqMask_devices, hwake]

/-- The timer counts. -/
theorem timerHandler_devices (s : Kernel) (c : Ptr) :
    (timerHandler s c).devices = { s.devices with tick := s.tick + 1 } := by
  have hsent := (sends_writes (σ := .any False False) (timersFired (s.tick + 1) s.pitFreq)
    timersFired_lt (List.nodup_range.filter _) (s := { s with tick := s.tick + 1 })
    (fun p _ => any_counts p) (.inl trivial)).devices id
  unfold timerHandler
  dsimp only
  split
  · rw [makeReady_devices, threadSave_devices, updImg_devices, hsent]
    rfl
  · rw [updImg_devices, hsent]
    rfl

/-! ### The kernel calls -/

/-- What `RESET` writes. -/
theorem reset_devices (s : Kernel) (c : Ptr) :
    (kcallReset s c).devices = if (s.img c).ebx.toNat < 240 then
      (s.devices.latch (s.img c).ebx.toNat 0).unmask (s.img c).ebx.toNat else s.devices := by
  unfold kcallReset
  dsimp only
  rw [setEax_devices]
  split
  · rw [irqUnmask_devices]
    rfl
  · rfl

/-- Of the kernel calls only `RESET` writes a device. -/
theorem kcall_devices {env : Env} {c : Ptr} {info : TInfo} (h : kcall env s c = .ok (s', info)) :
    s'.devices = if (s.img c).flags &&& TF_USER = 0 ∧ Call.ofEax (s.img c).eax = .reset ∧
        (s.img c).ebx.toNat < 240 then
      (s.devices.latch (s.img c).ebx.toNat 0).unmask (s.img c).ebx.toNat else s.devices := by
  by_cases huser : (s.img c).flags &&& TF_USER = 0
  · by_cases hc : Call.ofEax (s.img c).eax = .reset
    · unfold kcall at h
      rw [if_neg (not_not.mpr huser), kernelCall, hc] at h
      cases h
      simp only [huser, hc, true_and]
      exact reset_devices s c
    · rw [if_neg fun hr => hc hr.2.1]
      exact (kcall_writes True huser (.inl trivial) h).devices hc
  · unfold kcall at h
    rw [if_pos huser] at h
    cases h
    exact (if_neg fun hr => huser hr.1).symm

end Handlers

/-! ### One entry -/

theorem trap_devices (s : Kernel) (i : Input) :
    (trap s i).devices = { s.devices with pic := i.pic s.pic } := rfl

/-- **What a handler does to the devices.** -/
theorem handled_devices {s s' : Kernel} {i : Input} {info : TInfo}
    (h : handled s i = .ok (s', info)) : s'.devices = s.devices.after (i.io s) := by
  cases i with
  | fault n r env =>
    refine (handled_writes True (fun _ _ => by simp) (.inl trivial) h).devices ?_
    rintro ⟨_, _, _, hi⟩
    cases hi
  | irq n r env =>
    by_cases hn : n.val = 0
    · rw [handled_tick s hn] at h
      cases h
      have hio : (Input.irq n r env).io s = .timer := if_pos hn
      have hpic : (trap s (.irq n r env)).devices = s.devices.deliver 0 := by
        rw [trap_devices, ← hn]
        rfl
      rw [hio, timerHandler_devices, irqReset_devices, hpic]
      rfl
    · rw [handled_irq s hn] at h
      cases h
      have hio : (Input.irq n r env).io s = .line n := if_neg hn
      rw [hio, eventSend_devices_line _ (by omega), trap_devices]
      rfl
  | call r env =>
    rw [handled_call] at h
    rw [kcall_devices h, trap_devices, trap_img]
    by_cases hr : (s.img s.image).flags &&& TF_USER = 0 ∧ Call.ofEax r.eax = .reset ∧
        r.ebx.toNat < 240
    · rw [show (Input.call r env).io s = .reset r.ebx.toNat from if_pos hr]
      exact if_pos hr
    · rw [show (Input.call r env).io s = .nothing from if_neg hr]
      exact if_neg hr

theorem threadLoad_devices (s : Kernel) (t : Ptr) : (threadLoad s t).devices = s.devices := by
  obtain hf | ⟨p, hf⟩ := Option.eq_none_or_eq_some (s.img t).fxdata <;>
    by_cases hp : (s.img t).pctx.toInt ≠ 0 ∧ (s.img t).pctx.toInt ≠ s.mm.activePctx <;>
    simp only [threadLoad, hf, fpuLoad, hp, ne_eq, not_false_eq_true, and_self, if_true,
      if_false] <;> rfl

theorem schedule_devices {s s' : Kernel} {o : Option Ptr} (h : schedule s = .ok (o, s')) :
    s'.devices = s.devices := by
  rcases schedule_cases h with ⟨rfl, -⟩ | ⟨t, r, k, -, -, hk, -, rfl⟩
  · rfl
  · obtain ⟨n, hd, tl, rfl⟩ := scheduleRemv_withRun hk
    rw [setState_devices, threadLoad_devices]
    rfl

/-- **What an entry does to the devices.** -/
theorem next_devices {s s' : Kernel} {i : Input} (h : s.next i = .ok s') :
    s'.devices = s.devices.after (i.io s) := by
  obtain ⟨⟨o, s₁, info⟩, hstep, rfl⟩ := map_eq_ok.mp h
  obtain ⟨s₂, h₂, h₁⟩ := step_cases hstep
  rw [schedule_devices h₁, handled_devices h₂]

/-! ### The devices when `init` returns -/

theorem Init.devices {s : Kernel} (h : Init s) :
    s.devices = ⟨fun _ => 0, 0, ⟨0, 0, 0, 0⟩, 0, 64⟩ := by
  obtain ⟨m, entry, stack, eflags, -, h⟩ := h
  obtain ⟨⟨id, s₁⟩, h₁, h⟩ := bind_eq_ok.mp h
  obtain ⟨⟨o, s₂⟩, h₂, h₁⟩ := bind_eq_ok.mp h₁
  have hs : s₁.devices = (Kernel.bss m).devices := by
    have halloc := (threadAlloc_writes (σ := .any True False) trivial trivial
      (fun _ _ _ _ _ => trivial) h₂).1.devices not_false
    cases o <;> cases h₁ <;> exact halloc
  dsimp only at h
  split at h
  · cases h
  · cases h
    rw [setState_devices, threadLoad_devices, updImg_devices, hs]
    rfl

end Pinion
