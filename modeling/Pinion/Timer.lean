/-
The virtual timers.

`timer_handler` decides which of `EV_VTIMER(0)` … `EV_VTIMER(15)` to send from two
quotients of a counter that wraps: the bits in which they differ, filled down to bit
0, are the timers that fire.  The bits in which a number differs from its predecessor
are those up to its lowest set bit, so the quotients differ in `v + 1` bits when
`2 ^ v` is the largest power of two that divides the tick.

* `xor_pred`, `and_neg` — a number against its predecessor and its negation;
* `changed_bits` — consecutive ticks modulo `2 ^ 22`;
* `timerMask_toNat` — the word the loop tests;
* `mem_timersFired` — which timers fire on a tick;
* `vtimers_exact` — along every run.
-/
import Pinion.Devices

open Runs

namespace Pinion

/-! ### Numbers and their lowest bit -/

/-- A number and its predecessor differ in the bits up to its lowest set bit. -/
theorem xor_pred (a b : ℕ) :
    (2 ^ a * (2 * b + 1) - 1) ^^^ (2 ^ a * (2 * b + 1)) = 2 ^ (a + 1) - 1 := by
  have hpos := Nat.two_pow_pos a
  have hsucc : 2 ^ (a + 1) = 2 * 2 ^ a := by ring
  have hself : 2 ^ a * (2 * b + 1) = 2 ^ (a + 1) * b + 2 ^ a := by ring
  have hpred : 2 ^ a * (2 * b + 1) - 1 = 2 ^ (a + 1) * b + (2 ^ a - 1) := by omega
  apply Nat.eq_of_testBit_eq
  intro i
  rw [Nat.testBit_xor, hpred, hself, Nat.testBit_two_pow_mul_add b (by omega),
    Nat.testBit_two_pow_mul_add b (by omega), Nat.testBit_two_pow_sub_one,
    Nat.testBit_two_pow_sub_one, Nat.testBit_two_pow]
  by_cases hi : i < a + 1
  · simp only [hi, if_true, decide_true]
    by_cases hia : i < a
    · simp [hia, show ¬a = i by omega]
    · simp [show a = i by omega]
  · simp [hi]

/-- The lowest set bit: `x & -x` on `w` bits. -/
theorem and_neg {w a b : ℕ} (h : 2 ^ a * (2 * b + 1) < 2 ^ w) :
    (2 ^ a * (2 * b + 1)) &&& (2 ^ w - 2 ^ a * (2 * b + 1)) = 2 ^ a := by
  have hpos := Nat.two_pow_pos a
  have hsucc : 2 ^ (a + 1) = 2 * 2 ^ a := by ring
  have hself : 2 ^ a * (2 * b + 1) = 2 ^ (a + 1) * b + 2 ^ a := by ring
  have hpred : 2 ^ a * (2 * b + 1) = 2 ^ (a + 1) * b + (2 ^ a - 1) + 1 := by omega
  have hlow : a < w := by
    have hle : 2 ^ a ≤ 2 ^ a * (2 * b + 1) := Nat.le_mul_of_pos_right _ (by omega)
    exact (Nat.pow_lt_pow_iff_right (by decide)).mp (lt_of_le_of_lt hle h)
  apply Nat.eq_of_testBit_eq
  intro i
  -- `-x` is the complement of `x - 1`
  rw [Nat.testBit_and, hpred, Nat.testBit_two_pow_sub_succ (by omega), ← hpred, hself,
    Nat.testBit_two_pow_mul_add b (by omega), Nat.testBit_two_pow_mul_add b (by omega),
    Nat.testBit_two_pow_sub_one, Nat.testBit_two_pow]
  by_cases hi : i < a + 1
  · simp only [hi, if_true]
    by_cases hia : i < a
    · simp [hia, show ¬a = i by omega]
    · simp [show a = i by omega]
      omega
  · simp only [hi, if_false, show ¬a = i by omega, decide_false]
    cases b.testBit (i - (a + 1)) <;> simp

/-! ### The two quotients -/

/-- The counter after the shift: ten bits are lost at the top. -/
theorem shifted_quotient {k : ℕ} (hk : k ≤ 10) (x f : U32) (hf : f.toNat = 2 ^ k) :
    ((x <<< 10) / f).toNat = 2 ^ (10 - k) * (x.toNat % 2 ^ 22) := by
  have hsplit : (2 : ℕ) ^ 10 = 2 ^ k * 2 ^ (10 - k) := by rw [← Nat.pow_add]; congr 1; omega
  have hshift : x.toNat * 2 ^ 10 % 2 ^ 32 = 2 ^ k * (2 ^ (10 - k) * (x.toNat % 2 ^ 22)) := by
    rw [← Nat.mul_assoc, ← hsplit]
    omega
  rw [BitVec.toNat_udiv, BitVec.toNat_shiftLeft, Nat.shiftLeft_eq, hf, hshift]
  exact Nat.mul_div_cancel_left _ (Nat.two_pow_pos k)

/-- The bits in which two consecutive ticks differ, modulo `2 ^ 22`. -/
theorem changed_bits (x : U32) : ∃ e, 1 ≤ e ∧ e ≤ 22 ∧
    ((x - 1).toNat % 2 ^ 22) ^^^ (x.toNat % 2 ^ 22) = 2 ^ e - 1 ∧
    ∀ j < 22, j < e ↔ 2 ^ j ∣ x.toNat := by
  have hx := x.isLt
  have hpred : (x - 1).toNat = (2 ^ 32 - 1 + x.toNat) % 2 ^ 32 := BitVec.toNat_sub x 1
  have hdvd : ∀ j < 22, 2 ^ j ∣ x.toNat ↔ 2 ^ j ∣ x.toNat % 2 ^ 22 := fun j hj =>
    (Nat.dvd_mod_iff (pow_dvd_pow 2 hj.le)).symm
  by_cases h0 : x.toNat % 2 ^ 22 = 0
  · -- the shifted counter wraps to 0: every bit changes
    refine ⟨22, by omega, le_refl _, ?_, fun j hj => ?_⟩
    · have hlast : (x - 1).toNat % 2 ^ 22 = 2 ^ 22 - 1 := by omega
      rw [hlast, h0, Nat.xor_zero]
    · rw [hdvd j hj, h0]
      exact ⟨fun _ => dvd_zero _, fun _ => hj⟩
  · obtain ⟨a, m, hm, hxm⟩ := Nat.exists_eq_two_pow_mul_odd h0
    obtain ⟨b, rfl⟩ := hm
    have hlt : x.toNat % 2 ^ 22 < 2 ^ 22 := Nat.mod_lt _ (by decide)
    have ha : a < 22 := by
      have hle : 2 ^ a ≤ 2 ^ a * (2 * b + 1) := Nat.le_mul_of_pos_right _ (by omega)
      have hpow : 2 ^ a < 2 ^ 22 := by omega
      exact (Nat.pow_lt_pow_iff_right (by decide)).mp hpow
    refine ⟨a + 1, by omega, by omega, ?_, fun j hj => ?_⟩
    · have hprev : (x - 1).toNat % 2 ^ 22 = x.toNat % 2 ^ 22 - 1 := by omega
      rw [hprev, hxm, xor_pred]
    · rw [hdvd j hj, hxm]
      constructor
      · intro h
        exact dvd_mul_of_dvd_left (pow_dvd_pow 2 (by omega)) _
      · intro h
        by_contra hja
        -- otherwise twice `2 ^ a` divides an odd multiple of it
        have h2 : 2 ^ a * 2 ∣ 2 ^ a * (2 * b + 1) := by
          rw [← Nat.pow_succ]
          exact (pow_dvd_pow 2 (by omega)).trans h
        have hodd := Nat.dvd_of_mul_dvd_mul_left (Nat.two_pow_pos a) h2
        omega

/-! ### The word the loop tests -/

/-- Filling a block of ones down to bit 0. -/
theorem fill_down {w s e : ℕ} {v : BitVec w} (he : 1 ≤ e) (hse : s + e < w)
    (hv : v.toNat = 2 ^ s * (2 ^ e - 1)) : (v + (v &&& -v) - 1).toNat = 2 ^ (s + e) - 1 := by
  have hs := Nat.two_pow_pos s
  have hpow : 2 ^ (s + e) = 2 ^ s * 2 ^ e := Nat.pow_add 2 s e
  have htop : 2 ^ (s + e) < 2 ^ w := Nat.pow_lt_pow_right (by decide) hse
  obtain ⟨b, hb⟩ : ∃ b, 2 ^ e - 1 = 2 * b + 1 := by
    refine ⟨2 ^ (e - 1) - 1, ?_⟩
    have hpos := Nat.two_pow_pos (e - 1)
    have htwo : 2 ^ e = 2 * 2 ^ (e - 1) := by
      rw [← Nat.pow_succ']
      congr 1
      omega
    omega
  have hsum : 2 ^ s * (2 ^ e - 1) + 2 ^ s = 2 ^ (s + e) := by
    rw [hpow, Nat.mul_sub, Nat.mul_one]
    exact Nat.sub_add_cancel (Nat.le_mul_of_pos_right _ (Nat.two_pow_pos e))
  have hlow : (v &&& -v).toNat = 2 ^ s := by
    have hlt : v.toNat < 2 ^ w := v.isLt
    have hpos : 0 < v.toNat := by
      rw [hv, hb]
      positivity
    rw [BitVec.toNat_and, BitVec.toNat_neg, Nat.mod_eq_of_lt (by omega), hv, hb]
    exact and_neg (by rw [← hb, ← hv]; exact hlt)
  have hadd : (v + (v &&& -v)).toNat = 2 ^ (s + e) := by
    rw [BitVec.toNat_add, hlow, hv, hsum, Nat.mod_eq_of_lt htop]
  have hone : (1 : BitVec w).toNat = 1 := by
    rw [show (1 : BitVec w) = BitVec.ofNat w 1 from rfl, BitVec.toNat_ofNat]
    exact Nat.mod_eq_of_lt (Nat.one_lt_two_pow (by omega))
  have hpos := Nat.two_pow_pos (s + e)
  have hsub : 2 ^ w - 1 + 2 ^ (s + e) = 2 ^ (s + e) - 1 + 2 ^ w := by omega
  rw [BitVec.toNat_sub, hadd, hone, hsub, Nat.add_mod_right]
  exact Nat.mod_eq_of_lt (by omega)

/-- The word of `timer_handler`: a block of ones from bit 0. -/
theorem timerMask_toNat {k : ℕ} (hk : 5 ≤ k ∧ k ≤ 10) (x f : U32) (hf : f.toNat = 2 ^ k) :
    ∃ e, 1 ≤ e ∧ (timerMask x f).toNat = 2 ^ (10 - k + e) - 1 ∧
      ∀ j < 22, j < e ↔ 2 ^ j ∣ x.toNat := by
  obtain ⟨e, h1, h22, hxor, hdvd⟩ := changed_bits x
  refine ⟨e, h1, ?_, hdvd⟩
  refine fill_down h1 (by omega) ?_
  rw [BitVec.toNat_xor, shifted_quotient hk.2 x f hf, shifted_quotient hk.2 (x - 1) f hf, ← hxor,
    Nat.mul_comm, Nat.mul_comm _ (x.toNat % 2 ^ 22), ← Nat.shiftLeft_eq, ← Nat.shiftLeft_eq,
    ← Nat.shiftLeft_xor_distrib, Nat.shiftLeft_eq, Nat.mul_comm]

/-- **The timers that fire on a tick.** -/
theorem mem_timersFired {k : ℕ} (hk : 5 ≤ k ∧ k ≤ 10) {x f : U32} (hf : f.toNat = 2 ^ k) {n : ℕ} :
    n ∈ timersFired x f ↔ n < 16 ∧ 2 ^ (k + 5 - n) ∣ x.toNat := by
  obtain ⟨e, h1, hmask, hdvd⟩ := timerMask_toNat hk x f hf
  have hbit : ∀ n, timerMask x f &&& (1 <<< (15 - n)) ≠ 0 ↔ 15 - n < 10 - k + e := by
    intro n
    have hpow : (BitVec.ofNat 32 (1 <<< (15 - n))).toNat = 2 ^ (15 - n) := by
      rw [BitVec.toNat_ofNat, Nat.one_shiftLeft]
      exact Nat.mod_eq_of_lt (Nat.pow_lt_pow_right (by decide) (by omega))
    change ¬timerMask x f &&& BitVec.ofNat 32 (1 <<< (15 - n)) = 0 ↔ _
    rw [← BitVec.toNat_inj, BitVec.toNat_and, hpow, hmask, show (0 : U32).toNat = 0 from rfl,
      Nat.and_two_pow, Nat.testBit_two_pow_sub_one]
    by_cases h : 15 - n < 10 - k + e
    · simp [h]
    · simp [h]
  rw [timersFired, List.mem_filter, List.mem_range, decide_eq_true_eq, hbit n]
  constructor
  · rintro ⟨hn, h⟩
    exact ⟨hn, (hdvd _ (by omega)).mp (by omega)⟩
  · rintro ⟨hn, h⟩
    have hlt := (hdvd _ (by omega)).mpr h
    exact ⟨hn, by omega⟩

/-! ### Runs -/

def Input.isTimer : Input → Bool
  | .irq n _ _ => n.val = 0
  | _ => false

/-- The calls of `timer_handler` that the inputs make. -/
def ticks (is : List Input) : ℕ := is.countP Input.isTimer

/-- What `timer_handler` does after its loop: count the tick for the interrupted
thread and preempt it. -/
def timerPreempt (s : Kernel) (image : Ptr) : Kernel :=
  let s := s.updImg image fun i => { i with tick := i.tick + 1 }
  if (s.tcb image).state = .running then (threadSave s image).onSched (makeReady · image) else s

theorem after_tick (d : Devices) (io : Io) :
    (d.after io).tick = (if io = .timer then d.tick + 1 else d.tick) ∧
      (d.after io).pitFreq = d.pitFreq := by
  cases io <;> exact ⟨rfl, rfl⟩

theorem io_timer (s : Kernel) (i : Input) : i.io s = .timer ↔ i.isTimer = true := by
  cases i with
  | irq n r env => by_cases hn : n.val = 0 <;> simp [Input.io, Input.isTimer, hn]
  | call r env =>
    simp only [Input.io, Input.isTimer]
    split <;> simp
  | fault n r env => simp [Input.io, Input.isTimer]

/-- A run counts its timer interrupts modulo `2 ^ 32` and leaves the frequency. -/
theorem run_ticks {ok : Kernel → Input → Prop} [∀ s i, Decidable (ok s i)] (is : List Input) :
    ∀ {s s' : Kernel}, replay Kernel.next ok is s = some s' →
      s'.tick = s.tick + BitVec.ofNat 32 (ticks is) ∧ s'.pitFreq = s.pitFreq := by
  induction is with
  | nil =>
    intro s s' h
    cases h
    exact ⟨(BitVec.add_zero _).symm, rfl⟩
  | cons i is ih =>
    intro s s' h
    rw [replay] at h
    split at h
    case isFalse => cases h
    case isTrue hok =>
      split at h
      case h_2 => cases h
      case h_1 s₁ h₁ =>
        obtain ⟨htick, hfreq⟩ := ih h
        have hdev := next_devices h₁
        have hafter := after_tick s.devices (i.io s)
        have hcount : s₁.tick = if i.isTimer = true then s.tick + 1 else s.tick := by
          rw [← if_congr (io_timer s i) rfl rfl]
          exact (congrArg Devices.tick hdev).trans hafter.1
        refine ⟨?_, hfreq.trans ((congrArg Devices.pitFreq hdev).trans hafter.2)⟩
        rw [htick, hcount, ticks, ticks, List.countP_cons]
        split
        · rw [BitVec.add_assoc, Nat.add_comm, BitVec.ofNat_add]
          rfl
        · rfl

/-- **Virtual timers fire at their rates for ever.**  With a frequency of `2 ^ k` Hz,
the timer interrupt that follows `ticks is` others since boot sends `EV_VTIMER(n)`, for
`n < 16`, once if `2 ^ (k + 5 - n)` divides its number and not at all otherwise. -/
theorem vtimers_exact {k : ℕ} (hk : 5 ≤ k ∧ k ≤ 10) {s₀ s : Kernel} {is : List Input}
    (htick : s₀.tick = 0) (hfreq : s₀.pitFreq = BitVec.ofNat 32 (2 ^ k))
    (hrun : replay Kernel.next (fun s i => i.Enabled s.toSched) is s₀ = some s)
    (r : UserRegs) (env : Env) :
    ∃ fired : List ℕ, fired.Nodup ∧
      (∀ n, n ∈ fired ↔ n < 16 ∧ 2 ^ (k + 5 - n) ∣ ticks is + 1) ∧
      handled s (.irq 0 r env) = .ok (timerPreempt ((fired.map evVtimer).foldl eventSend
        { irqReset (trap s (.irq 0 r env)) 0 with tick := s.tick + 1 }) s.image, env.info) := by
  obtain ⟨hs, hf⟩ := run_ticks is hrun
  have hpow : s.pitFreq.toNat = 2 ^ k := by
    rw [hf, hfreq, BitVec.toNat_ofNat]
    exact Nat.mod_eq_of_lt (Nat.pow_lt_pow_right (by decide) (by omega))
  have hnum : (s.tick + 1).toNat = (ticks is + 1) % 2 ^ 32 := by
    rw [hs, htick, show (0 : U32) = BitVec.ofNat 32 0 from rfl, ← BitVec.ofNat_add,
      show (1 : U32) = BitVec.ofNat 32 1 from rfl, ← BitVec.ofNat_add, BitVec.toNat_ofNat,
      Nat.zero_add]
  refine ⟨timersFired (s.tick + 1) s.pitFreq, List.nodup_range.filter _, fun n => ?_, ?_⟩
  · rw [mem_timersFired hk hpow, hnum, Nat.dvd_mod_iff (pow_dvd_pow 2 (by omega))]
  · have hreset := irqReset_tick (trap s (.irq 0 r env)) 0
    rw [handled_tick s rfl, List.foldl_map, timerHandler, hreset.1, hreset.2]
    rfl

/-- After boot the second timer interrupt sends the timers of 32 Hz and above. -/
theorem vtimers_exact_second : ∃ (s : Kernel) (fired : List ℕ),
    (∀ n, n ∈ fired ↔ n < 16 ∧ 2 ^ (11 - n) ∣ 2) ∧
    handled s (irqOf 0) = .ok (timerPreempt ((fired.map evVtimer).foldl eventSend
      { irqReset (trap s (irqOf 0)) 0 with tick := s.tick + 1 }) s.image, noEnv.info) := by
  have hboot : ((bootstrap flatMem 0 0 0).toOption.any fun s₀ =>
      decide (s₀.tick = 0) && decide (s₀.pitFreq = BitVec.ofNat 32 (2 ^ 6)) &&
        (replay Kernel.next (fun s i => i.Enabled s.toSched) [irqOf 0] s₀).isSome) = true := by
    decide +kernel
  simp only [Option.any_eq_true, Bool.and_eq_true, decide_eq_true_eq] at hboot
  obtain ⟨s₀, -, ⟨htick, hfreq⟩, hsome⟩ := hboot
  obtain ⟨s, hs⟩ := Option.isSome_iff_exists.mp hsome
  obtain ⟨fired, -, hmem, heq⟩ := vtimers_exact (k := 6) (by decide) htick hfreq hs
    ⟨0, 0, 0, 0, 0, 0, 0, 0, 0, 0, 0⟩ noEnv
  exact ⟨s, fired, hmem, heq⟩

end Pinion
