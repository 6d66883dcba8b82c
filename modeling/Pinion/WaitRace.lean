/-
The result of `WAIT` and the time of the IRQ.

A thread calls `WAIT(e)` for an IRQ line.  If the line is latched the call returns 0 and
the thread goes to the run queue; if not, the thread goes to the queue of the event, and
`event_send` writes `e` over the 0 in its `eax` when it takes it from there.

* `Absent`, `AwayRun` — the entries until the thread runs again, with a note whether the
  IRQ took it from the queue;
* `IrqFirst`, `IrqLater` — the two orders of IRQ and call;
* `WaitRun.eax` — what the thread finds in `eax`;
* `wait_race_iff` — the orders agree if and only if the IRQ wakes the thread from the
  queue in none of them, or in both and the line is not 1.
-/
import Pinion.Exit
import Pinion.IrqLines
import Pinion.Modes
import Pinion.Walks

open Runs

namespace Pinion

/-! ### The two orders -/

/-- `c` calls `WAIT(e)`. -/
structure CallsWait (c : Ptr) (e : ℕ) (s : Kernel) (r : UserRegs) : Prop where
  system : SystemThread c s
  live : Live s.toSched c
  call : Call.ofEax r.eax = .wait
  event : r.ebx = BitVec.ofNat 32 e

/-- The IRQ finds `c` first in the queue of the event. -/
def Awakes (c : Ptr) (e : ℕ) (s : Kernel) : Input → Prop
  | .irq n _ _ => n.val = e ∧ (s.evqueue e).frontThread = some c
  | _ => False

instance (c : Ptr) (e : ℕ) (s : Kernel) : ∀ i, Decidable (Awakes c e s i)
  | .irq _ _ _ => inferInstanceAs (Decidable (_ ∧ _))
  | .call _ _ | .fault _ _ _ => isFalse id

/-- An entry while `c` does not run.  It is no `SETSTATE` on `c` nor its `REAP`, and it
wakes `c` for nothing but the event. -/
structure Absent (c : Ptr) (e : ℕ) (s : Kernel) (i : Input) : Prop where
  enabled : i.Enabled s.toSched
  away : s.active ≠ some c
  spares : Spares c s i
  wakes : s.toSched.wakes (i.act s) c → Awakes c e s i

/-- One entry, with a note whether `c` was woken so far. -/
def Kernel.noted (c : Ptr) (e : ℕ) (x : Kernel × Bool) (i : Input) : Except Stop (Kernel × Bool) :=
  (·, x.2 || decide (Awakes c e x.1 i)) <$> x.1.next i

/-- The states from `s₁` on until `c` runs again. -/
def AwayRun (c : Ptr) (e : ℕ) (s₁ : Kernel) : Kernel × Bool → Prop :=
  Reachable (Kernel.noted c e) (fun x i => Absent c e x.1 i) fun x => x = (s₁, false)

/-- `c` calls `WAIT(e)` in `s` and runs again in `x`. -/
structure WaitRun (c : Ptr) (e : ℕ) (s : Kernel) (x : Kernel × Bool) : Prop where
  run : ∃ s₁ r env, CallsWait c e s r ∧ s.next (.call r env) = .ok s₁ ∧ AwayRun c e s₁ x
  back : x.1.active = some c

/-- The IRQ is delivered just before the call. -/
def IrqFirst (c : Ptr) (e : Fin 16) (s : Kernel) (x : Kernel × Bool) : Prop :=
  ∃ s₀ r env, s.next (.irq e r env) = .ok s₀ ∧ WaitRun c e s₀ x

/-- The IRQ is delivered after the call, if at all. -/
def IrqLater (c : Ptr) (e : Fin 16) (s : Kernel) (x : Kernel × Bool) : Prop := WaitRun c e s x

/-! ### What the thread finds -/

section Result

variable {c : Ptr} {e : ℕ} {s s' s₁ : Kernel} {i : Input}

/-- `WAIT` of a thread in the table returns 0 for an event in range, 1 beyond it. -/
theorem wait_eax {r : UserRegs} (env : Env) (hw : TableWf s) (hsys : SystemThread c s)
    (hlive : Live s.toSched c) (hcall : Call.ofEax r.eax = .wait) (hpos : 0 ≤ r.ebx.toInt) :
    ∃ s₁ info, handled s (.call r env) = .ok (s₁, info) ∧
      (s₁.img c).eax = if r.ebx.toInt < EV_COUNT then 0 else 1 := by
  obtain ⟨j, hj⟩ := hlive
  obtain ⟨hmode, hcall'⟩ := kcall_system hsys r env hcall
  obtain ⟨-, hebx, -⟩ := trap_regs hsys r env
  have hget : threadGet (trap s (.call r env)).toSched ((trap s (.call r env)).tcb c).id = some c :=
    hw.get hj
  rw [handled_system hsys, kcall, if_neg (not_not.mpr hmode), kernelCall, hcall']
  dsimp only
  rw [kcallWait, eventWait, hebx, hget]
  dsimp only
  rw [if_neg (Int.not_lt.mpr hpos)]
  by_cases hbig : (EV_COUNT : ℤ) ≤ r.ebx.toInt
  · rw [if_pos hbig, if_neg (Int.not_lt.mpr hbig)]
    exact ⟨_, _, rfl, setEax_eax _ _ _⟩
  · rw [if_neg hbig, if_pos (Int.not_le.mp hbig)]
    split_ifs with hset
    · exact ⟨_, _, rfl, setEax_eax _ _ _⟩
    · exact ⟨_, _, rfl, setEax_eax _ _ _⟩

/-- The thread in the table is not the image of the idle loop. -/
theorem away_image (hw : TableWf s) (hlive : Live s.toSched c) (haway : s.active ≠ some c) :
    c ≠ s.image := by
  rintro rfl
  obtain ⟨j, hj⟩ := hlive
  cases hact : s.active with
  | none => exact (hw.image_active hj) hact
  | some p => exact haway (by rw [Sched.image, hact, Option.getD_some])

/-- The thread `event_send` wakes finds the event in `eax`. -/
theorem eventSend_woken (he : e < EV_COUNT) (hfront : (s.evqueue e).frontThread = some c) :
    ((eventSend s e).img c).eax = BitVec.ofNat 32 e := by
  rw [eventSend_img he, eventWake_img hfront]
  exact setEax_eax _ _ _

/-- An entry writes `e` to `eax` if it wakes `c`, and else leaves it. -/
theorem absent_eax (he : 1 ≤ e) (hw : TableWf s) (hlive : Live s.toSched c)
    (ha : Absent c e s i) (h : s.next i = .ok s') :
    (s'.img c).eax = if Awakes c e s i then BitVec.ofNat 32 e else (s.img c).eax := by
  obtain ⟨⟨o, s₂, info⟩, hx, rfl⟩ := map_eq_ok.mp h
  obtain ⟨s₁, h₁, h₂⟩ := step_cases hx
  show (s₂.img c).eax = _
  rw [schedule_img h₂]
  by_cases hwake : Awakes c e s i
  · rw [if_pos hwake]
    cases i with
    | irq n r env =>
      obtain ⟨rfl, hfront⟩ := hwake
      rw [handled_irq s (by omega)] at h₁
      cases h₁
      have hn : n.val < EV_COUNT := n.isLt.trans (by decide)
      exact eventSend_woken hn hfront
    | call r env => exact hwake.elim
    | fault n r env => exact hwake.elim
  · rw [if_neg hwake]
    have himage := away_image hw hlive ha.away
    refine congrArg Image.eax ((handled_touched hw h₁).same c himage ?_ ?_)
    · exact fun hp => hwake (ha.wakes hp)
    · obtain ⟨j, hj⟩ := hlive
      rintro (hset | hreap | ⟨-, hfresh⟩)
      · exact ha.spares.1 hset
      · exact ha.spares.2 hreap
      · exact hfresh j hj

theorem absent_live (hw : TableWf s) (hlive : Live s.toSched c) (hreap : i.act s ≠ .reap c)
    (h : s.next i = .ok s') : Live s'.toSched c := by
  obtain ⟨j, hj⟩ := hlive
  exact ⟨j, next_slot hw h hreap hj⟩

/-- `eax` while the thread is away: what the call left there, or the event. -/
theorem AwayRun.eax (he : 1 ≤ e) (hreach : KernelReach (fun _ _ => True) s₁)
    (hlive : Live s₁.toSched c) {x : Kernel × Bool} (hx : AwayRun c e s₁ x) :
    (x.1.img c).eax = if x.2 then BitVec.ofNat 32 e else (s₁.img c).eax := by
  have hall : (KernelReach (fun _ _ => True) x.1 ∧ Live x.1.toSched c) ∧
      (x.1.img c).eax = if x.2 then BitVec.ofNat 32 e else (s₁.img c).eax := by
    refine Reachable.invariant (fun x => (KernelReach (fun _ _ => True) x.1 ∧ Live x.1.toSched c) ∧
      (x.1.img c).eax = if x.2 then BitVec.ofNat 32 e else (s₁.img c).eax) ?_ ?_ hx
    · rintro x rfl
      exact ⟨⟨hreach, hlive⟩, rfl⟩
    · rintro ⟨s, woken⟩ i x' - ⟨⟨hs, hl⟩, heax⟩ ha hstep
      obtain ⟨s', h, rfl⟩ := map_eq_ok.mp hstep
      have hw : TableWf s := KernelReach.tableWf hs
      refine ⟨⟨.next hs ⟨ha.enabled, trivial⟩ h, absent_live hw hl ha.spares.2 h⟩, ?_⟩
      show (s'.img c).eax = if (woken || decide (Awakes c e s i)) = true then _ else _
      rw [absent_eax he hw hl ha h, heax]
      by_cases hwake : Awakes c e s i
      · simp [hwake]
      · simp [hwake]
  exact hall.2

/-- **What the thread finds after `WAIT(e)`**: the event if the IRQ woke it, 0 if not. -/
theorem WaitRun.eax (he : 1 ≤ e ∧ e < 16) (hreach : KernelReach (fun _ _ => True) s)
    {x : Kernel × Bool} (hx : WaitRun c e s x) :
    (x.1.img c).eax = if x.2 then BitVec.ofNat 32 e else 0 := by
  obtain ⟨s₁, r, env, hcalls, hnext, hrun⟩ := hx.run
  have hw : TableWf s := KernelReach.tableWf hreach
  have hebx : r.ebx.toInt = e := by
    have hlt := he.2
    rw [hcalls.event, BitVec.toInt_ofNat']
    exact Int.bmod_eq_of_le (by omega) (by omega)
  have hen : Input.Enabled s.toSched (.call r env) := by
    show s.active ≠ none
    rw [hcalls.system.active]
    exact Option.some_ne_none c
  have hreap : Input.act s (.call r env) ≠ .reap c := by
    intro hact
    obtain ⟨r', env₁, hi, -, hcall, -⟩ := Input.act_reap hact
    cases hi
    rw [hcalls.call] at hcall
    cases hcall
  obtain ⟨⟨o, s₃, info⟩, hstep, rfl⟩ := map_eq_ok.mp hnext
  obtain ⟨s₂, h₂, h₃⟩ := step_cases hstep
  obtain ⟨s₂', info', h₂', heax⟩ := wait_eax env hw hcalls.system hcalls.live hcalls.call (by omega)
  rw [h₂] at h₂'
  cases h₂'
  have hzero : (s₃.img c).eax = 0 := by
    rw [schedule_img h₃, heax, hebx, if_pos (by simp only [EV_COUNT]; omega)]
  have hlive : Live s₃.toSched c := absent_live hw hcalls.live hreap hnext
  rw [hrun.eax he.1 (.next hreach ⟨hen, trivial⟩ hnext) hlive]
  show (if x.2 = true then _ else (s₃.img c).eax) = _
  rw [hzero]

end Result

/-! ### The two orders agree -/

/-- What `c` finds in `eax` is the same in both states, and not what a `WAIT` in `s`
returns for an event beyond the last. -/
structure Agree (c : Ptr) (s x y : Kernel) : Prop where
  same : (x.img c).eax = (y.img c).eax
  valid : ∀ r env s', Call.ofEax r.eax = .wait → (EV_COUNT : ℤ) ≤ r.ebx.toInt →
    s.next (.call r env) = .ok s' → (x.img c).eax ≠ (s'.img c).eax

/-- A `WAIT` for an event beyond the last returns 1. -/
theorem wait_invalid {c : Ptr} {s : Kernel} {r : UserRegs} (env : Env) (hw : TableWf s)
    (hsys : SystemThread c s) (hlive : Live s.toSched c) (hcall : Call.ofEax r.eax = .wait)
    (hbig : (EV_COUNT : ℤ) ≤ r.ebx.toInt) :
    ∃ s', s.next (.call r env) = .ok s' ∧ (s'.img c).eax = 1 := by
  have hpos : 0 ≤ r.ebx.toInt := le_trans (Int.natCast_nonneg _) hbig
  obtain ⟨s₁, info, h₁, heax⟩ := wait_eax env hw hsys hlive hcall hpos
  obtain ⟨o, s₂, h₂⟩ := exists_schedule s₁
  refine ⟨s₂, map_eq_ok.mpr ⟨(o, s₂, info), ?_, rfl⟩, ?_⟩
  · refine bind_eq_ok.mpr ⟨(s₁, info), h₁, ?_⟩
    exact bind_eq_ok.mpr ⟨(o, s₂), h₂, rfl⟩
  · rw [schedule_img h₂, heax, if_neg (Int.not_lt.mpr hbig)]

/-- The numbers of different lines differ as register values too. -/
theorem line_ne {m n : ℕ} (hm : m < 16) (hn : n < 16) (hne : m ≠ n) :
    BitVec.ofNat 32 m ≠ BitVec.ofNat 32 n := by
  intro h
  have htoNat := congrArg BitVec.toNat h
  rw [BitVec.toNat_ofNat, BitVec.toNat_ofNat] at htoNat
  omega

/-- **The result of `WAIT` does not depend on the time of the IRQ** if and only if the IRQ
takes the thread from the queue in neither order, or in both and the line is not 1. -/
theorem wait_race_iff {c : Ptr} {e : Fin 16} (he : 1 ≤ e.val) {s : Kernel} {x y : Kernel × Bool}
    (hreach : KernelReach (fun _ _ => True) s) (hx : IrqFirst c e s x) (hy : IrqLater c e s y) :
    Agree c s x.1 y.1 ↔ x.2 = y.2 ∧ (e.val = 1 → x.2 = false) := by
  obtain ⟨s₀, r₀, env₀, hirq, hwait⟩ := hx
  have hen : Input.Enabled s.toSched (.irq e r₀ env₀) := trivial
  have hxeax := hwait.eax ⟨he, e.isLt⟩ (.next hreach ⟨hen, trivial⟩ hirq)
  have hyeax := hy.eax ⟨he, e.isLt⟩ hreach
  have hw : TableWf s := KernelReach.tableWf hreach
  obtain ⟨s₁, r, env, hcalls, -⟩ := hy.run
  have hne : BitVec.ofNat 32 e.val ≠ BitVec.ofNat 32 0 :=
    line_ne e.isLt (by decide) (Nat.ne_of_gt he)
  constructor
  · rintro ⟨hsame, hvalid⟩
    obtain ⟨s', hnext, hinv⟩ := wait_invalid env hw hcalls.system hcalls.live
      (rfl : Call.ofEax (stubRegs idleRegs 0x0D 256 0).eax = .wait) (by decide)
    have hdiff := hvalid _ _ _ rfl (by decide) hnext
    rw [hinv, hxeax] at hdiff
    rw [hxeax, hyeax] at hsame
    cases hxw : x.2 with
    | true =>
      rw [hxw, if_pos rfl] at hdiff hsame
      cases hyw : y.2 with
      | true =>
        refine ⟨rfl, fun hone => ?_⟩
        rw [hone] at hdiff
        exact absurd rfl hdiff
      | false =>
        rw [hyw, if_neg Bool.false_ne_true] at hsame
        exact absurd hsame hne
    | false =>
      rw [hxw, if_neg Bool.false_ne_true] at hsame
      cases hyw : y.2 with
      | true =>
        rw [hyw, if_pos rfl] at hsame
        exact absurd hsame.symm hne
      | false => exact ⟨rfl, fun _ => rfl⟩
  · rintro ⟨hflag, hfirst⟩
    refine ⟨by rw [hxeax, hyeax, hflag], fun r' env' s' hcall hbig hnext => ?_⟩
    obtain ⟨s'', hnext', hinv⟩ := wait_invalid env' hw hcalls.system hcalls.live hcall hbig
    rw [hnext] at hnext'
    cases hnext'
    rw [hxeax, hinv]
    split_ifs with hxw
    · refine line_ne e.isLt (by decide : 1 < 16) fun hone => ?_
      rw [hfirst hone] at hxw
      cases hxw
    · decide

/-- A call that comes back at once. -/
theorem WaitRun.at_once {c : Ptr} {s s₁ : Kernel} (hact : s.active = some c)
    (hmode : (s.img c).flags &&& TF_USER = 0) (hlive : threadGet s.toSched (s.tcb c).id = some c)
    (hnext : s.next (callOf 0x0D 1) = .ok s₁) (hback : s₁.active = some c) :
    WaitRun c 1 s (s₁, false) := by
  obtain ⟨j, -, -, hj⟩ := threadGet_eq_some hlive
  exact ⟨⟨s₁, _, _, ⟨⟨hact, hmode⟩, ⟨j, hj⟩, rfl, rfl⟩, hnext, .start rfl⟩, hback⟩

/-- Line 1 is latched before either order begins. -/
theorem wait_race_latched : ∃ s c x y, KernelReach (fun _ _ => True) s ∧ IrqFirst c 1 s x ∧
    IrqLater c 1 s y ∧ Agree c s x.1 y.1 := by
  obtain ⟨s, hs, hf⟩ := exists_bootRun (fun _ _ => True) [irqOf 1]
    (fun s => s.active.any fun c => decide ((s.img c).flags &&& TF_USER = 0) &&
      decide (threadGet s.toSched (s.tcb c).id = some c) &&
      (s.next (callOf 0x0D 1)).toOption.any (fun (y : Kernel) => decide (y.active = some c)) &&
      (s.next (irqOf 1)).toOption.any fun (s₀ : Kernel) => decide (s₀.active = some c) &&
        decide ((s₀.img c).flags &&& TF_USER = 0) &&
        decide (threadGet s₀.toSched (s₀.tcb c).id = some c) &&
        (s₀.next (callOf 0x0D 1)).toOption.any fun (x : Kernel) => decide (x.active = some c))
    (by decide +kernel)
  simp only [Option.any_eq_true, Bool.and_eq_true, decide_eq_true_eq, toOption_eq_some] at hf
  obtain ⟨c, hact, ⟨⟨hmode, hlive⟩, y, hy, hyact⟩, s₀, hs₀, ⟨⟨hact₀, hmode₀⟩, hlive₀⟩, x, hx,
    hxact⟩ := hf
  have hearly : IrqFirst c 1 s (x, false) :=
    ⟨s₀, _, _, hs₀, .at_once hact₀ hmode₀ hlive₀ hx hxact⟩
  have hlate : IrqLater c 1 s (y, false) := .at_once hact hmode hlive hy hyact
  exact ⟨s, c, (x, false), (y, false), hs, hearly, hlate,
    (wait_race_iff (by decide) hs hearly hlate).mpr ⟨rfl, fun _ => rfl⟩⟩

/-- After the boot `WAIT(1)` returns 0 if the IRQ comes first and 1 if it comes later,
which is also what an event beyond the last returns. -/
theorem wait_race_fails : ∃ s c x y, KernelReach (fun _ _ => True) s ∧ IrqFirst c 1 s x ∧
    IrqLater c 1 s y ∧ (x.1.img c).eax = 0 ∧ (y.1.img c).eax = 1 ∧ ¬Agree c s x.1 y.1 := by
  obtain ⟨s, hs, hf⟩ := exists_bootRun (fun _ _ => True) []
    (fun s => s.active.any fun c => decide ((s.img c).flags &&& TF_USER = 0) &&
      decide (threadGet s.toSched (s.tcb c).id = some c) &&
      ((s.next (callOf 0x0D 1)).toOption.any fun (s₁ : Kernel) => decide (s₁.active ≠ some c) &&
        decide ((s₁.evqueue 1).frontThread = some c) &&
        (s₁.next (irqOf 1)).toOption.any fun (y : Kernel) => decide (y.active = some c) &&
          decide ((y.img c).eax = 1)) &&
      (s.next (irqOf 1)).toOption.any fun (s₀ : Kernel) => decide (s₀.active = some c) &&
        decide ((s₀.img c).flags &&& TF_USER = 0) &&
        decide (threadGet s₀.toSched (s₀.tcb c).id = some c) &&
        (s₀.next (callOf 0x0D 1)).toOption.any fun (x : Kernel) => decide (x.active = some c) &&
          decide ((x.img c).eax = 0))
    (by decide +kernel)
  simp only [Option.any_eq_true, Bool.and_eq_true, decide_eq_true_eq, toOption_eq_some] at hf
  obtain ⟨c, hact, ⟨⟨hmode, hlive⟩, s₁, hs₁, ⟨haway, hfront⟩, y, hy, hyact, hyeax⟩, s₀, hs₀,
    ⟨⟨hact₀, hmode₀⟩, hlive₀⟩, x, hx, hxact, hxeax⟩ := hf
  obtain ⟨j, -, -, hj⟩ := threadGet_eq_some hlive
  have habsent : Absent c 1 s₁ (irqOf 1) :=
    ⟨trivial, haway, ⟨id, nofun⟩, fun _ => ⟨rfl, hfront⟩⟩
  have haway : AwayRun c 1 s₁ (y, true) := by
    have hnote : (false || decide (Awakes c 1 s₁ (irqOf 1))) = true :=
      decide_eq_true ⟨rfl, hfront⟩
    exact .next (.start rfl) habsent (map_eq_ok.mpr ⟨y, hy, congrArg (Prod.mk y) hnote⟩)
  refine ⟨s, c, (x, false), (y, true), hs, ⟨s₀, _, _, hs₀, .at_once hact₀ hmode₀ hlive₀ hx hxact⟩,
    ⟨⟨s₁, _, _, ⟨⟨hact, hmode⟩, ⟨j, hj⟩, rfl, rfl⟩, hs₁, haway⟩, hyact⟩, hxeax, hyeax, fun h => ?_⟩
  have hsame := h.same
  rw [hxeax, hyeax] at hsame
  exact absurd hsame (by decide)

end Pinion
