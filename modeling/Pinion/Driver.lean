/-
A driver thread and its IRQ line.

One thread repeats `WAIT(n)` and `RESET(n)`.  An IRQ of the line masks it, so the
next one can only come after the `RESET`; a delivery either wakes the driver or is
latched for its next `WAIT`.

* `DriverLog` — deliveries and released `WAIT` calls, observed on the states before
  and after an entry, and whether the last delivery is claimed;
* `DriverOk` — the entries of such a run: only the driver uses the line, and the
  8259 pair delivers no masked line;
* `DriverPhase` — where the driver, the latch and the counts can be;
* `driver_step`, `driver_irq_counts` — the invariant, and what follows for the counts.
-/
import Pinion.IrqMask
import Pinion.Partition

open LinkedQueue Runs

namespace Pinion

/-- The counts for the driver of a line: deliveries, released `WAIT` calls, and
whether the driver was released and has not called `RESET` since. -/
structure DriverLog where
  delivered : ℕ
  released : ℕ
  claimed : Bool

def DriverLog.empty : DriverLog := ⟨0, 0, false⟩

/-- The entry releases a `WAIT(n)` of the driver: one called now or before, and the
driver does not wait on `n` afterwards. -/
def releases (driver : Ptr) (n : ℕ) (s : Kernel) (i : Input) (s' : Kernel) : Bool :=
  (decide (i.act s = .wait driver n) || s.toSched.waitsOn n driver) &&
    !s'.toSched.waitsOn n driver

def DriverLog.observe (driver : Ptr) (n : ℕ) (g : DriverLog) (s : Kernel) (i : Input)
    (s' : Kernel) : DriverLog where
  delivered := if i.act s = .irq n then g.delivered + 1 else g.delivered
  released := if releases driver n s i s' then g.released + 1 else g.released
  claimed := if releases driver n s i s' then true else if i.act s = .reset n then false
    else g.claimed

/-- One entry, with the counts. -/
def Kernel.counted (driver : Ptr) (n : ℕ) (x : Kernel × DriverLog) (i : Input) :
    Except Stop (Kernel × DriverLog) :=
  (fun s' => (s', x.2.observe driver n x.1 i s')) <$> x.1.next i

/-- The calls that only schedule. -/
def Call.schedules : Call → Bool
  | .spawn => true
  | .gettid => true
  | .yield => true
  | .wait => true
  | .reset => true
  | _ => false

theorem Call.schedules_cases {c : Call} (h : c.schedules = true) :
    c = .spawn ∨ c = .gettid ∨ c = .yield ∨ c = .wait ∨ c = .reset := by
  cases c <;> simp_all [Call.schedules]

/-- The inputs of such a run: those calls, and interrupts. -/
def Input.Schedules : Input → Prop
  | .call r _ => (Call.ofEax r.eax).schedules = true
  | .irq _ _ _ => True
  | .fault _ _ _ => False

instance : ∀ i : Input, Decidable i.Schedules
  | .call _ _ => inferInstanceAs (Decidable (_ = _))
  | .irq _ _ _ => isTrue trivial
  | .fault _ _ _ => isFalse id

/-- What the threads and the interrupt controller keep to: `WAIT(n)` and `RESET(n)`
come from the driver, in turn, `RESET` names a line, and line `n` is not delivered
while it is masked. -/
def DriverAct (driver : Ptr) (n : ℕ) (s : Kernel) (g : DriverLog) : Act → Prop
  | .wait t e => e = n → t = driver ∧ g.claimed = false
  | .reset m => m < 16 ∧ (m = n → s.image = driver ∧ g.claimed = true)
  | .irq m => m = n → s.masked n = false
  | _ => True

instance (driver : Ptr) (n : ℕ) (s : Kernel) (g : DriverLog) :
    ∀ a, Decidable (DriverAct driver n s g a)
  | .wait _ _ => inferInstanceAs (Decidable (_ → _))
  | .reset _ => inferInstanceAs (Decidable (_ ∧ _))
  | .irq _ => inferInstanceAs (Decidable (_ → _))
  | .other | .spawn | .reap _ | .yield | .pause _ | .resume _ | .rewait _ | .kill _ | .request _
  | .fault | .tick _ => isTrue trivial

def DriverOk (driver : Ptr) (n : ℕ) (x : Kernel × DriverLog) (i : Input) : Prop :=
  i.Enabled x.1.toSched ∧ i.Schedules ∧ DriverAct driver n x.1 x.2 (i.act x.1)

instance (driver : Ptr) (n : ℕ) (x : Kernel × DriverLog) (i : Input) :
    Decidable (DriverOk driver n x i) :=
  inferInstanceAs (Decidable (_ ∧ _ ∧ _))

/-- The states reached by such runs, with the counts. -/
def DriverReach (driver : Ptr) (n : ℕ) : Kernel × DriverLog → Prop :=
  Reachable (Kernel.counted driver n) (DriverOk driver n) fun x => Init x.1 ∧ x.2 = DriverLog.empty

/-! ### The phases of the driver -/

/-- The latch of the line, its waiters and the counts fit together: the line is
quiet, a delivery is latched and unclaimed, or the driver was released and has not
called `RESET` yet. -/
inductive DriverPhase (driver : Ptr) : ℤ → List Ptr → DriverLog → Prop
  | quiet {w : List Ptr} {g : DriverLog} (waiters : w = [] ∨ w = [driver])
      (claimed : g.claimed = false) (count : g.delivered = g.released) : DriverPhase driver 0 w g
  | latched {v : ℤ} {g : DriverLog} (set : v ≠ 0) (claimed : g.claimed = false)
      (count : g.delivered = g.released + 1) : DriverPhase driver v [] g
  | served {v : ℤ} {g : DriverLog} (set : v ≠ 0) (claimed : g.claimed = true)
      (count : g.delivered = g.released) : DriverPhase driver v [] g

structure DriverInv (driver : Ptr) (n : ℕ) (s : Kernel) (g : DriverLog) (q : Lists) : Prop where
  table : TableWf s
  part : Partition s.toSched q
  mask : MaskWf s
  bit : s.irqstate n ≠ 0 → s.irqMask.getLsbD n = true
  phase : DriverPhase driver (s.irqstate n) (q.ev n) g

/-- The calls that only schedule are actions of the core. -/
theorem Input.Schedules.coreOk {s : Kernel} {i : Input} (h : i.Schedules) :
    CoreOk s.toSched (i.act s) := by
  cases i with
  | fault n r env => exact h.elim
  | irq m r env =>
    simp only [Input.act]
    split <;> trivial
  | call r env =>
    simp only [Input.act]
    split
    · trivial
    · rcases Call.schedules_cases h with hc | hc | hc | hc | hc <;> rw [hc] <;> simp only [callAct]
      · trivial
      · trivial
      · trivial
      · split
        · split <;> trivial
        · trivial
      · split <;> trivial

theorem DriverAct.line_lt {driver : Ptr} {n m : ℕ} {s : Kernel} {g : DriverLog} {a : Act}
    (h : DriverAct driver n s g a) (ha : a = .reset m) : m < 32 := by
  subst ha
  exact h.1.trans (by decide)

/-- An action that is no IRQ of a line and no `WAIT` on it keeps its waiters. -/
theorem Effect.evAfter_ne {c : Ptr} {k k' : Sched} {a : Act} {n : ℕ} (h : Effect c k a k')
    (hn : n < 240) (ev : ℕ → List Ptr) (hi : a ≠ .irq n) (hw : ∀ t, a ≠ .wait t n) :
    evAfter k ev a n = ev n := by
  cases h with
  | wait live bound =>
    rename_i t e
    have he : n ≠ e := fun he => hw t (by rw [he])
    simp only [evAfter]
    split
    · exact Function.update_of_ne he _ _
    · rfl
  | irq =>
    rename_i m _ _
    exact Function.update_of_ne (fun hm => hi (by rw [hm])) _ _
  | tick virt distinct =>
    rename_i fired
    have hnot : n ∉ fired := fun hmem => absurd (virt n hmem).1 (by omega)
    simp only [evAfter, hnot, if_false]
  | _ => rfl

/-! ### One entry -/

/-- The entry releases the driver iff it leaves the waiters of the line, or calls
`WAIT` and is not among them. -/
theorem releases_iff {driver : Ptr} {n : ℕ} {s s' : Kernel} {i : Input} {q q' : Lists}
    (h : Partition s.toSched q) (h' : Partition s'.toSched q') :
    releases driver n s i s' = true ↔
      (i.act s = .wait driver n ∨ driver ∈ q.ev n) ∧ driver ∉ q'.ev n := by
  rw [releases, Bool.and_eq_true, Bool.or_eq_true, decide_eq_true_eq, Bool.not_eq_true',
    ← Bool.not_eq_true, h.waitsOn_iff, h'.waitsOn_iff]

/-- **The phase moves on with every entry.** -/
theorem DriverPhase.next {driver : Ptr} {n : ℕ} {s s' : Kernel} {i : Input} {g : DriverLog}
    {v' : ℤ} {w w' : List Ptr} (h : DriverPhase driver (s.irqstate n) w g)
    (hrel : releases driver n s i s' = true ↔
      (i.act s = .wait driver n ∨ driver ∈ w) ∧ driver ∉ w')
    (hwait : ∀ t, i.act s = .wait t n → t = driver ∧ g.claimed = false ∧ driver ∉ w ∧
      v' = s.irqstate n ∧ w' = if s.irqstate n = 0 then w ++ [t] else w)
    (hreset : i.act s = .reset n → g.claimed = true ∧ v' = 0 ∧ w' = w)
    (hirq : i.act s = .irq n → s.irqstate n = 0 ∧ v' = 1 ∧ w' = w.tail)
    (hother : i.act s ≠ .irq n → i.act s ≠ .reset n → (∀ t, i.act s ≠ .wait t n) →
      v' = s.irqstate n ∧ w' = w) :
    DriverPhase driver v' w' (g.observe driver n s i s') := by
  by_cases hw : ∃ t, i.act s = .wait t n
  · -- `WAIT(n)` blocks on a quiet line, and claims a latched delivery at once
    obtain ⟨t, ht⟩ := hw
    obtain ⟨rfl, hclaim, hnot, rfl, hw'⟩ := hwait t ht
    generalize hv : s.irqstate n = v at *
    cases h with
    | quiet waiters claimed count =>
      have hnil : w = [] := by
        rcases waiters with rfl | rfl
        · rfl
        · exact absurd (List.mem_singleton_self t) hnot
      rw [if_pos rfl, hnil, List.nil_append] at hw'
      have hno : releases t n s i s' = false := by
        rw [← Bool.not_eq_true, hrel, hw']
        simp
      refine hw' ▸ .quiet (Or.inr rfl) ?_ ?_
      · simp [DriverLog.observe, hno, ht, claimed]
      · simp [DriverLog.observe, hno, ht, count]
    | latched set claimed count =>
      rw [if_neg set] at hw'
      have hyes : releases t n s i s' = true := by
        rw [hrel, hw']
        exact ⟨Or.inl ht, List.not_mem_nil⟩
      refine hw' ▸ .served set ?_ ?_
      · simp [DriverLog.observe, hyes]
      · simp [DriverLog.observe, hyes, ht, count]
    | served set claimed count =>
      rw [claimed] at hclaim
      cases hclaim
  · have hw : ∀ t, i.act s ≠ .wait t n := fun t ht => hw ⟨t, ht⟩
    by_cases hr : i.act s = .reset n
    · -- `RESET(n)` reopens the line
      obtain ⟨hclaim, rfl, rfl⟩ := hreset hr
      have hno : releases driver n s i s' = false := by
        rw [← Bool.not_eq_true, hrel]
        rintro ⟨hcall | hmem, hnot⟩
        · exact hw driver hcall
        · exact hnot hmem
      generalize s.irqstate n = v at *
      cases h with
      | quiet waiters claimed count =>
        rw [claimed] at hclaim
        cases hclaim
      | latched set claimed count =>
        rw [claimed] at hclaim
        cases hclaim
      | served set claimed count =>
        refine .quiet (Or.inl rfl) ?_ ?_
        · simp [DriverLog.observe, hno, hr]
        · simp [DriverLog.observe, hno, hr, count]
    · by_cases hi : i.act s = .irq n
      · -- the line was open, so it was quiet: the IRQ wakes the driver or is latched
        obtain ⟨hzero, rfl, rfl⟩ := hirq hi
        rw [hzero] at h
        cases h with
        | latched set claimed count => exact absurd rfl set
        | served set claimed count => exact absurd rfl set
        | quiet waiters claimed count =>
          rcases waiters with rfl | rfl
          · have hno : releases driver n s i s' = false := by
              rw [← Bool.not_eq_true, hrel]
              rintro ⟨hcall | hmem, -⟩
              · exact hw driver hcall
              · exact absurd hmem List.not_mem_nil
            refine .latched (by decide) ?_ ?_
            · simp [DriverLog.observe, hno, hi, claimed]
            · simp [DriverLog.observe, hno, hi, count]
          · have hyes : releases driver n s i s' = true := by
              rw [hrel]
              exact ⟨Or.inr (List.mem_singleton_self driver), List.not_mem_nil⟩
            refine .served (by decide) ?_ ?_
            · simp [DriverLog.observe, hyes]
            · simp [DriverLog.observe, hyes, hi, count]
      · -- the entry has nothing to do with the line
        obtain ⟨rfl, rfl⟩ := hother hi hr hw
        have hno : releases driver n s i s' = false := by
          rw [← Bool.not_eq_true, hrel]
          rintro ⟨hcall | hmem, hnot⟩
          · exact hw driver hcall
          · exact hnot hmem
        have hg : g.observe driver n s i s' = g := by
          simp [DriverLog.observe, hno, hi, hr]
        rw [hg]
        exact h

theorem driver_step {driver : Ptr} {n : ℕ} (hn : n < 16) {s s' : Kernel} {g : DriverLog}
    {q : Lists} {i : Input} (h : DriverInv driver n s g q) (hok : DriverOk driver n (s, g) i)
    (hs : s.next i = .ok s') : ∃ q', DriverInv driver n s' (g.observe driver n s i s') q' := by
  obtain ⟨hen, hsched, hact⟩ := hok
  have hen' := Input.enabled_cases hen
  obtain ⟨k, o, heff, hpick, hw'⟩ := next_cases h.table hs
  obtain ⟨q₁, hp₁, hev₁⟩ :=
    heff.partition h.part h.table.idsOk h.table.id_eq hen' hsched.coreOk
  obtain ⟨q₂, hp₂, hev₂⟩ := hpick.partition hp₁
  obtain ⟨hwf, hbits⟩ := next_masks h.mask (Input.shift_lt fun _ => hact.line_lt) hs
  have hev : q₂.ev n = evAfter s.toSched q.ev (i.act s) n := by rw [hev₂, hev₁]
  have hirq : s'.irqstate n = (s.devices.after (i.act s).io).irqstate n := by
    rw [next_irqstate hs]
  -- an action that is neither an IRQ of the line nor its `RESET` leaves the latch
  have hsame : i.act s ≠ .irq n → i.act s ≠ .reset n → s'.irqstate n = s.irqstate n := by
    intro hi hr
    rw [hirq]
    exact after_irqstate_ne _ (Act.io_line.not.mpr hi) (Act.io_reset.not.mpr hr)
  -- the partition and the masks hold of every entry; the bit and the phase are about the line
  refine ⟨q₂, hw', hp₂, hwf, ?_, ?_⟩
  · -- a latched line is masked
    intro hset
    rw [hbits n hn]
    by_cases hi : i.act s = .irq n
    · simp [hi, Act.io, Io.bitAfter]
    · by_cases hr : i.act s = .reset n
      · rw [hirq, hr] at hset
        exact absurd (Function.update_self ..) hset
      · rw [hsame hi hr] at hset
        rw [Io.bitAfter_ne (Act.io_line.not.mpr hi) (Act.io_reset.not.mpr hr)]
        exact h.bit hset
  · refine h.phase.next (releases_iff h.part hp₂) ?_ ?_ ?_ ?_
    · intro t ht
      rw [ht] at hact heff hen'
      obtain ⟨hd, hclaim⟩ := hact rfl
      -- the driver runs, so it is not among the waiters
      have hcaller : s.active = some s.image := by
        rcases hen' with hc | ⟨m, hm⟩ | ⟨f, hf⟩
        · exact hc
        · cases hm
        · cases hf
      have hrun := (h.part.place s.image).active.mp hcaller
      have hdc : t = s.image := by
        cases heff with
        | wait live bound =>
          obtain ⟨j, hj⟩ := (h.part.place s.image).live (by simp [hrun]) (by simp [hrun])
          rw [h.table.idsOk j _ hj, Option.some.injEq] at live
          exact live.symm
      have hnot : driver ∉ q.ev n := by
        rw [← hd, hdc]
        exact (h.part.off (by simp [hrun]) (by simp [hrun])).ev n
      refine ⟨hd, hclaim, hnot, ?_, ?_⟩
      · rw [hirq, ht]
        rfl
      · rw [hev, ht, evAfter]
        split <;> simp
    · intro hr
      rw [hr] at hact
      refine ⟨(hact.2 rfl).2, ?_, ?_⟩
      · rw [hirq, hr]
        exact Function.update_self ..
      · rw [hev, hr]
        rfl
    · intro hi
      rw [hi] at hact
      have hopen : s.irqMask.getLsbD n = false := by
        rw [← h.mask n hn]
        exact hact rfl
      refine ⟨?_, ?_, ?_⟩
      · by_contra hset
        rw [h.bit hset] at hopen
        cases hopen
      · rw [hirq, hi]
        exact Function.update_self ..
      · rw [hev, hi, evAfter, Function.update_self]
    · intro hi hr hwait
      refine ⟨?_, ?_⟩
      · exact hsame hi hr
      · rw [hev]
        exact heff.evAfter_ne (by omega) q.ev hi hwait

/-! ### Runs -/

/-- `init` leaves every line open. -/
theorem Init.masks {s : Kernel} (h : Init s) : MaskWf s := by
  rw [maskWf_iff, h.devices]
  exact ⟨by decide, by decide⟩

theorem DriverReach.inv {driver : Ptr} {n : ℕ} (hn : n < 16) {x : Kernel × DriverLog}
    (h : DriverReach driver n x) : ∃ q, DriverInv driver n x.1 x.2 q := by
  refine Reachable.invariant (fun x => ∃ q, DriverInv driver n x.1 x.2 q) ?_ ?_ h
  · rintro ⟨s, g⟩ ⟨hinit, rfl⟩
    have hzero : s.irqstate n = 0 := by
      obtain ⟨-, p, i, hs⟩ := hinit.cases
      rw [hs]
    refine ⟨_, hinit.cases.1, hinit.partition, hinit.masks, fun hset => absurd hzero hset, ?_⟩
    rw [hzero]
    exact .quiet (Or.inl rfl) rfl rfl
  · rintro ⟨s, g⟩ i x' - ⟨q, hq⟩ hok hstep
    obtain ⟨s', hs, rfl⟩ := map_eq_ok.mp hstep
    exact driver_step hn hq hok hs

/-- **No lost and no duplicated IRQ**: in every run with one driver of line `n`, its
released `WAIT` calls are the deliveries, up to one; there is one more delivery
exactly when the latch is set by one the driver has not claimed; and the driver
never waits on the line while it is latched. -/
theorem driver_irq_counts {driver : Ptr} {n : ℕ} (hn₁ : 1 ≤ n) (hn₂ : n ≤ 15) {s : Kernel}
    {g : DriverLog} (h : DriverReach driver n (s, g)) :
    g.released ≤ g.delivered ∧ g.delivered ≤ g.released + 1 ∧
    (g.delivered = g.released + 1 ↔ s.irqstate n ≠ 0 ∧ g.claimed = false) ∧
    ((s.tcb driver).state = .waiting → (s.tcb driver).event = n → s.irqstate n = 0) := by
  obtain ⟨q, hq⟩ := h.inv (by omega)
  have hphase : DriverPhase driver (s.irqstate n) (q.ev n) g := hq.phase
  have hwaits : (s.tcb driver).state = .waiting → (s.tcb driver).event = n →
      driver ∈ q.ev n := fun hst hev => ((hq.part.place driver).ev n).mpr ⟨hst, hev⟩
  generalize s.irqstate n = v at hphase ⊢
  generalize q.ev n = w at hphase hwaits
  cases hphase with
  | quiet waiters claimed count =>
    refine ⟨by omega, by omega, ⟨fun hd => ?_, fun hd => absurd rfl hd.1⟩, fun _ _ => rfl⟩
    omega
  | latched set claimed count =>
    refine ⟨by omega, by omega, ⟨fun _ => ⟨set, claimed⟩, fun _ => count⟩, fun hst hev => ?_⟩
    exact absurd (hwaits hst hev) List.not_mem_nil
  | served set claimed count =>
    refine ⟨by omega, by omega, ⟨fun hd => ?_, fun hd => ?_⟩, fun hst hev => ?_⟩
    · omega
    · rw [claimed] at hd
      cases hd.2
    · exact absurd (hwaits hst hev) List.not_mem_nil

/-- Thread 1 drives line 1: it waits, is woken by the first IRQ and resets the line;
the second IRQ is latched. -/
theorem driver_irq_counts_keyboard : ∃ s g, DriverReach 0xF1000E00 1 (s, g) ∧
    g.delivered = 2 ∧ g.released = 1 ∧ s.irqstate 1 ≠ 0 ∧ g.claimed = false := by
  have hrun : ((bootstrap flatMem 0 0 0).toOption.bind fun s =>
      replay (Kernel.counted 0xF1000E00 1) (DriverOk 0xF1000E00 1)
        [callOf 0x02 0, irqOf 0, callOf 0x0D 1, irqOf 1, irqOf 0, callOf 0x0E 1, irqOf 1]
        (s, DriverLog.empty)).any
      (fun x => decide (x.2.delivered = 2) && decide (x.2.released = 1)) = true := by
    decide +kernel
  obtain ⟨⟨s, g⟩, hx, hcount⟩ := (Option.any_eq_true _ _).mp hrun
  obtain ⟨s₀, h₀, hx⟩ := Option.bind_eq_some_iff.mp hx
  have hreach : DriverReach 0xF1000E00 1 (s, g) := Reachable.of_replay
    (.start ⟨⟨flatMem, 0, 0, 0, .empty rfl fun _ => rfl, toOption_eq_some.mp h₀⟩, rfl⟩) hx
  rw [Bool.and_eq_true, decide_eq_true_eq, decide_eq_true_eq] at hcount
  obtain ⟨-, -, hone, -⟩ := driver_irq_counts (by decide) (by decide) hreach
  obtain ⟨hset, hclaim⟩ := hone.mp (by rw [hcount.1, hcount.2])
  exact ⟨s, g, hreach, hcount.1, hcount.2, hset, hclaim⟩

end Pinion
