/-
A queued thread is not overtaken, and it runs.

The run queue is written in many places, but a thread enters it at the end only, and leaves it as
its head or by a `PAUSE` that names it.  So those in front of a queued thread are always some of
those that were, in their order, and each time the processor changes hands there is one less of
them.

* `Grown` — threads joined at the end, and the operations that let them;
* `Effect.run` — what one entry makes of the run queue;
* `Ahead`, `next_ahead` — the threads in front of a queued thread;
* `Input.Dispatches`, `tick_dispatches` — the entries that take a thread from the queue;
* `Delayed`, `queued_runs` — how long a queued thread can be kept from the processor.
-/
import Pinion.PauseResume

open LinkedQueue Runs

namespace Pinion

/-! ### The run queue grows at its end -/

/-- The run queue of `k'` is `l` and those who joined. -/
def Grown (l : List Ptr) (k' : Sched) : Prop := ∃ m, RunQ k' (l ++ m)

theorem RunQ.grown {k : Sched} {l : List Ptr} (h : RunQ k l) : Grown l k :=
  ⟨[], by rw [List.append_nil]; exact h⟩

theorem RunQ.unique {k : Sched} {l l' : List Ptr} (h : RunQ k l) (h' : RunQ k l') : l = l' :=
  Rep.unique h h'

section Grown

variable {k k' : Sched} {q : Lists} {t : Ptr}

/-- A thread that is made ready joins at the end. -/
theorem Sound.readied (h : Sound k q) (hst : (k.tcb t).state ≠ .queued)
    (hst' : (k.tcb t).state ≠ .waiting) {k₁ : Sched} (hrun : RunQ k₁ q.run) :
    Grown q.run (Pinion.makeReady k₁ t) := by
  refine ⟨[t], hrun.makeReady fun hr => ?_⟩
  rcases ((h.placed t).run hr).1 with hq | hw
  · exact hst hq
  · exact hst' hw

theorem RunQ.setState {l : List Ptr} (h : RunQ k l) (p : Ptr) (st : TState) :
    RunQ (k.setState p st) l :=
  h.congr (fun a _ => (SameLinks.setState k p st).next a) rfl rfl

theorem Grown.setState {l : List Ptr} (h : Grown l k) (p : Ptr) (st : TState) :
    Grown l (k.setState p st) := h.imp fun _ hm => hm.setState p st

/-- A woken waiter joins at the end. -/
theorem Sound.wake_run (h : Sound k q) (e : ℕ) : Grown q.run (k.wake e) := by
  cases hq : q.ev e with
  | nil =>
    rw [h.links.wake_nil hq]
    exact h.links.run.grown
  | cons t l =>
    have hmem : t ∈ q.ev e := by
      rw [hq]
      exact List.mem_cons_self
    have hrun : t ∉ q.run := fun hr => (h.placed t).run_ev hr e hmem
    exact ⟨[t], (h.links.wake hq hrun).run⟩

theorem Sound.send_run (h : Sound k q) (e : ℕ) : Grown q.run (k.send e) :=
  (h.wake_run e).imp fun _ hm => hm.congr (fun _ _ => rfl) rfl rfl

theorem Sound.sends_run (fired : List ℕ) : ∀ {k : Sched} {q : Lists}, Sound k q →
    Grown q.run (fired.foldl Sched.send k) := by
  induction fired with
  | nil => exact fun h => h.links.run.grown
  | cons e l ih =>
    intro k q h
    obtain ⟨m, hm⟩ := h.send_run e
    obtain ⟨q₁, h₁, -⟩ := h.send e
    obtain ⟨m', hm'⟩ := ih h₁
    rw [h₁.links.run.unique hm, List.append_assoc] at hm'
    exact ⟨m ++ m', hm'⟩

/-- A report wakes a blocked thread, which joins at the end. -/
theorem Sound.report_run (h : Sound k q) (v : Side) (p : Ptr) : Grown q.run (k.report v p) := by
  unfold Sched.report
  cases htail : (k.ends v.waiters).tail with
  | none => exact (h.links.run.insert _ p).grown
  | some w =>
    have hw : w ∈ q.waiters v :=
      List.mem_of_head? ((h.links.waiters v).first_eq.symm.trans htail)
    have hst := ((h.placed w).waiters v hw).1
    exact h.readied (by simp [hst]) (by simp [hst])
      (h.links.run.congr (fun _ _ => rfl) rfl rfl)

theorem Sound.waitOn_run (h : Sound k q) (hst : (k.tcb t).state ≠ .queued)
    (hst' : (k.tcb t).state ≠ .waiting) (e : ℕ) : Grown q.run (k.waitOn t e) := by
  unfold Sched.waitOn
  split
  · exact h.readied hst hst' (h.links.run.congr (fun _ _ => rfl) rfl rfl)
  · have hpush : RunQ (evqueuePush k e t) q.run := by
      refine h.links.run.congr (fun p _ => ?_) ?_ ?_ <;> rw [evqueuePush_eq]
    exact RunQ.grown (RunQ.setState (hpush.congr (fun _ _ => rfl) rfl rfl) t .waiting)

end Grown

/-- **What one entry makes of the run queue**: threads join at the end, and only a `PAUSE` takes one
out. -/
theorem Effect.run {k k' : Sched} {a : Act} {q : Lists} (h : Effect k.image k a k')
    (hs : Sound k q) (hid : IdsOk k)
    (hen : k.active = some k.image ∨ (∃ n, a = .irq n) ∨ ∃ f, a = .tick f)
    (hok : BlockOk k k.image a) :
    Grown q.run k' ∨ ∃ p, a = .pause p ∧ Grown (q.run.erase p) k' := by
  have hcall : (∀ n, a ≠ .irq n) → (∀ f, a ≠ .tick f) → (k.tcb k.image).state = .running := by
    intro hi ht
    rcases hen with hact | ⟨n, hn⟩ | ⟨f, hf⟩
    · exact (hs.placed _).active hact
    · exact absurd hn (hi n)
    · exact absurd hf (ht f)
  have hrun := hs.links.run
  have hrel : RunQ k.release q.run := hrun.congr (fun _ _ => rfl) rfl rfl
  cases h with
  | other => exact Or.inl hrun.grown
  | spawn fresh slot bound => exact Or.inl ⟨_, (hs.links.spawned (hs.off_fresh fresh).1).run⟩
  | spawnFull fresh full =>
    exact Or.inl (hs.links.clear (hs.off_fresh fresh).1 Tcb.zero).run.grown
  | reap => exact Or.inl (hrun.congr (fun _ _ => rfl) rfl rfl : RunQ _ q.run).grown
  | yield =>
    have hc := hcall (by simp) (by simp)
    exact Or.inl (hs.readied (by simp [hc]) (by simp [hc]) hrel)
  | pauseRunning => exact Or.inl (hrel.setState _ _).grown
  | pauseQueued live state remv =>
    exact Or.inr ⟨_, rfl, ((hs.links.remv remv).run.setState _ _).grown⟩
  | pauseWaiting state remv =>
    rename_i t r k₁
    have hremv : RemvOk k t (k.tcb t).event.toNat := hok state
    set e := (k.tcb t).event.toNat with he
    -- the thread is the front waiter of its event, and the run queue is left alone
    have hrep := hs.links.ev.rep e
    rw [EvQ, hremv.1] at hrep
    obtain ⟨l, hl⟩ := hrep.toLoose.exists_cons
    have hmem : t ∈ q.ev e := by
      rw [hl]
      exact List.mem_cons_self
    obtain ⟨-, hev, i, hi⟩ := (hs.placed t).ev e hmem
    have heq := hs.links.ev.remv_eq (hid i t hi) ((hs.placed t).bound e hmem) hremv
    rw [hev, heq, Except.ok.injEq, Prod.mk.injEq] at remv
    rw [← remv.2]
    exact Or.inl ((hs.links.evPop hl).run.setState t .pausedw).grown
  | resume live state =>
    exact Or.inl (hs.readied (by simp [state]) (by simp [state]) hrun)
  | rewait live state =>
    exact Or.inl ((hs.waitOn_run (by simp [state]) (by simp [state]) _).setState _ _)
  | rewaitBad => exact Or.inl (hrun.setState _ _).grown
  | kill live state =>
    rename_i t
    unfold Sched.kill
    split
    · rename_i hr
      have hpause : Sound (k.release.setState t .paused) q :=
        hs.release.setState (hs.off_running hr) (by simp [Sched.release]) (by decide)
      exact Or.inl (hpause.report_run .dead t)
    · exact Or.inl (hs.report_run .dead t)
  | request =>
    rename_i v
    unfold Sched.request
    cases (k.ends v.items).tail with
    | none => exact Or.inl ((hrel.setState k.image .paused).insert _ _).grown
    | some d => exact Or.inl (hrun.congr (fun _ _ => rfl) rfl rfl : RunQ _ q.run).grown
  | wait live bound =>
    have hc := hcall (by simp) (by simp)
    obtain ⟨i, hi⟩ := (hs.placed _).live hc
    rw [hid i _ hi, Option.some.injEq] at live
    rw [← live]
    exact Or.inl (hs.waitOn_run (by simp [hc]) (by simp [hc]) _)
  | reset => exact Or.inl (hrun.congr (fun _ _ => rfl) rfl rfl : RunQ _ q.run).grown
  | fault =>
    have hc := hcall (by simp) (by simp)
    have hpause : Sound (k.release.setState k.image .paused) q :=
      hs.release.setState (hs.off_running hc) (by simp [Sched.release]) (by decide)
    exact Or.inl (hpause.report_run .fault _)
  | irq => exact Or.inl (hs.send_run _)
  | tick =>
    rename_i fired _ _
    obtain ⟨m, hm⟩ := hs.sends_run fired
    obtain ⟨q', h', -⟩ := hs.sends fired
    unfold Sched.tick
    dsimp only
    split
    · rename_i hr
      obtain ⟨m', hm'⟩ := h'.readied (t := k.image) (by simp [hr]) (by simp [hr])
        (h'.links.run.congr (fun _ _ => rfl) rfl rfl : RunQ (Sched.release _) q'.run)
      rw [h'.links.run.unique hm, List.append_assoc] at hm'
      exact Or.inl ⟨m ++ m', hm'⟩
    · exact Or.inl ⟨m, hm⟩

/-! ### Those in front -/

/-- The run queue holds `x` in front of `t`. -/
def Ahead (k : Sched) (t : Ptr) (x : List Ptr) : Prop := ∃ r, RunQ k (x ++ t :: r)

theorem Grown.ahead {k : Sched} {t : Ptr} {x r : List Ptr} (h : Grown (x ++ t :: r) k) :
    Ahead k t x := by
  obtain ⟨m, hm⟩ := h
  exact ⟨r ++ m, by rw [List.append_assoc] at hm; exact hm⟩

/-- No entry puts a thread in front of another. -/
theorem Effect.ahead {k k' : Sched} {a : Act} {q : Lists} {t : Ptr} {x : List Ptr}
    (h : Effect k.image k a k') (hs : Sound k q) (hid : IdsOk k)
    (hen : k.active = some k.image ∨ (∃ n, a = .irq n) ∨ ∃ f, a = .tick f)
    (hok : BlockOk k k.image a) (ht : Ahead k t x) (hpause : a ≠ .pause t) :
    ∃ x', Ahead k' t x' ∧ x'.Sublist x := by
  obtain ⟨r, hr⟩ := ht
  have hq : q.run = x ++ t :: r := hs.links.run.unique hr
  rcases h.run hs hid hen hok with hgrown | ⟨p, rfl, hgrown⟩
  · rw [hq] at hgrown
    exact ⟨x, hgrown.ahead, List.Sublist.refl x⟩
  · -- the thread that is paused was in front of `t`, or behind it
    have hpt : t ≠ p := fun hp => hpause (by rw [hp])
    rw [hq] at hgrown
    by_cases hp : p ∈ x
    · rw [List.erase_append_left _ hp] at hgrown
      exact ⟨x.erase p, hgrown.ahead, List.erase_sublist⟩
    · rw [List.erase_append_right _ hp, List.erase_cons_tail (by simpa using hpt)] at hgrown
      exact ⟨x, hgrown.ahead, List.Sublist.refl x⟩

/-- The scheduler takes `t`, or the first of those in front of it. -/
theorem Picks.ahead {k k' : Sched} {o : Option Ptr} {t : Ptr} {x : List Ptr} (h : Picks k o k')
    (ht : Ahead k t x) : k'.active = some t ∨ ∃ x', Ahead k' t x' ∧ x'.Sublist x ∧
      (k.active = none → x'.length < x.length) := by
  obtain ⟨r, hr⟩ := ht
  cases h with
  | same active => exact Or.inr ⟨x, ⟨r, hr⟩, List.Sublist.refl x, fun hn => by simp [active] at hn⟩
  | idle active empty =>
    have hhead := hr.first_eq
    rw [empty] at hhead
    cases x <;> cases hhead
  | next active head remv =>
    rename_i p n k₁
    have hhead : some p = (x ++ t :: r).head? := head.symm.trans hr.first_eq
    cases x with
    | nil =>
      obtain rfl : p = t := Option.some.inj hhead
      exact Or.inl rfl
    | cons a x =>
      obtain rfl : p = a := Option.some.inj hhead
      obtain ⟨k₂, hk, hrun⟩ := hr.remv List.mem_cons_self
      rw [hk, Except.ok.injEq, Prod.mk.injEq] at remv
      rw [List.cons_append, List.erase_cons_head, remv.2] at hrun
      have hrun' : RunQ { k₁ with active := some p } (x ++ t :: r) :=
        hrun.congr (fun _ _ => rfl) rfl rfl
      exact Or.inr ⟨x, ⟨r, hrun'.setState p .running⟩, List.sublist_cons_self p x,
        fun _ => Nat.lt_succ_self _⟩

/-- The handler leaves the processor to the scheduler. -/
def Input.Dispatches (s : Kernel) (i : Input) : Prop :=
  ∃ s₁ info, handled s i = .ok (s₁, info) ∧ s₁.active = none

section Step

variable {s s' : Kernel} {i : Input} {t : Ptr} {x : List Ptr}

/-- **One entry**: those in front of a queued thread are some of those that were, and one less if
the processor changes hands. -/
theorem next_ahead (h : KernelReach StepBlockOk s) (ht : Ahead s.toSched t x)
    (hen : i.Enabled s.toSched) (hok : StepBlockOk s i) (hpause : i.act s ≠ .pause t)
    (hs : s.next i = .ok s') : s'.active = some t ∨ ∃ x', Ahead s'.toSched t x' ∧ x'.Sublist x ∧
      (i.Dispatches s → x'.length < x.length) := by
  have hw := h.tableWf
  obtain ⟨q, hq⟩ := h.sound
  obtain ⟨⟨o, s₁, info⟩, hx, rfl⟩ := map_eq_ok.mp hs
  obtain ⟨s₂, h₂, h₁⟩ := step_cases hx
  obtain ⟨heff, hw₂⟩ := handled_effect hw h₂
  obtain ⟨x₂, ht₂, hsub₂⟩ := heff.ahead hq hw.idsOk (Input.enabled_cases hen) hok ht hpause
  rcases (schedule_picks hw₂ h₁).1.ahead ht₂ with hact | ⟨x₁, ht₁, hsub₁, hless⟩
  · exact Or.inl hact
  · refine Or.inr ⟨x₁, ht₁, hsub₁.trans hsub₂, ?_⟩
    rintro ⟨s₃, info₃, h₃, hnone⟩
    rw [h₂, Except.ok.injEq, Prod.mk.injEq] at h₃
    exact (hless (by rw [h₃.1]; exact hnone)).trans_le hsub₂.length_le

/-- **Every timer interrupt** takes the processor from the thread that has it. -/
theorem tick_dispatches (h : KernelReach StepBlockOk s) (r : UserRegs) (env : Env) :
    Input.Dispatches s (.irq 0 r env) := by
  obtain ⟨q, hq⟩ := h.sound
  have hok := handled_tick s (n := 0) rfl r env
  refine ⟨_, _, hok, ?_⟩
  have heff := (handled_effect h.tableWf hok).1
  have hact : Input.act s (.irq 0 r env) =
      .tick ((timersFired (s.tick + 1) s.pitFreq).map evVtimer) := rfl
  rw [hact] at heff
  set fired := (timersFired (s.tick + 1) s.pitFreq).map evVtimer
  generalize (timerHandler (irqReset (trap s (.irq 0 r env)) 0) s.image).toSched = k at heff
  cases heff with
  | tick =>
    unfold Sched.tick
    dsimp only
    split
    · rw [makeReady_active]
      rfl
    · -- the interrupted thread still runs after the events, so there was none
      rename_i hstate
      cases ha : s.active with
      | none => exact (hq.sends_active fired).trans ha
      | some c =>
        have himage : s.image = c := by rw [Sched.image, ha, Option.getD_some]
        have hrun := (hq.placed c).active ha
        have hsame := hq.sends_same (t := c) fired (by rw [hrun]; decide)
        rw [himage] at hstate
        exact absurd (hsame.1.trans hrun) hstate

end Step

/-! ### How long a thread can wait -/

/-- From `s₀` the processor changed hands `n` times; no entry paused `t`, and `t` never got it. -/
inductive Delayed (t : Ptr) (s₀ : Kernel) : ℕ → Kernel → Prop
  | start : Delayed t s₀ 0 s₀
  | dispatch {s s' : Kernel} {i : Input} {n : ℕ} : Delayed t s₀ n s → i.Enabled s.toSched →
      StepBlockOk s i → i.act s ≠ .pause t → i.Dispatches s → s.next i = .ok s' →
      s'.active ≠ some t → Delayed t s₀ (n + 1) s'
  | stay {s s' : Kernel} {i : Input} {n : ℕ} : Delayed t s₀ n s → i.Enabled s.toSched →
      StepBlockOk s i → i.act s ≠ .pause t → ¬i.Dispatches s → s.next i = .ok s' →
      s'.active ≠ some t → Delayed t s₀ n s'

section Runs

variable {s₀ s : Kernel} {t : Ptr} {x : List Ptr} {n : ℕ}

theorem Delayed.reach (hd : Delayed t s₀ n s) (h : KernelReach StepBlockOk s₀) :
    KernelReach StepBlockOk s := by
  induction hd with
  | start => exact h
  | dispatch _ hen hok _ _ hs _ ih => exact .next ih ⟨hen, hok⟩ hs
  | stay _ hen hok _ _ hs _ ih => exact .next ih ⟨hen, hok⟩ hs

/-- The threads of the run queue are in the table. -/
theorem run_lt (h : KernelReach StepBlockOk s) {l : List Ptr} (hl : RunQ s.toSched l) :
    l.length ≤ THREAD_COUNT := by
  obtain ⟨q, hq⟩ := h.sound
  have hids : (l.map fun p => (s.tcb p).id).Nodup := by
    refine List.Nodup.map_on (fun p hp p' hp' he => ?_) hl.nodup
    rw [← hq.links.run.unique hl] at hp hp'
    obtain ⟨-, j, hj⟩ := (hq.placed p).run hp
    obtain ⟨-, j', hj'⟩ := (hq.placed p').run hp'
    rw [h.tableWf.id_eq j p hj, h.tableWf.id_eq j' p' hj', Int.natCast_inj] at he
    rw [he, hj'] at hj
    exact (Option.some.inj hj).symm
  have hsub : (l.map fun p => (s.tcb p).id) ⊆ (List.range THREAD_COUNT).map (Nat.cast : ℕ → ℤ) := by
    intro e he
    obtain ⟨p, hp, rfl⟩ := List.mem_map.mp he
    rw [← hq.links.run.unique hl] at hp
    obtain ⟨-, j, hj⟩ := (hq.placed p).run hp
    refine List.mem_map.mpr ⟨j, List.mem_range.mpr (h.tableWf.bound j p hj), ?_⟩
    exact (h.tableWf.id_eq j p hj).symm
  have hlen := (List.subperm_of_subset hids hsub).length_le
  rwa [List.length_map, List.length_map, List.length_range] at hlen

/-- **A queued thread is not overtaken, and runs in time.**  As long as no `PAUSE` names it, those
in front of it are some of those that were there at the start, in their order; the processor changes
hands at most as often as there were threads in front of it, fewer than `THREAD_COUNT`, before it is
its turn; and every tick of the timer lets it change hands. -/
theorem queued_runs (h : KernelReach StepBlockOk s₀) (ht : Ahead s₀.toSched t x)
    (hd : Delayed t s₀ n s) :
    (∃ x', Ahead s.toSched t x' ∧ x'.Sublist x ∧ n + x'.length ≤ x.length) ∧
      x.length < THREAD_COUNT ∧ ∀ r env, Input.Dispatches s (.irq 0 r env) := by
  refine ⟨?_, ?_, fun r env => tick_dispatches (hd.reach h) r env⟩
  · induction hd with
    | start => exact ⟨x, ht, List.Sublist.refl x, by omega⟩
    | dispatch hd hen hok hpause hdisp hs hne ih =>
      obtain ⟨x', ht', hsub, hlen⟩ := ih
      obtain ⟨x'', ht'', hsub', hless⟩ :=
        (next_ahead (hd.reach h) ht' hen hok hpause hs).resolve_left hne
      have hdrop := hless hdisp
      exact ⟨x'', ht'', hsub'.trans hsub, by omega⟩
    | stay hd hen hok hpause _ hs hne ih =>
      obtain ⟨x', ht', hsub, hlen⟩ := ih
      obtain ⟨x'', ht'', hsub', -⟩ :=
        (next_ahead (hd.reach h) ht' hen hok hpause hs).resolve_left hne
      have hle := hsub'.length_le
      exact ⟨x'', ht'', hsub'.trans hsub, by omega⟩
  · obtain ⟨r, hr⟩ := ht
    have hle := run_lt h hr
    rw [List.length_append, List.length_cons] at hle
    omega

end Runs

/-- Thread 0 spawns two threads and is preempted: the first one runs, the second one has waited for
one change of hands. -/
theorem queued_runs_second : ∃ s₀ s t a, KernelReach StepBlockOk s₀ ∧ Ahead s₀.toSched t [a] ∧
    Delayed t s₀ 1 s ∧ s.active = some a ∧ ∃ x', Ahead s.toSched t x' ∧ 1 + x'.length ≤ 1 := by
  obtain ⟨s₀, hs₀, hf⟩ := exists_bootRun StepBlockOk [callOf 0x02 0, callOf 0x02 0]
    (fun s => decide ((follow (fun p => (s.tcb p).next) 3 s.schedHead).length = 2) &&
      (s.next (irqOf 0)).toOption.any fun s' : Kernel =>
        decide (s'.active = (follow (fun p => (s.tcb p).next) 3 s.schedHead).head?))
    (by decide +kernel)
  obtain ⟨q, hq⟩ := hs₀.sound
  have hrun := hq.links.run
  have htake := hrun.follow_eq 3
  rw [Bool.and_eq_true, decide_eq_true_eq, Option.any_eq_true] at hf
  obtain ⟨htwo, s, hs, hhead⟩ := hf
  obtain ⟨a, t, hfollow⟩ := List.length_eq_two.mp htwo
  rw [hfollow] at htake hhead
  have hnext : s₀.next (irqOf 0) = .ok s := toOption_eq_some.mp hs
  have hact : s.active = some a := of_decide_eq_true hhead
  have hlist : q.run = [a, t] := by
    have hlen : (q.run.take 3).length = 2 := by rw [← htake]; rfl
    rw [List.length_take] at hlen
    rw [List.take_of_length_le (by omega)] at htake
    exact htake.symm
  have hat : a ≠ t := by
    have hnodup := hrun.nodup
    rw [hlist, List.nodup_cons] at hnodup
    exact fun he => hnodup.1 (List.mem_singleton.mpr he)
  rw [hlist] at hrun
  have hahead : Ahead s₀.toSched t [a] := ⟨[], hrun⟩
  have hdelay : Delayed t s₀ 1 s := by
    refine .dispatch (i := irqOf 0) .start trivial trivial (by rintro ⟨⟩)
      (tick_dispatches hs₀ _ _) hnext ?_
    rw [hact]
    exact fun he => hat (Option.some.inj he)
  obtain ⟨x', hx', -, hlen⟩ := (queued_runs hs₀ hahead hdelay).1
  exact ⟨s₀, s, t, a, hs₀, hahead, hdelay, hact, x', hx', hlen⟩

end Pinion
