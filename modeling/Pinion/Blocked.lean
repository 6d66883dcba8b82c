/-
Threads blocked in `GETDEAD` and `GETFAULT`.

A thread that blocks there is in state `TS_PAUSED`, as any paused thread, and
linked on the reaper or the debug queue.  `Sound k q` says that the queues hold
the lists of `q` and that the state of a thread fits the list it is on; threads
on no list may be in any state, so that what `RESUME` drops is tolerated.

* `PlacedAt`, `Sound` — the invariant;
* `BlockOk` — the actions that keep it: `RESUME` and `REAP` leave blocked threads
  alone, `PAUSE` takes a waiting thread off the front of its queue by equal links,
  and a thread enters an empty wait queue with a null link;
* `Effect.sound`, `Picks.sound` — the step lemmas;
* `blocked_threads_apart` — along every run of such actions, a blocked thread is
  paused and on no other queue, and the run queue is a duplicate-free list.
-/
import Pinion.Places
import Pinion.Active

open LinkedQueue Runs

namespace Pinion

/-- The thread is in the table. -/
def Live (k : Sched) (p : Ptr) : Prop := ∃ i, k.table i = some p

/-- The state of `p` fits the lists it is on. -/
structure PlacedAt (k : Sched) (q : Lists) (p : Ptr) : Prop where
  run : p ∈ q.run → ((k.tcb p).state = .queued ∨ (k.tcb p).state = .waiting) ∧ Live k p
  ev : ∀ e, p ∈ q.ev e → (k.tcb p).state = .waiting ∧ (k.tcb p).event = e ∧ Live k p
  waiters : ∀ v, p ∈ q.waiters v → (k.tcb p).state = .paused ∧ Live k p
  run_ev : p ∈ q.run → ∀ e, p ∉ q.ev e
  apart : p ∈ q.waiters .dead → p ∉ q.waiters .fault
  active : k.active = some p → (k.tcb p).state = .running
  live : (k.tcb p).state = .running → Live k p
  bound : ∀ e, p ∈ q.ev e → e < EV_COUNT

structure Sound (k : Sched) (q : Lists) : Prop where
  links : Links k q
  placed : ∀ p, PlacedAt k q p

/-- A thread whose state, event and lists do not change stays where it is. -/
theorem PlacedAt.frame {k k' : Sched} {q q' : Lists} {p : Ptr} (h : PlacedAt k q p)
    (hst : (k'.tcb p).state = (k.tcb p).state) (hev : (k'.tcb p).event = (k.tcb p).event)
    (hlive : Live k p → Live k' p) (hact : k'.active = some p → k.active = some p)
    (hrun : p ∈ q'.run → p ∈ q.run) (hevs : ∀ e, p ∈ q'.ev e → p ∈ q.ev e)
    (hw : ∀ v, p ∈ q'.waiters v → p ∈ q.waiters v) : PlacedAt k' q' p := by
  constructor
  · intro hp
    rw [hst]
    exact ⟨(h.run (hrun hp)).1, hlive (h.run (hrun hp)).2⟩
  · intro e hp
    rw [hst, hev]
    obtain ⟨h₁, h₂, h₃⟩ := h.ev e (hevs e hp)
    exact ⟨h₁, h₂, hlive h₃⟩
  · intro v hp
    rw [hst]
    exact ⟨(h.waiters v (hw v hp)).1, hlive (h.waiters v (hw v hp)).2⟩
  · intro hp e he
    exact h.run_ev (hrun hp) e (hevs e he)
  · intro hp hp'
    exact h.apart (hw _ hp) (hw _ hp')
  · intro ha
    rw [hst]
    exact h.active (hact ha)
  · intro hr
    rw [hst] at hr
    exact hlive (h.live hr)
  · intro e he
    exact h.bound e (hevs e he)

/-- A thread on no list. -/
theorem PlacedAt.off {k : Sched} {q : Lists} {p : Ptr} (h : q.Off p)
    (hact : k.active = some p → (k.tcb p).state = .running)
    (hlive : (k.tcb p).state = .running → Live k p) : PlacedAt k q p :=
  ⟨fun hp => absurd hp h.run, fun e hp => absurd hp (h.ev e), fun v hp => absurd hp (h.waiters v),
    fun hp => absurd hp h.run, fun hp => absurd hp (h.waiters _), hact, hlive,
    fun e hp => absurd hp (h.ev e)⟩

/-! ### Where a thread can be, by its state -/

/-- A thread that is neither queued nor waiting is on no list, unless it is paused
and blocked. -/
theorem Sound.off {k : Sched} {q : Lists} {p : Ptr} (h : Sound k q)
    (hq : (k.tcb p).state ≠ .queued) (hw : (k.tcb p).state ≠ .waiting)
    (hb : (k.tcb p).state = .paused → ∀ v, p ∉ q.waiters v) : q.Off p := by
  constructor
  · intro hr
    rcases ((h.placed p).run hr).1 with hst | hst
    · exact hq hst
    · exact hw hst
  · intro e he
    exact hw ((h.placed p).ev e he).1
  · intro v hv
    exact hb ((h.placed p).waiters v hv).1 v hv

theorem Sound.off_running {k : Sched} {q : Lists} {p : Ptr} (h : Sound k q)
    (hp : (k.tcb p).state = .running) : q.Off p :=
  h.off (by simp [hp]) (by simp [hp]) (by simp [hp])

theorem Sound.not_active {k : Sched} {q : Lists} {p : Ptr} (h : Sound k q)
    (hp : (k.tcb p).state ≠ .running) : k.active ≠ some p :=
  fun ha => hp ((h.placed p).active ha)

/-! ### One thread moves -/

/-- What an operation on thread `t` leaves alone of the others. -/
structure Others (k k' : Sched) (q q' : Lists) (t : Ptr) : Prop where
  state : ∀ p, p ≠ t → (k'.tcb p).state = (k.tcb p).state
  event : ∀ p, p ≠ t → (k'.tcb p).event = (k.tcb p).event
  table : k'.table = k.table
  active : ∀ p, p ≠ t → k'.active = some p → k.active = some p
  run : ∀ p, p ≠ t → p ∈ q'.run → p ∈ q.run
  ev : ∀ p, p ≠ t → ∀ e, p ∈ q'.ev e → p ∈ q.ev e
  waiters : ∀ p, p ≠ t → ∀ v, p ∈ q'.waiters v → p ∈ q.waiters v

theorem Sound.move {k k' : Sched} {q q' : Lists} {t : Ptr} (h : Sound k q) (hl : Links k' q')
    (ho : Others k k' q q' t) (ht : PlacedAt k' q' t) : Sound k' q' := by
  refine ⟨hl, ?_⟩
  intro p
  by_cases hp : p = t
  · rw [hp]
    exact ht
  · have hlive : Live k p → Live k' p := by
      rintro ⟨i, hi⟩
      exact ⟨i, by rw [ho.table]; exact hi⟩
    exact (h.placed p).frame (ho.state p hp) (ho.event p hp) hlive (ho.active p hp) (ho.run p hp)
      (ho.ev p hp) (ho.waiters p hp)

theorem Sound.congr {k k' : Sched} {q : Lists} (h : Sound k q) (hl : Links k' q)
    (hst : ∀ p, (k'.tcb p).state = (k.tcb p).state)
    (hev : ∀ p, (k'.tcb p).event = (k.tcb p).event) (htab : k'.table = k.table)
    (hact : ∀ p, k'.active = some p → k.active = some p) : Sound k' q := by
  refine ⟨hl, ?_⟩
  intro p
  have hlive : Live k p → Live k' p := by
    rintro ⟨i, hi⟩
    exact ⟨i, by rw [htab]; exact hi⟩
  exact (h.placed p).frame (hst p) (hev p) hlive (hact p) id (fun _ => id) fun _ => id

theorem setState_event (k : Sched) (t p : Ptr) (st : TState) :
    ((k.setState t st).tcb p).event = (k.tcb p).event := by
  by_cases hp : p = t
  · subst hp; simp [Sched.setState, Sched.upd]
  · simp [Sched.setState, Sched.upd, hp]

theorem Sound.release {k : Sched} {q : Lists} (h : Sound k q) : Sound k.release q :=
  h.congr (h.links.congr (SameLinks.release k)) (fun _ => rfl) (fun _ => rfl) rfl
    fun _ ha => absurd ha (by simp [Sched.release])

/-- A thread that is on no list and not active changes its state. -/
theorem Sound.setState {k : Sched} {q : Lists} {t : Ptr} {st : TState} (h : Sound k q)
    (ht : q.Off t) (ha : k.active ≠ some t) (hst : st ≠ .running) : Sound (k.setState t st) q := by
  refine h.move (t := t) (h.links.congr (SameLinks.setState k t st)) ?_ ?_
  · refine ⟨fun p hp => ?_, fun p _ => setState_event k t p st, rfl, fun _ _ => id,
      fun _ _ => id, fun _ _ _ => id, fun _ _ _ => id⟩
    rw [setState_state, if_neg hp]
  · refine PlacedAt.off ht (fun hact => absurd hact ha) fun hr => ?_
    rw [setState_state, if_pos rfl] at hr
    exact absurd hr hst

/-- A live thread that is on no list and not active is made ready. -/
theorem Sound.makeReady {k : Sched} {q : Lists} {t : Ptr} (h : Sound k q) (ht : q.Off t)
    (ha : k.active ≠ some t) (hlive : Live k t) :
    Sound (makeReady k t) { q with run := q.run ++ [t] } := by
  have hst : ((Pinion.makeReady k t).tcb t).state = .queued := by
    rw [makeReady_state, if_pos rfl]
  have hlive' : Live (Pinion.makeReady k t) t := by
    obtain ⟨i, hi⟩ := hlive
    exact ⟨i, by rw [makeReady_eq]; exact hi⟩
  refine h.move (t := t) (h.links.makeReady ht.run) ?_ ?_
  · refine ⟨fun p hp => ?_, fun p _ => ?_, ?_, fun p _ hact => ?_, fun p hp hmem => ?_,
      fun _ _ _ => id, fun _ _ _ => id⟩
    · rw [makeReady_state, if_neg hp]
    · rw [makeReady_eq]
    · rw [makeReady_eq]
    · rwa [makeReady_active] at hact
    · rcases List.mem_append.mp hmem with hmem | hmem
      · exact hmem
      · exact absurd (List.mem_singleton.mp hmem) hp
  · refine ⟨fun _ => ⟨Or.inl hst, hlive'⟩, fun e he => absurd he (ht.ev e),
      fun v hv => absurd hv (ht.waiters v), fun _ => ht.ev, fun hv => absurd hv (ht.waiters _),
      fun hact => ?_, fun _ => hlive', fun e he => absurd he (ht.ev e)⟩
    rw [makeReady_active] at hact
    exact absurd hact ha

/-! ### Waiting and waking -/

/-- A live thread that is on no list waits on an event: it is on the run queue if
the event is latched, on the queue of the event otherwise, and nobody is
active. -/
theorem Sound.waitOn {k : Sched} {q : Lists} {t : Ptr} {e : ℕ} (h : Sound k q) (ht : q.Off t)
    (hlive : Live k t) (hb : e < EV_COUNT) :
    ∃ q', Sound (k.waitOn t e) q' ∧ (k.waitOn t e).active = none ∧
      (t ∈ q'.run ∨ ((k.waitOn t e).tcb t).state = .waiting) ∧ q'.waiters = q.waiters := by
  unfold Sched.waitOn
  split
  · refine ⟨_, h.release.makeReady ht (by simp [Sched.release]) hlive, ?_, Or.inl (by simp), rfl⟩
    rw [makeReady_active]
    rfl
  · set k₁ := evqueuePush k e t with hk₁
    have hst : ∀ p, (k₁.tcb p).state = (k.tcb p).state := by
      intro p
      rw [hk₁, evqueuePush_eq]
    have hev : ∀ p, (k₁.tcb p).event = if p = t then (e : ℤ) else (k.tcb p).event := by
      intro p
      rw [hk₁, evqueuePush_eq]
    have htab : k₁.table = k.table := by rw [hk₁, evqueuePush_eq]
    have hwait : ((k₁.release.setState t .waiting).tcb t).state = .waiting := by
      rw [setState_state, if_pos rfl]
    have hlive' : Live (k₁.release.setState t .waiting) t := by
      obtain ⟨i, hi⟩ := hlive
      exact ⟨i, by rw [← hi, ← htab]; rfl⟩
    refine ⟨{ q with ev := Function.update q.ev e (q.ev e ++ [t]) }, ?_, rfl, Or.inr hwait, rfl⟩
    have hlinks := ((h.links.evPush e ht.ev).congr (SameLinks.release k₁)).congr
      (SameLinks.setState k₁.release t .waiting)
    refine h.move (t := t) hlinks ?_ ?_
    · refine ⟨fun p hp => ?_, fun p hp => ?_, htab, fun p _ hact => ?_, fun _ _ => id,
        fun p hp e' hmem => ?_, fun _ _ _ => id⟩
      · rw [setState_state, if_neg hp]
        exact hst p
      · rw [setState_event]
        exact (hev p).trans (if_neg hp)
      · exact absurd hact (by simp [Sched.release, Sched.setState, Sched.upd])
      · by_cases he : e' = e
        · subst he
          simp only [Function.update_self, List.mem_append, List.mem_singleton] at hmem
          exact hmem.resolve_right hp
        · simpa only [Function.update_of_ne he] using hmem
    · -- the thread is on the queue of `e` only
      have hee : ∀ e', t ∈ Function.update q.ev e (q.ev e ++ [t]) e' → e' = e := by
        intro e' he
        by_contra hne
        rw [Function.update_of_ne hne] at he
        exact ht.ev e' he
      refine ⟨fun hr => absurd hr ht.run, fun e' he => ?_, fun v hv => absurd hv (ht.waiters v),
        fun hr => absurd hr ht.run, fun hv => absurd hv (ht.waiters _), fun hact => ?_,
        fun _ => hlive', fun e' he => hee e' he ▸ hb⟩
      · refine ⟨hwait, ?_, hlive'⟩
        rw [setState_event, hee e' he]
        exact (hev t).trans (if_pos rfl)
      · exact absurd hact (by simp [Sched.release, Sched.setState, Sched.upd])

/-- A thread of the run queue, or one that waits already, is marked waiting. -/
theorem Sound.setWaiting {k : Sched} {q : Lists} {t : Ptr} (h : Sound k q)
    (ht : t ∈ q.run ∨ (k.tcb t).state = .waiting) : Sound (k.setState t .waiting) q := by
  have hwait : ((k.setState t .waiting).tcb t).state = .waiting := by
    rw [setState_state, if_pos rfl]
  refine h.move (t := t) (h.links.congr (SameLinks.setState k t _)) ?_ ?_
  · refine ⟨fun p hp => ?_, fun p _ => setState_event k t p _, rfl, fun _ _ => id,
      fun _ _ => id, fun _ _ _ => id, fun _ _ _ => id⟩
    rw [setState_state, if_neg hp]
  · have hplaced := h.placed t
    have hwas : (k.tcb t).state = .queued ∨ (k.tcb t).state = .waiting := by
      rcases ht with ht | ht
      · exact (hplaced.run ht).1
      · exact Or.inr ht
    refine ⟨fun hr => ⟨Or.inr hwait, (hplaced.run hr).2⟩, fun e he => ?_, fun v hv => ?_,
      hplaced.run_ev, hplaced.apart, fun hact => ?_, fun hr => ?_, hplaced.bound⟩
    · obtain ⟨-, hev, hlive⟩ := hplaced.ev e he
      exact ⟨hwait, (setState_event k t t _).trans hev, hlive⟩
    · have hpaused := (hplaced.waiters v hv).1
      rcases hwas with hst | hst <;> rw [hpaused] at hst <;> cases hst
    · have hrun := hplaced.active hact
      rcases hwas with hst | hst <;> rw [hrun] at hst <;> cases hst
    · rw [hwait] at hr
      cases hr

theorem Sound.wake {k : Sched} {q : Lists} (h : Sound k q) (e : ℕ) :
    ∃ q', Sound (k.wake e) q' ∧ q'.waiters = q.waiters := by
  cases hq : q.ev e with
  | nil =>
    refine ⟨q, ?_, rfl⟩
    rw [h.links.wake_nil hq]
    exact h
  | cons t l =>
    have hmem : t ∈ q.ev e := by rw [hq]; exact List.mem_cons_self
    obtain ⟨hst, hev, hlive⟩ := (h.placed t).ev e hmem
    have hrun : t ∉ q.run := fun hr => (h.placed t).run_ev hr e hmem
    have hf : (k.evqueue e).frontThread = some t := by
      rw [(h.links.ev.rep e).first_eq, hq]
      rfl
    have hnr : ¬(k.tcb t).state = .running := by simp [hst]
    have heq := wake_waiter hf hnr
    have hnd : t ∉ l := by
      have hnodup := (h.links.ev.rep e).nodup
      rw [hq] at hnodup
      exact (List.nodup_cons.mp hnodup).1
    have hsub : ∀ p e', p ∈ Function.update q.ev e l e' → p ∈ q.ev e' := by
      intro p e' hp
      by_cases he : e' = e
      · subst he
        rw [Function.update_self] at hp
        rw [hq]
        exact List.mem_cons_of_mem t hp
      · rwa [Function.update_of_ne he] at hp
    refine ⟨{ q with run := q.run ++ [t], ev := Function.update q.ev e l }, ?_, rfl⟩
    refine h.move (t := t) (h.links.wake hq hrun) ?_ ?_ <;> rw [heq]
    · refine ⟨fun p hp => ?_, fun p hp => ?_, ?_, fun p _ hact => ?_, fun p hp hmem => ?_,
        fun p _ e' => hsub p e', fun _ _ _ => id⟩
      · rw [makeReady_state, if_neg hp]
        simp [evqueuePop, Sched.setEvqueue, Sched.upd, hp]
      · rw [makeReady_eq]
        simp [evqueuePop, Sched.setEvqueue, Sched.upd, hp]
      · rw [makeReady_eq]
        rfl
      · rwa [makeReady_active] at hact
      · rcases List.mem_append.mp hmem with hmem | hmem
        · exact hmem
        · exact absurd (List.mem_singleton.mp hmem) hp
    · have hoff : ∀ e', t ∉ Function.update q.ev e l e' := by
        intro e' he'
        by_cases he : e' = e
        · subst he
          rw [Function.update_self] at he'
          exact hnd he'
        · rw [Function.update_of_ne he] at he'
          exact h.links.ev.disjoint e' e he t he' hmem
      have hoffw : ∀ v, t ∉ q.waiters v := by
        intro v hv
        have hpaused := ((h.placed t).waiters v hv).1
        rw [hst] at hpaused
        cases hpaused
      refine ⟨fun _ => ⟨Or.inl ?_, ?_⟩, fun e' he' => absurd he' (hoff e'),
        fun v hv => absurd hv (hoffw v), fun _ => hoff, fun hv => absurd hv (hoffw _),
        fun hact => ?_, fun _ => ?_, fun e' he' => absurd he' (hoff e')⟩
      · rw [makeReady_state, if_pos rfl]
      · obtain ⟨i, hi⟩ := hlive
        exact ⟨i, by rw [makeReady_eq]; exact hi⟩
      · rw [makeReady_active] at hact
        exact absurd hact (h.not_active hnr)
      · obtain ⟨i, hi⟩ := hlive
        exact ⟨i, by rw [makeReady_eq]; exact hi⟩

theorem Sound.send {k : Sched} {q : Lists} (h : Sound k q) (e : ℕ) :
    ∃ q', Sound (k.send e) q' ∧ q'.waiters = q.waiters := by
  obtain ⟨q', h', hw⟩ := h.wake e
  refine ⟨q', h'.congr (h'.links.congr ?_) (fun _ => rfl) (fun _ => rfl) rfl fun _ => id, hw⟩
  exact ⟨fun _ => rfl, fun _ => rfl, fun _ _ => rfl, rfl, rfl, rfl, rfl⟩

theorem Sound.sends (fired : List ℕ) : ∀ {k : Sched} {q : Lists}, Sound k q →
    ∃ q', Sound (fired.foldl Sched.send k) q' ∧ q'.waiters = q.waiters := by
  induction fired with
  | nil =>
    intro k q h
    exact ⟨q, h, rfl⟩
  | cons e l ih =>
    intro k q h
    obtain ⟨q₁, h₁, hw₁⟩ := h.send e
    obtain ⟨q', h', hw⟩ := ih h₁
    exact ⟨q', h', hw.trans hw₁⟩

/-! ### Reports and requests -/

/-- A report wakes the first waiter of its side, or queues the thread. -/
theorem Sound.report {k : Sched} {q : Lists} (h : Sound k q) (v : Side) (t : Ptr) :
    ∃ q', Sound (k.report v t) q' ∧ ∀ v' p, p ∈ q'.waiters v' → p ∈ q.waiters v' := by
  unfold Sched.report
  cases htail : (k.ends v.waiters).tail with
  | none =>
    have hnil : q.waiters v = [] := by
      have hrep := h.links.waiters v
      rw [StrictQ, htail] at hrep
      exact hrep.toLoose.eq_nil
    refine ⟨q, h.congr (h.links.insertItem hnil) (fun p => rdvInsert_state _ k t p) ?_ ?_ ?_,
      fun _ _ => id⟩ <;> rw [rdvInsert_eq]
    · intro p
      cases v <;> rfl
    · exact fun _ => id
  | some w =>
    have hrep := h.links.waiters v
    rw [StrictQ, htail] at hrep
    obtain ⟨ws, hws⟩ := hrep.toLoose.exists_cons
    have hw : w ∈ q.waiters v := by rw [hws]; exact List.mem_cons_self
    obtain ⟨hst, hlive⟩ := (h.placed w).waiters v hw
    have hsub : ∀ p v', p ∈ Function.update q.waiters v ws v' → p ∈ q.waiters v' := by
      intro p v' hp
      by_cases hv : v' = v
      · subst hv
        rw [Function.update_self] at hp
        rw [hws]
        exact List.mem_cons_of_mem w hp
      · rwa [Function.update_of_ne hv] at hp
    have hpop : Sound (rdvAdvance v.waiters k (v.waiters.link (k.tcb w)))
        { q with waiters := Function.update q.waiters v ws } := by
      refine ⟨h.links.popWaiter hws, ?_⟩
      intro p
      exact (h.placed p).frame rfl rfl id id id (fun _ => id) (hsub p)
    -- the woken thread was on this wait queue only, and once
    have hoff : Lists.Off { q with waiters := Function.update q.waiters v ws } w := by
      refine hpop.off (by simp [rdvAdvance, Sched.setEnds, hst])
        (by simp [rdvAdvance, Sched.setEnds, hst]) fun _ v' hv' => ?_
      by_cases hv : v' = v
      · subst hv
        simp only [Function.update_self] at hv'
        have hnodup := hrep.nodup
        rw [hws] at hnodup
        exact (List.nodup_cons.mp hnodup).1 hv'
      · have hw' := hsub w v' hv'
        have hap := (h.placed w).apart
        cases v <;> cases v' <;> first | exact hv rfl | exact hap hw hw' | exact hap hw' hw
    refine ⟨_, hpop.makeReady hoff ?_ hlive, fun v' p => hsub p v'⟩
    exact h.not_active (by simp [hst])

/-- A request takes an item, or blocks a caller that runs. -/
theorem Sound.request {k : Sched} {q : Lists} {c : Ptr} (h : Sound k q) (v : Side)
    (hc : (k.tcb c).state = .running)
    (hl : (k.ends v.items).tail = none → (k.ends v.waiters).tail = none →
      v.waiters.link (k.tcb c) = none) :
    ∃ q', Sound (k.request v c) q' ∧ ∀ v' p, p ∈ q'.waiters v' → p ∈ q.waiters v' ∨ p = c := by
  unfold Sched.request
  cases htail : (k.ends v.items).tail with
  | some d =>
    exact ⟨q, h.congr (h.links.advanceItem v _) (fun _ => rfl) (fun _ => rfl) rfl fun _ => id,
      fun _ _ => Or.inl⟩
  | none =>
    have hoff := h.off_running hc
    have hlive := (h.placed c).live hc
    have hrel : Sound (k.release.setState c .paused) q :=
      h.release.setState hoff (by simp [Sched.release]) (by decide)
    have hlink : (Sched.ends (k.release.setState c .paused) v.waiters).tail = none →
        v.waiters.link ((k.release.setState c .paused).tcb c) = none := by
      intro ht
      rw [(SameLinks.setState k.release c .paused).link]
      exact hl htail ht
    set k₁ := k.release.setState c .paused with hk₁
    have hst : (k₁.tcb c).state = .paused := by rw [hk₁, setState_state, if_pos rfl]
    have hst' : ∀ p, ((rdvInsert v.waiters k₁ c).tcb p).state = (k₁.tcb p).state :=
      rdvInsert_state v.waiters k₁ c
    have hnone : (rdvInsert v.waiters k₁ c).active = none := rdvInsert_active v.waiters k₁ c
    have hnew : ∀ v' p, p ∈ Function.update q.waiters v (q.waiters v ++ [c]) v' →
        p ∈ q.waiters v' ∨ p = c := by
      intro v' p hmem
      by_cases hv : v' = v
      · subst hv
        simpa only [Function.update_self, List.mem_append, List.mem_singleton] using hmem
      · rw [Function.update_of_ne hv] at hmem
        exact Or.inl hmem
    refine ⟨{ q with waiters := Function.update q.waiters v (q.waiters v ++ [c]) }, ?_, hnew⟩
    refine hrel.move (t := c) (hrel.links.insertWaiter (hoff.waiters v) hlink) ?_ ?_
    · refine ⟨fun p _ => hst' p, fun p _ => ?_, ?_, fun p _ hact => ?_, fun _ _ => id,
        fun _ _ _ => id, fun p hp v' hmem => (hnew v' p hmem).resolve_right hp⟩
      · rw [rdvInsert_eq]
        cases v <;> rfl
      · rw [rdvInsert_eq]
      · rw [hnone] at hact
        cases hact
    · have hlive' : Live (rdvInsert v.waiters k₁ c) c := by
        obtain ⟨i, hi⟩ := hlive
        exact ⟨i, by rw [rdvInsert_eq]; exact hi⟩
      refine ⟨fun hr => absurd hr hoff.run, fun e he => absurd he (hoff.ev e), fun v' _ => ?_,
        fun hr => absurd hr hoff.run, fun hd hf => ?_, fun hact => ?_, fun _ => hlive',
        fun e he => absurd he (hoff.ev e)⟩
      · exact ⟨(hst' c).trans hst, hlive'⟩
      · cases v with
        | dead =>
          simp only [Function.update_of_ne (show Side.fault ≠ Side.dead by decide)] at hf
          exact hoff.waiters .fault hf
        | fault =>
          simp only [Function.update_of_ne (show Side.dead ≠ Side.fault by decide)] at hd
          exact hoff.waiters .dead hd
      · rw [hnone] at hact
        cases hact

/-! ### The allowed actions -/

/-- A walk along a queue of the kernel meets the thread. -/
def Linked (k : Sched) (q : Rdv) (t : Ptr) : Bool :=
  walk (fun p => q.link (k.tcb p)) t addressSpace (k.ends q).tail

theorem StrictQ.linked_iff {k : Sched} {q : Rdv} {l : List Ptr} {t : Ptr} (h : StrictQ k q l) :
    Linked k q t = true ↔ t ∈ l :=
  Rep.walk_iff h (nodup_length_le h.nodup)

/-- The actions that keep blocked threads where they are. -/
def BlockOk (k : Sched) (c : Ptr) : Act → Prop
  | .resume t => Linked k .reaper t = false ∧ Linked k .debug t = false
  | .reap t => Linked k .reaper t = false ∧ Linked k .debug t = false
  | .pause t => (k.tcb t).state = .waiting → RemvOk k t (k.tcb t).event.toNat
  | .request v => (k.ends v.items).tail = none → (k.ends v.waiters).tail = none →
      v.waiters.link (k.tcb c) = none
  | _ => True

instance (k : Sched) (t : Ptr) (e : ℕ) : Decidable (RemvOk k t e) :=
  inferInstanceAs (Decidable (_ ∧ _))

instance (k : Sched) (c : Ptr) : ∀ a, Decidable (BlockOk k c a)
  | .resume _ => inferInstanceAs (Decidable (_ ∧ _))
  | .reap _ => inferInstanceAs (Decidable (_ ∧ _))
  | .pause _ => inferInstanceAs (Decidable (_ → _))
  | .request _ => inferInstanceAs (Decidable (_ → _ → _))
  | .other | .spawn | .yield | .rewait _ | .kill _ | .wait _ _ | .reset _ | .fault | .irq _
  | .tick _ => isTrue trivial

theorem Sound.notBlocked {k : Sched} {q : Lists} {t : Ptr} (h : Sound k q)
    (ht : Linked k .reaper t = false ∧ Linked k .debug t = false) : ∀ v, t ∉ q.waiters v := by
  intro v hv
  have hl := (h.links.waiters v).linked_iff.mpr hv
  cases v with
  | dead =>
    rw [show Side.waiters .dead = .reaper from rfl, ht.1] at hl
    cases hl
  | fault =>
    rw [show Side.waiters .fault = .debug from rfl, ht.2] at hl
    cases hl

/-- The table finds every live thread under its id. -/
def IdsOk (k : Sched) : Prop :=
  ∀ i p, k.table i = some p → threadGet k (k.tcb p).id = some p

theorem TableWf.idsOk {s : Kernel} (h : TableWf s) : IdsOk s.toSched :=
  fun _ _ hp => h.get hp

/-- Calls and faults come from the active thread. -/
theorem Input.enabled_cases {s : Kernel} {i : Input} (h : i.Enabled s.toSched) :
    s.active = some s.image ∨ (∃ n, i.act s = .irq n) ∨ ∃ f, i.act s = .tick f := by
  have hact : s.active ≠ none → s.active = some s.image := by
    intro hne
    obtain ⟨c, hc⟩ := Option.ne_none_iff_exists'.mp hne
    rw [Sched.image, hc, Option.getD_some]
  cases i with
  | call r env => exact Or.inl (hact h)
  | fault n r env => exact Or.inl (hact h)
  | irq n r env =>
    by_cases hn : n.val = 0
    · exact Or.inr (Or.inr ⟨_, if_pos hn⟩)
    · exact Or.inr (Or.inl ⟨_, if_neg hn⟩)

/-- A fresh block is on no list and does not run. -/
theorem Sound.off_fresh {k : Sched} {q : Lists} {p : Ptr} (h : Sound k q)
    (fresh : ∀ j, k.table j ≠ some p) : q.Off p ∧ k.active ≠ some p := by
  have hnl : ¬Live k p := fun ⟨j, hj⟩ => fresh j hj
  refine ⟨⟨fun hr => hnl ((h.placed p).run hr).2, fun e he => hnl ((h.placed p).ev e he).2.2,
    fun v hv => hnl ((h.placed p).waiters v hv).2⟩, fun hact => ?_⟩
  exact hnl ((h.placed p).live ((h.placed p).active hact))

theorem Sound.spawned {k : Sched} {q : Lists} {p : Ptr} {i : ℕ} (h : Sound k q)
    (fresh : ∀ j, k.table j ≠ some p) (slot : k.table i = none) :
    Sound (k.spawned p i) { q with run := q.run ++ [p] } := by
  obtain ⟨hoff, hact⟩ := h.off_fresh fresh
  refine ⟨h.links.spawned hoff, ?_⟩
  intro t
  by_cases ht : t = p
  · subst ht
    have hlive : Live (k.spawned t i) t := by
      rw [spawned_eq]
      exact ⟨i, by simp⟩
    refine ⟨fun _ => ⟨Or.inl ?_, hlive⟩, fun e he => absurd he (hoff.ev e),
      fun v hv => absurd hv (hoff.waiters v), fun _ => hoff.ev,
        fun hv => absurd hv (hoff.waiters _),
      fun ha => ?_, fun _ => hlive, fun e he => absurd he (hoff.ev e)⟩
    · rw [spawned_eq]
      simp
    · rw [spawned_eq] at ha
      exact absurd ha hact
  · refine (h.placed t).frame ?_ ?_ ?_ ?_ ?_ (fun _ => id) fun _ => id
    · rw [spawned_eq]
      simp [ht]
    · rw [spawned_eq]
      simp [ht]
    · rintro ⟨j, hj⟩
      have hji : j ≠ i := fun hji => by
        rw [hji, slot] at hj
        cases hj
      refine ⟨j, ?_⟩
      rw [spawned_eq]
      simp only [Function.update_of_ne hji]
      exact hj
    · intro ha
      rwa [spawned_eq] at ha
    · intro hmem
      rcases List.mem_append.mp hmem with hmem | hmem
      · exact hmem
      · exact absurd (List.mem_singleton.mp hmem) ht

/-- Clearing a fresh block. -/
theorem Sound.clear {k : Sched} {q : Lists} {p : Ptr} (h : Sound k q)
    (fresh : ∀ j, k.table j ≠ some p) :
    Sound { k with tcb := Function.update k.tcb p Tcb.zero } q := by
  obtain ⟨hoff, hact⟩ := h.off_fresh fresh
  refine h.move (t := p) (h.links.clear hoff Tcb.zero) ?_ ?_
  · refine ⟨fun t ht => ?_, fun t ht => ?_, rfl, fun _ _ => id, fun _ _ => id, fun _ _ _ => id,
      fun _ _ _ => id⟩ <;> simp only [Function.update_of_ne ht]
  · refine PlacedAt.off hoff (fun ha => absurd ha hact) fun hr => ?_
    simp [Tcb.zero] at hr

/-- Freeing a paused thread that is not blocked. -/
theorem Sound.reap {k : Sched} {q : Lists} {t : Ptr} {i : ℕ} (h : Sound k q)
    (live : k.table i = some t) (state : (k.tcb t).state = .paused) (hw : ∀ v, t ∉ q.waiters v) :
    Sound { k with table := Function.update k.table i none } q := by
  have hoff : q.Off t := h.off (by simp [state]) (by simp [state]) fun _ => hw
  refine ⟨h.links.congr ?_, ?_⟩
  · exact ⟨fun _ => rfl, fun _ => rfl, fun _ _ => rfl, rfl, rfl, rfl, rfl⟩
  · intro p
    by_cases hp : p = t
    · rw [hp]
      refine PlacedAt.off hoff (h.placed t).active fun hr => ?_
      rw [state] at hr
      cases hr
    · refine (h.placed p).frame rfl rfl ?_ id id (fun _ => id) fun _ => id
      rintro ⟨j, hj⟩
      have hji : j ≠ i := fun hji => hp (by
        rw [hji, live, Option.some.injEq] at hj
        exact hj.symm)
      refine ⟨j, ?_⟩
      simp only [Function.update_of_ne hji]
      exact hj

/-- Nobody joins a wait queue but the caller of a request. -/
def Joins (c : Ptr) (a : Act) (q q' : Lists) : Prop :=
  ∀ v p, p ∈ q'.waiters v → p ∈ q.waiters v ∨ (∃ v', a = .request v') ∧ p = c

theorem Joins.of_eq {c : Ptr} {a : Act} {q q' : Lists} (h : q'.waiters = q.waiters) :
    Joins c a q q' := by
  intro v p hp
  rw [h] at hp
  exact Or.inl hp

/-- **The allowed actions keep every thread where its state says.** -/
theorem Effect.sound {k k' : Sched} {a : Act} {q : Lists} (h : Effect k.image k a k')
    (hs : Sound k q) (hid : IdsOk k)
    (hen : k.active = some k.image ∨ (∃ n, a = .irq n) ∨ ∃ f, a = .tick f)
    (hok : BlockOk k k.image a) : ∃ q', Sound k' q' ∧ Joins k.image a q q' := by
  -- the caller of a call or fault runs
  have hrun : (∀ n, a ≠ .irq n) → (∀ f, a ≠ .tick f) → (k.tcb k.image).state = .running := by
    intro hi ht
    rcases hen with hact | ⟨n, hn⟩ | ⟨f, hf⟩
    · exact (hs.placed _).active hact
    · exact absurd hn (hi n)
    · exact absurd hf (ht f)
  cases h with
  | other => exact ⟨q, hs, .of_eq rfl⟩
  | spawn fresh slot bound => exact ⟨_, hs.spawned fresh slot, .of_eq rfl⟩
  | spawnFull fresh full => exact ⟨q, hs.clear fresh, .of_eq rfl⟩
  | reap live state => exact ⟨q, hs.reap live state (hs.notBlocked hok), .of_eq rfl⟩
  | yield =>
    have hc := hrun (by simp) (by simp)
    exact ⟨_, hs.release.makeReady (hs.off_running hc) (by simp [Sched.release])
      ((hs.placed _).live hc), .of_eq rfl⟩
  | pauseRunning state =>
    exact ⟨q, hs.release.setState (hs.off_running state) (by simp [Sched.release]) (by decide),
      .of_eq rfl⟩
  | pauseQueued live state remv =>
    rename_i t r k₁
    obtain ⟨n, hd, tl, hk₁⟩ := scheduleRemv_withRun remv
    have hremv : Sound k₁ { q with run := q.run.erase t } := by
      refine ⟨hs.links.remv remv, ?_⟩
      intro p
      refine (hs.placed p).frame ?_ ?_ ?_ ?_ List.mem_of_mem_erase (fun _ => id) fun _ => id <;>
        rw [hk₁]
      · rfl
      · rfl
      · exact id
      · exact id
    have hst : (k₁.tcb t).state = .queued := by
      rw [hk₁]
      exact state
    have hoff : Lists.Off { q with run := q.run.erase t } t := by
      refine ⟨?_, fun e he => ?_, fun v hv => ?_⟩
      · exact fun hmem => (List.Nodup.not_mem_erase hs.links.run.nodup) hmem
      · have hw := ((hs.placed t).ev e he).1
        rw [state] at hw
        cases hw
      · have hp := ((hs.placed t).waiters v hv).1
        rw [state] at hp
        cases hp
    exact ⟨_, hremv.setState hoff (hremv.not_active (by simp [hst])) (by decide), .of_eq rfl⟩
  | pauseWaiting state remv =>
    rename_i t r k₁
    have hremv : RemvOk k t (k.tcb t).event.toNat := hok state
    set e := (k.tcb t).event.toNat with he
    -- the thread is the front waiter of its event
    have hrep := hs.links.ev.rep e
    rw [EvQ, hremv.1] at hrep
    obtain ⟨l, hl⟩ := hrep.toLoose.exists_cons
    have hmem : t ∈ q.ev e := by rw [hl]; exact List.mem_cons_self
    obtain ⟨-, hev, hlive⟩ := (hs.placed t).ev e hmem
    obtain ⟨i, hi⟩ := hlive
    have hbound := (hs.placed t).bound e hmem
    have heq := hs.links.ev.remv_eq (hid i t hi) hbound hremv
    rw [hev, heq, Except.ok.injEq, Prod.mk.injEq] at remv
    rw [← remv.2]
    have hsub : ∀ p e', p ∈ Function.update q.ev e l e' → p ∈ q.ev e' := by
      intro p e' hp
      by_cases hee : e' = e
      · rw [hee, Function.update_self] at hp
        rw [hee, hl]
        exact List.mem_cons_of_mem t hp
      · rwa [Function.update_of_ne hee] at hp
    have hpop : Sound (evqueuePop k e t) { q with ev := Function.update q.ev e l } := by
      refine ⟨hs.links.evPop hl, ?_⟩
      intro p
      exact (hs.placed p).frame rfl rfl id id id (hsub p) fun _ => id
    have hoff : Lists.Off { q with ev := Function.update q.ev e l } t := by
      refine ⟨fun hr => (hs.placed t).run_ev hr e hmem, fun e' he' => ?_, fun v hv => ?_⟩
      · by_cases hee : e' = e
        · simp only [hee, Function.update_self] at he'
          have hnodup := hrep.nodup
          rw [hl] at hnodup
          exact (List.nodup_cons.mp hnodup).1 he'
        · exact hs.links.ev.disjoint e' e hee t (hsub t e' he') hmem
      · have hp := ((hs.placed t).waiters v hv).1
        rw [state] at hp
        cases hp
    refine ⟨_, hpop.setState hoff ?_ (by decide), .of_eq rfl⟩
    exact hs.not_active (by simp [state])
  | resume live state =>
    rename_i t i
    have hoff := hs.off (p := t) (by simp [state]) (by simp [state]) fun _ => hs.notBlocked hok
    exact ⟨_, hs.makeReady hoff (hs.not_active (by simp [state])) ⟨i, live⟩, .of_eq rfl⟩
  | rewait live state event bound =>
    rename_i t i e
    have hoff := hs.off (p := t) (by simp [state]) (by simp [state]) (by simp [state])
    obtain ⟨q', h', -, ht, hw⟩ := hs.waitOn (e := e) hoff ⟨i, live⟩ bound
    exact ⟨q', h'.setWaiting ht, .of_eq hw⟩
  | rewaitBad state event =>
    rename_i t
    have hoff := hs.off (p := t) (by simp [state]) (by simp [state]) (by simp [state])
    exact ⟨q, hs.setState hoff (hs.not_active (by simp [state])) (by decide), .of_eq rfl⟩
  | kill live state =>
    rename_i t
    unfold Sched.kill
    split
    · rename_i hr
      have hrel : Sound (k.release.setState t .paused) q :=
        hs.release.setState (hs.off_running hr) (by simp [Sched.release]) (by decide)
      obtain ⟨q', h', hw⟩ := hrel.report .dead t
      exact ⟨q', h', fun v p hp => Or.inl (hw v p hp)⟩
    · obtain ⟨q', h', hw⟩ := hs.report .dead t
      exact ⟨q', h', fun v p hp => Or.inl (hw v p hp)⟩
  | request =>
    have hc := hrun (by simp) (by simp)
    obtain ⟨q', h', hw⟩ := hs.request _ hc hok
    exact ⟨q', h', fun v p hp => (hw v p hp).imp_right fun hpc => ⟨⟨_, rfl⟩, hpc⟩⟩
  | wait live bound =>
    rename_i t e
    have hc := hrun (by simp) (by simp)
    have hlive := (hs.placed _).live hc
    obtain ⟨i, hi⟩ := hlive
    rw [hid i _ hi, Option.some.injEq] at live
    rw [← live]
    obtain ⟨q', h', -, -, hw⟩ := hs.waitOn (e := e) (hs.off_running hc) ⟨i, hi⟩ bound
    exact ⟨q', h', .of_eq hw⟩
  | reset =>
    refine ⟨q, hs.congr (hs.links.congr ?_) (fun _ => rfl) (fun _ => rfl) rfl fun _ => id,
      .of_eq rfl⟩
    exact ⟨fun _ => rfl, fun _ => rfl, fun _ _ => rfl, rfl, rfl, rfl, rfl⟩
  | fault =>
    have hc := hrun (by simp) (by simp)
    have hrel : Sound (k.release.setState k.image .paused) q :=
      hs.release.setState (hs.off_running hc) (by simp [Sched.release]) (by decide)
    obtain ⟨q', h', hw⟩ := hrel.report .fault _
    exact ⟨q', h', fun v p hp => Or.inl (hw v p hp)⟩
  | irq =>
    obtain ⟨q', h', hw⟩ := hs.send _
    exact ⟨q', h', .of_eq hw⟩
  | tick =>
    rename_i fired _ _
    obtain ⟨q', h', hw⟩ := hs.sends fired
    unfold Sched.tick
    dsimp only
    split
    · rename_i hr
      exact ⟨_, h'.release.makeReady (h'.off_running hr) (by simp [Sched.release])
        ((h'.placed _).live hr), .of_eq hw⟩
    · exact ⟨q', h', .of_eq hw⟩

theorem Picks.sound {k k' : Sched} {o : Option Ptr} {q : Lists} (h : Picks k o k')
    (hs : Sound k q) : ∃ q', Sound k' q' ∧ q'.waiters = q.waiters := by
  cases h with
  | same => exact ⟨q, hs, rfl⟩
  | idle => exact ⟨q, hs, rfl⟩
  | next active head remv =>
    rename_i t r k₁
    obtain ⟨n, hd, tl, hk₁⟩ := scheduleRemv_withRun remv
    have hmem : t ∈ q.run := List.mem_of_head? (hs.links.run.first_eq.symm.trans head)
    obtain ⟨hst, hlive⟩ := (hs.placed t).run hmem
    have hlinks : Links { k₁ with active := some t } { q with run := q.run.erase t } :=
      (hs.links.remv remv).congr
        ⟨fun _ => rfl, fun _ => rfl, fun _ _ => rfl, rfl, rfl, rfl, rfl⟩
    refine ⟨{ q with run := q.run.erase t }, ?_, rfl⟩
    refine hs.move (t := t) (hlinks.congr (SameLinks.setState _ t .running)) ?_ ?_
    · refine ⟨fun p hp => ?_, fun p _ => ?_, ?_, fun p hp hact => ?_,
        fun p _ => List.mem_of_mem_erase, fun _ _ _ => id, fun _ _ _ => id⟩
      · rw [setState_state, if_neg hp, hk₁]
        rfl
      · rw [setState_event, hk₁]
        rfl
      · rw [hk₁]
        rfl
      · exact absurd (Option.some.inj hact).symm hp
    · have hoff : Lists.Off { q with run := q.run.erase t } t := by
        refine ⟨fun hr => List.Nodup.not_mem_erase hs.links.run.nodup hr,
          (hs.placed t).run_ev hmem, fun v hv => ?_⟩
        have hp := ((hs.placed t).waiters v hv).1
        rcases hst with hst | hst <;> rw [hp] at hst <;> cases hst
      refine PlacedAt.off hoff (fun _ => ?_) fun _ => ?_
      · rw [setState_state, if_pos rfl]
      · obtain ⟨i, hi⟩ := hlive
        exact ⟨i, by rw [← hi, hk₁]; rfl⟩

/-! ### Runs -/

/-- The thread is reached from `sched_head`. -/
def OnRun (k : Sched) (p : Ptr) : Prop := Reach (fun p => (k.tcb p).next) k.schedHead p

/-- The thread is reached from the front of the queue of event `e`. -/
def OnEvent (k : Sched) (e : ℕ) (p : Ptr) : Prop :=
  Reach (fun p => (k.tcb p).nextEvqueue) (k.evqueue e).frontThread p

/-- The thread is reached from the tail of a dead, reaper, fault or debug queue. -/
def OnRdv (k : Sched) (q : Rdv) (p : Ptr) : Prop :=
  Reach (fun p => q.link (k.tcb p)) (k.ends q).tail p

/-- The step condition of a run of the kernel. -/
def StepBlockOk (s : Kernel) (i : Input) : Prop := BlockOk s.toSched s.image (i.act s)

instance (s : Kernel) (i : Input) : Decidable (StepBlockOk s i) :=
  inferInstanceAs (Decidable (BlockOk _ _ _))

theorem Init.sound {s : Kernel} (h : Init s) : ∃ q, Sound s.toSched q := by
  obtain ⟨-, p, i, hs⟩ := h.cases
  refine ⟨⟨[], fun _ => [], fun _ => []⟩, ⟨?_, ⟨?_, ?_⟩, ?_⟩, ?_⟩
  · rw [hs]
    exact Rep.empty _
  · intro e
    rw [hs]
    exact Rep.empty _
  · intro e e' _ t ht
    exact absurd ht List.not_mem_nil
  · intro v
    rw [hs]
    exact Rep.empty _
  · intro t
    refine PlacedAt.off ⟨List.not_mem_nil, fun _ => List.not_mem_nil, fun _ => List.not_mem_nil⟩
      ?_ ?_ <;> rw [hs]
    · intro hact
      rw [← Option.some.inj hact]
      simp
    · intro hr
      refine ⟨i, ?_⟩
      by_cases ht : t = p
      · simp [ht]
      · simp [Function.update_of_ne ht, Tcb.zero] at hr

theorem KernelReach.sound {s : Kernel} (h : KernelReach StepBlockOk s) :
    ∃ q, Sound s.toSched q := by
  refine Reachable.invariant (fun s => ∃ q, Sound s.toSched q) (fun s hs => hs.sound) ?_ h
  intro s i s' hreach hq hok hs
  obtain ⟨q, hq⟩ := hq
  have hw : TableWf s := KernelReach.tableWf hreach
  obtain ⟨k, o, heff, hpick, -⟩ := next_cases hw hs
  obtain ⟨q₁, h₁, -⟩ := heff.sound hq hw.idsOk (Input.enabled_cases hok.1) hok.2
  obtain ⟨q', h', -⟩ := hpick.sound h₁
  exact ⟨q', h'⟩

/-- **A thread blocked in `GETDEAD` or `GETFAULT` is in one place**: along every
run of allowed actions it is paused and on neither the run queue nor an event
queue, a report never pushes a thread that is on the run queue, and the run queue
is a duplicate-free list. -/
theorem blocked_threads_apart {s : Kernel} (h : KernelReach StepBlockOk s) :
    (∀ (v : Side) p, OnRdv s.toSched v.waiters p →
      (s.tcb p).state = .paused ∧ ¬OnRun s.toSched p ∧ ∀ e, ¬OnEvent s.toSched e p) ∧
    (∀ (v : Side) w, (s.ends v.waiters).tail = some w → ¬OnRun s.toSched w) ∧
    ∃ l, RunQ s.toSched l := by
  obtain ⟨q, hq⟩ := h.sound
  have hplace : ∀ (v : Side) p, OnRdv s.toSched v.waiters p →
      (s.tcb p).state = .paused ∧ ¬OnRun s.toSched p ∧ ∀ e, ¬OnEvent s.toSched e p := by
    intro v p hp
    have hmem : p ∈ q.waiters v := (hq.links.waiters v).reach_iff.mp hp
    have hst := ((hq.placed p).waiters v hmem).1
    refine ⟨hst, fun hr => ?_, fun e he => ?_⟩
    · have hrun := ((hq.placed p).run (hq.links.run.reach_iff.mp hr)).1
      rcases hrun with hr' | hr' <;> rw [hst] at hr' <;> cases hr'
    · have hev := ((hq.placed p).ev e ((hq.links.ev.rep e).reach_iff.mp he)).1
      rw [hst] at hev
      cases hev
  refine ⟨hplace, fun v w hw => ?_, q.run, hq.links.run⟩
  refine (hplace v w ?_).2.1
  rw [OnRdv, hw]
  exact .here w

/-- Thread 1 blocks in `GETDEAD` while thread 0 runs. -/
theorem blocked_threads_apart_getdead : ∃ s p, KernelReach StepBlockOk s ∧
    (s.ends .reaper).tail = some p ∧ (s.tcb p).state = .paused ∧ ¬OnRun s.toSched p := by
  obtain ⟨s, hs, hf⟩ := exists_bootRun StepBlockOk [callOf 0x02 0, irqOf 0, callOf 0x0A 0]
    (fun s => (s.ends .reaper).tail.isSome) (by decide +kernel)
  obtain ⟨p, hp⟩ := Option.isSome_iff_exists.mp hf
  have hon : OnRdv s.toSched (Side.waiters .dead) p := by
    rw [OnRdv, show (s.ends (Side.waiters .dead)).tail = some p from hp]
    exact .here p
  have hpl := (blocked_threads_apart hs).1 .dead p hon
  exact ⟨s, p, hs, hp, hpl.1, hpl.2.1⟩

/-- Thread 1 blocks in `GETDEAD` and thread 0 resumes it: it is on the reaper
queue and on the run queue. -/
theorem blocked_threads_apart_fails : ∃ s p, KernelReach (fun _ _ => True) s ∧
    OnRdv s.toSched (Side.waiters .dead) p ∧ (s.tcb p).state ≠ .paused ∧ OnRun s.toSched p := by
  obtain ⟨s, hs, hf⟩ := exists_bootRun (fun _ _ => True)
    [callOf 0x02 0, irqOf 0, callOf 0x0A 0, callOf 0x06 1]
    (fun s => (s.ends .reaper).tail.any fun p =>
      decide ((s.tcb p).state ≠ .paused) && decide (s.schedHead = some p))
    (by decide +kernel)
  simp only [Option.any_eq_true, Bool.and_eq_true, decide_eq_true_eq] at hf
  obtain ⟨p, hp, hst, hhead⟩ := hf
  refine ⟨s, p, hs, ?_, hst, ?_⟩
  · rw [OnRdv, show (s.ends (Side.waiters .dead)).tail = some p from hp]
    exact .here p
  · rw [OnRun, hhead]
    exact .here p

end Pinion
