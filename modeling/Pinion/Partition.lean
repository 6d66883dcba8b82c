/-
The scheduling core: every thread is in exactly one place.

As long as nobody kills, faults, blocks in `GETDEAD` or `GETFAULT`, or pauses a
thread that waits, a thread of the table is queued, waiting, running or paused,
and on the queue its state names.

* `InPlace`, `Partition` — the invariant, an equivalence where `PlacedAt` has an
  implication;
* `Partition.ready`, `Partition.sleep`, `Partition.wake`, … — one lemma per
  operation, each by `Partition.move`: one thread moves, the others stay;
* `evAfter` — what one entry does to the waiters of each event;
* `WaitLog` — who started waiting on an event and who was woken, observed on the
  states before and after an entry;
* `scheduling_core_partition` — the invariant along every run, with the logs in
  the same order.
-/
import Pinion.Blocked

open LinkedQueue Runs

namespace Pinion

/-- `p` is where its state says and nowhere else. -/
structure InPlace (k : Sched) (q : Lists) (p : Ptr) : Prop where
  run : p ∈ q.run ↔ (k.tcb p).state = .queued
  ev : ∀ e : ℕ, p ∈ q.ev e ↔ (k.tcb p).state = .waiting ∧ (k.tcb p).event = e
  active : k.active = some p ↔ (k.tcb p).state = .running
  known : Live k p → (k.tcb p).state ≠ .free ∧ (k.tcb p).state ≠ .pausedw
  gone : ¬Live k p → (k.tcb p).state = .free ∨ (k.tcb p).state = .paused
  event : (k.tcb p).state = .waiting → ∃ e < EV_COUNT, (k.tcb p).event = (e : ℕ)

/-- The queues hold the lists of `q`, nobody is blocked, and every thread is in
its place. -/
structure Partition (k : Sched) (q : Lists) : Prop where
  links : Links k q
  alone : ∀ v, q.waiters v = []
  place : ∀ p, InPlace k q p

/-- A thread whose state, event and lists do not change stays in its place. -/
theorem InPlace.frame {k k' : Sched} {q q' : Lists} {p : Ptr} (h : InPlace k q p)
    (hst : (k'.tcb p).state = (k.tcb p).state) (hev : (k'.tcb p).event = (k.tcb p).event)
    (hlive : Live k' p ↔ Live k p) (hact : k'.active = some p ↔ k.active = some p)
    (hrun : p ∈ q'.run ↔ p ∈ q.run) (hevs : ∀ e, p ∈ q'.ev e ↔ p ∈ q.ev e) :
    InPlace k' q' p := by
  constructor
  · rw [hrun, hst]
    exact h.run
  · intro e
    rw [hevs, hst, hev]
    exact h.ev e
  · rw [hact, hst]
    exact h.active
  · rw [hlive, hst]
    exact h.known
  · rw [hlive, hst]
    exact h.gone
  · rw [hst, hev]
    exact h.event

/-- A thread that is queued, waiting or running is in the table. -/
theorem InPlace.live {k : Sched} {q : Lists} {p : Ptr} (h : InPlace k q p)
    (hf : (k.tcb p).state ≠ .free) (hp : (k.tcb p).state ≠ .paused) : Live k p := by
  by_contra hl
  rcases h.gone hl with hst | hst
  · exact hf hst
  · exact hp hst

/-- What an operation on thread `t` leaves alone of the others. -/
structure Still (k k' : Sched) (q q' : Lists) (t : Ptr) : Prop where
  state : ∀ p, p ≠ t → (k'.tcb p).state = (k.tcb p).state
  event : ∀ p, p ≠ t → (k'.tcb p).event = (k.tcb p).event
  live : ∀ p, p ≠ t → (Live k' p ↔ Live k p)
  active : ∀ p, p ≠ t → (k'.active = some p ↔ k.active = some p)
  run : ∀ p, p ≠ t → (p ∈ q'.run ↔ p ∈ q.run)
  ev : ∀ p, p ≠ t → ∀ e, p ∈ q'.ev e ↔ p ∈ q.ev e

/-- One thread moves, the others stay. -/
theorem Partition.move {k k' : Sched} {q q' : Lists} {t : Ptr} (h : Partition k q)
    (hl : Links k' q') (hw : q'.waiters = q.waiters) (ho : Still k k' q q' t)
    (ht : InPlace k' q' t) : Partition k' q' := by
  refine ⟨hl, fun v => ?_, fun p => ?_⟩
  · rw [hw]
    exact h.alone v
  · by_cases hp : p = t
    · rw [hp]
      exact ht
    · exact (h.place p).frame (ho.state p hp) (ho.event p hp) (ho.live p hp) (ho.active p hp)
        (ho.run p hp) (ho.ev p hp)

theorem Live.congr {k k' : Sched} (h : k'.table = k.table) (p : Ptr) : Live k' p ↔ Live k p := by
  rw [Live, Live, h]

/-! ### Where a thread can be, by its state -/

/-- A thread that is neither queued nor waiting is on no list. -/
theorem Partition.off {k : Sched} {q : Lists} {p : Ptr} (h : Partition k q)
    (hq : (k.tcb p).state ≠ .queued) (hw : (k.tcb p).state ≠ .waiting) : q.Off p := by
  constructor
  · intro hr
    exact hq ((h.place p).run.mp hr)
  · intro e he
    exact hw (((h.place p).ev e).mp he).1
  · intro v hv
    rw [h.alone v] at hv
    exact absurd hv List.not_mem_nil

theorem Partition.off_fresh {k : Sched} {q : Lists} {p : Ptr} (h : Partition k q)
    (fresh : ∀ j, k.table j ≠ some p) : q.Off p ∧ k.active ≠ some p := by
  have hgone := (h.place p).gone fun ⟨j, hj⟩ => fresh j hj
  have hno : ∀ st, st ≠ .free → st ≠ .paused → (k.tcb p).state ≠ st := by
    rintro st hf hp rfl
    exact hgone.elim hf hp
  refine ⟨h.off (hno _ (by decide) (by decide)) (hno _ (by decide) (by decide)), fun hact => ?_⟩
  exact hno .running (by decide) (by decide) ((h.place p).active.mp hact)

/-- A thread in the run queue only. -/
theorem InPlace.queued {k : Sched} {q : Lists} {t : Ptr} (hrun : t ∈ q.run)
    (hev : ∀ e, t ∉ q.ev e) (hst : (k.tcb t).state = .queued) (hlive : Live k t)
    (hact : k.active ≠ some t) : InPlace k q t := by
  constructor
  · exact ⟨fun _ => hst, fun _ => hrun⟩
  · intro e
    exact ⟨fun he => absurd he (hev e), fun ⟨hw, _⟩ => by rw [hst] at hw; cases hw⟩
  · exact ⟨fun ha => absurd ha hact, fun hr => by rw [hst] at hr; cases hr⟩
  · intro _
    rw [hst]
    exact ⟨by decide, by decide⟩
  · exact fun hl => absurd hlive hl
  · intro hw
    rw [hst] at hw
    cases hw

/-- A thread on no list: it runs or is paused, or it is not in the table. -/
theorem InPlace.off {k : Sched} {q : Lists} {t : Ptr} (hoff : q.Off t)
    (hact : k.active = some t ↔ (k.tcb t).state = .running)
    (hst : Live k t → (k.tcb t).state = .running ∨ (k.tcb t).state = .paused)
    (hgone : ¬Live k t → (k.tcb t).state = .free ∨ (k.tcb t).state = .paused) :
    InPlace k q t := by
  have hno : ∀ st, st ≠ .running → st ≠ .paused → st ≠ .free → (k.tcb t).state ≠ st := by
    rintro st hr hp hf rfl
    by_cases hl : Live k t
    · exact (hst hl).elim hr hp
    · exact (hgone hl).elim hf hp
  constructor
  · exact ⟨fun hr => absurd hr hoff.run,
      fun hq => absurd hq (hno _ (by decide) (by decide) (by decide))⟩
  · intro e
    exact ⟨fun he => absurd he (hoff.ev e),
      fun ⟨hw, _⟩ => absurd hw (hno _ (by decide) (by decide) (by decide))⟩
  · exact hact
  · intro hl
    refine ⟨fun hf => ?_, hno _ (by decide) (by decide) (by decide)⟩
    rcases hst hl with hs | hs <;> rw [hf] at hs <;> cases hs
  · exact hgone
  · exact fun hw => absurd hw (hno _ (by decide) (by decide) (by decide))

/-! ### The operations -/

/-- A thread that runs or is paused is made ready; if it was active, no thread is
afterwards. -/
theorem Partition.ready {k : Sched} {q : Lists} {t : Ptr} {a : Option Ptr} (h : Partition k q)
    (hlive : Live k t) (hst : (k.tcb t).state = .running ∨ (k.tcb t).state = .paused)
    (ha : ∀ p, a = some p ↔ k.active = some p ∧ p ≠ t) :
    Partition (makeReady { k with active := a } t) { q with run := q.run ++ [t] } := by
  have hoff : q.Off t := by
    refine h.off ?_ ?_ <;> rcases hst with hst | hst <;> rw [hst] <;> decide
  have hlinks : Links { k with active := a } q :=
    h.links.congr ⟨fun _ => rfl, fun _ => rfl, fun _ _ => rfl, rfl, rfl, rfl, rfl⟩
  have htab : (makeReady { k with active := a } t).table = k.table := by rw [makeReady_eq]
  refine h.move (t := t) (hlinks.makeReady hoff.run) rfl ?_ ?_
  · refine ⟨fun p hp => ?_, fun p _ => ?_, fun p _ => Live.congr htab p, fun p hp => ?_,
      fun p hp => ?_, fun _ _ _ => Iff.rfl⟩
    · rw [makeReady_state, if_neg hp]
    · rw [makeReady_eq]
    · rw [makeReady_active, ha]
      exact ⟨fun h => h.1, fun h => ⟨h, hp⟩⟩
    · simp only [List.mem_append, List.mem_singleton, hp, or_false]
  · refine InPlace.queued (by simp) hoff.ev ?_ ((Live.congr htab t).mpr hlive) ?_
    · rw [makeReady_state, if_pos rfl]
    · rw [makeReady_active]
      exact fun hact => ((ha t).mp hact).2 rfl

/-- The active thread is made ready. -/
theorem Partition.yield {k : Sched} {q : Lists} {t : Ptr} (h : Partition k q)
    (hst : (k.tcb t).state = .running) :
    Partition (makeReady k.release t) { q with run := q.run ++ [t] } := by
  refine h.ready ((h.place t).live (by simp [hst]) (by simp [hst])) (Or.inl hst) fun p => ?_
  have hact := (h.place t).active.mpr hst
  rw [hact, Option.some.injEq]
  exact ⟨fun hn => absurd hn (by simp), fun ⟨he, hne⟩ => absurd he.symm hne⟩

theorem Partition.resume {k : Sched} {q : Lists} {t : Ptr} (h : Partition k q)
    (hlive : Live k t) (hst : (k.tcb t).state = .paused) :
    Partition (makeReady k t) { q with run := q.run ++ [t] } := by
  refine h.ready (a := k.active) hlive (Or.inr hst) fun p => ?_
  refine ⟨fun hact => ⟨hact, ?_⟩, fun hact => hact.1⟩
  rintro rfl
  have hr := (h.place p).active.mp hact
  rw [hst] at hr
  cases hr

/-- The active thread is paused. -/
theorem Partition.halt {k : Sched} {q : Lists} {t : Ptr} (h : Partition k q)
    (hst : (k.tcb t).state = .running) : Partition (k.release.setState t .paused) q := by
  have hact := (h.place t).active.mpr hst
  have hst' : ((k.release.setState t .paused).tcb t).state = .paused := by
    rw [setState_state, if_pos rfl]
  have hlinks := (h.links.congr (SameLinks.release k)).congr
    (SameLinks.setState k.release t .paused)
  refine h.move (t := t) hlinks rfl ?_ ?_
  · refine ⟨fun p hp => ?_, fun p _ => setState_event _ t p _, fun _ _ => Iff.rfl, fun p hp => ?_,
      fun _ _ => Iff.rfl, fun _ _ _ => Iff.rfl⟩
    · rw [setState_state, if_neg hp]
      rfl
    · rw [hact, Option.some.injEq]
      exact ⟨fun hn => absurd hn (by simp [Sched.release, Sched.setState, Sched.upd]),
        fun he => absurd he.symm hp⟩
  · refine InPlace.off (h.off (by simp [hst]) (by simp [hst])) ?_ ?_ ?_ <;> rw [hst']
    · simp [Sched.release, Sched.setState, Sched.upd]
    · exact fun _ => Or.inr rfl
    · exact fun _ => Or.inr rfl

/-- A queued thread leaves the run queue, to be paused or to run. -/
theorem Partition.take {k k₁ : Sched} {q : Lists} {t : Ptr} {r : ℤ} {a : Option Ptr} {st : TState}
    (h : Partition k q) (hmem : t ∈ q.run) (remv : scheduleRemv k t = .ok (r, k₁))
    (hst : st = .running ∨ st = .paused) (hat : a = some t ↔ st = .running)
    (ha : ∀ p, p ≠ t → (a = some p ↔ k.active = some p)) :
    Partition ({ k₁ with active := a }.setState t st) { q with run := q.run.erase t } := by
  have hqueued := (h.place t).run.mp hmem
  have hlive := (h.place t).live (by simp [hqueued]) (by simp [hqueued])
  obtain ⟨n, hd, tl, hk₁⟩ := scheduleRemv_withRun remv
  have hst' : (({ k₁ with active := a }.setState t st).tcb t).state = st := by
    rw [setState_state, if_pos rfl]
  have htab : ({ k₁ with active := a }.setState t st).table = k.table := by
    rw [hk₁]
    rfl
  have hlive' := (Live.congr htab t).mpr hlive
  have hlinks : Links { k₁ with active := a } { q with run := q.run.erase t } :=
    (h.links.remv remv).congr ⟨fun _ => rfl, fun _ => rfl, fun _ _ => rfl, rfl, rfl, rfl, rfl⟩
  refine h.move (t := t) (hlinks.congr (SameLinks.setState _ t st)) rfl ?_ ?_
  · refine ⟨fun p hp => ?_, fun p _ => ?_, fun p _ => Live.congr htab p, ha,
      fun p hp => List.mem_erase_of_ne hp, fun _ _ _ => Iff.rfl⟩
    · rw [setState_state, if_neg hp, hk₁]
      rfl
    · rw [setState_event, hk₁]
      rfl
  · have hoff : Lists.Off { q with run := q.run.erase t } t := by
      refine ⟨List.Nodup.not_mem_erase h.links.run.nodup, fun e he => ?_, fun v hv => ?_⟩
      · have hw := (((h.place t).ev e).mp he).1
        rw [hqueued] at hw
        cases hw
      · exact absurd hv (by simp [h.alone v])
    refine InPlace.off hoff ?_ (fun _ => ?_) fun hl => absurd hlive' hl <;> rw [hst']
    · exact hat
    · exact hst

/-- The active thread waits on an event that is not latched. -/
theorem Partition.sleep {k : Sched} {q : Lists} {t : Ptr} {e : ℕ} (h : Partition k q)
    (hst : (k.tcb t).state = .running) (hb : e < EV_COUNT) :
    Partition ((evqueuePush k e t).release.setState t .waiting)
      { q with ev := Function.update q.ev e (q.ev e ++ [t]) } := by
  have hact := (h.place t).active.mpr hst
  have hoff := h.off (p := t) (by simp [hst]) (by simp [hst])
  set k₁ := evqueuePush k e t with hk₁
  have hstk : ∀ p, (k₁.tcb p).state = (k.tcb p).state := by
    intro p
    rw [hk₁, evqueuePush_eq]
  have hevk : ∀ p, (k₁.tcb p).event = if p = t then (e : ℤ) else (k.tcb p).event := by
    intro p
    rw [hk₁, evqueuePush_eq]
  have htab : k₁.table = k.table := by rw [hk₁, evqueuePush_eq]
  have hst' : ((k₁.release.setState t .waiting).tcb t).state = .waiting := by
    rw [setState_state, if_pos rfl]
  have hevent : ((k₁.release.setState t .waiting).tcb t).event = (e : ℤ) := by
    rw [setState_event]
    exact (hevk t).trans (if_pos rfl)
  have hnone : (k₁.release.setState t .waiting).active = none := rfl
  have hlive' : Live (k₁.release.setState t .waiting) t :=
    (Live.congr htab t).mpr ((h.place t).live (by simp [hst]) (by simp [hst]))
  have hlinks := ((h.links.evPush e hoff.ev).congr (SameLinks.release k₁)).congr
    (SameLinks.setState k₁.release t .waiting)
  refine h.move (t := t) hlinks rfl ?_ ?_
  · refine ⟨fun p hp => ?_, fun p hp => ?_, fun p _ => Live.congr htab p, fun p hp => ?_,
      fun _ _ => Iff.rfl, fun p hp e' => ?_⟩
    · rw [setState_state, if_neg hp]
      exact hstk p
    · rw [setState_event]
      exact (hevk p).trans (if_neg hp)
    · rw [hnone, hact, Option.some.injEq]
      exact ⟨fun hn => absurd hn (by simp), fun he => absurd he.symm hp⟩
    · by_cases he : e' = e
      · subst he
        simp only [Function.update_self, List.mem_append, List.mem_singleton, hp, or_false]
      · simp only [Function.update_of_ne he]
  · constructor
    · rw [hst']
      exact ⟨fun hr => absurd hr hoff.run, fun hq => absurd hq (by decide)⟩
    · intro e'
      rw [hst', hevent, Int.natCast_inj]
      by_cases he : e' = e
      · subst he
        simp
      · simp only [Function.update_of_ne he, Ne.symm he, and_false, iff_false]
        exact hoff.ev e'
    · rw [hst', hnone]
      exact ⟨fun hn => absurd hn (by simp), fun hr => absurd hr (by decide)⟩
    · rw [hst']
      exact fun _ => ⟨by decide, by decide⟩
    · exact fun hl => absurd hlive' hl
    · exact fun _ => ⟨e, hb, hevent⟩

/-! ### Wake-ups -/

/-- A wake-up moves the front waiter of the event, if there is one. -/
theorem Partition.wake {k : Sched} {q : Lists} (h : Partition k q) (e : ℕ) :
    ∃ q', Partition (k.wake e) q' ∧ q'.ev = Function.update q.ev e (q.ev e).tail := by
  cases hq : q.ev e with
  | nil =>
    refine ⟨q, ?_, ?_⟩
    · rw [h.links.wake_nil hq]
      exact h
    · rw [List.tail_nil, ← hq, Function.update_eq_self]
  | cons t l =>
    have hmem : t ∈ q.ev e := by rw [hq]; exact List.mem_cons_self
    obtain ⟨hst, hev⟩ := ((h.place t).ev e).mp hmem
    have hlive := (h.place t).live (by simp [hst]) (by simp [hst])
    have hrun : t ∉ q.run := by
      intro hr
      have hqueued := (h.place t).run.mp hr
      rw [hst] at hqueued
      cases hqueued
    have hf : (k.evqueue e).frontThread = some t := by
      rw [(h.links.ev.rep e).first_eq, hq]
      rfl
    have hnr : ¬(k.tcb t).state = .running := by simp [hst]
    have heq := wake_waiter hf hnr
    have hnd : t ∉ l := by
      have hnodup := (h.links.ev.rep e).nodup
      rw [hq] at hnodup
      exact (List.nodup_cons.mp hnodup).1
    have htab : (k.wake e).table = k.table := (wake_ids k e).2
    refine ⟨{ q with run := q.run ++ [t], ev := Function.update q.ev e l }, ?_, rfl⟩
    refine h.move (t := t) (h.links.wake hq hrun) rfl ?_ ?_
    · refine ⟨fun p hp => ?_, fun p hp => ?_, fun p _ => Live.congr htab p, fun p _ => ?_,
        fun p hp => ?_, fun p hp e' => ?_⟩
      · rw [heq, makeReady_state, if_neg hp]
        simp [evqueuePop, Sched.setEvqueue, Sched.upd, hp]
      · rw [heq, makeReady_eq]
        simp [evqueuePop, Sched.setEvqueue, Sched.upd, hp]
      · rw [heq, makeReady_active]
      · simp only [List.mem_append, List.mem_singleton, hp, or_false]
      · by_cases he : e' = e
        · subst he
          simp only [Function.update_self, hq, List.mem_cons, hp, false_or]
        · simp only [Function.update_of_ne he]
    · -- the woken thread was on the queue of `e` only, and once
      have hoff : ∀ e', t ∉ Function.update q.ev e l e' := by
        intro e' he'
        by_cases he : e' = e
        · subst he
          rw [Function.update_self] at he'
          exact hnd he'
        · rw [Function.update_of_ne he] at he'
          exact h.links.ev.disjoint e' e he t he' hmem
      refine InPlace.queued (by simp) hoff ?_ ((Live.congr htab t).mpr hlive) ?_
      · rw [heq, makeReady_state, if_pos rfl]
      · rw [heq, makeReady_active]
        exact fun hact => hnr ((h.place t).active.mp hact)

theorem Partition.send {k : Sched} {q : Lists} (h : Partition k q) (e : ℕ) :
    ∃ q', Partition (k.send e) q' ∧ q'.ev = Function.update q.ev e (q.ev e).tail := by
  obtain ⟨q', h', hev⟩ := h.wake e
  refine ⟨q', ⟨h'.links.congr ?_, h'.alone, fun p => ?_⟩, hev⟩
  · exact ⟨fun _ => rfl, fun _ => rfl, fun _ _ => rfl, rfl, rfl, rfl, rfl⟩
  · exact (h'.place p).frame rfl rfl Iff.rfl Iff.rfl Iff.rfl fun _ => Iff.rfl

/-- The events of a tick are distinct, so each front waiter is woken once. -/
theorem Partition.sends (fired : List ℕ) : ∀ {k : Sched} {q : Lists}, Partition k q →
    fired.Nodup → ∃ q', Partition (fired.foldl Sched.send k) q' ∧
      q'.ev = fun e => if e ∈ fired then (q.ev e).tail else q.ev e := by
  induction fired with
  | nil =>
    intro k q h _
    exact ⟨q, h, by simp⟩
  | cons e l ih =>
    intro k q h hnd
    obtain ⟨hel, hl⟩ := List.nodup_cons.mp hnd
    obtain ⟨q₁, h₁, hev₁⟩ := h.send e
    obtain ⟨q₂, h₂, hev₂⟩ := ih h₁ hl
    refine ⟨q₂, h₂, ?_⟩
    funext e'
    by_cases he : e' = e
    · -- sent now, and not among the rest
      subst he
      simp [hev₂, hev₁, hel]
    · simp [hev₂, hev₁, he]

/-! ### New and freed threads -/

theorem Partition.spawned {k : Sched} {q : Lists} {p : Ptr} {i : ℕ} (h : Partition k q)
    (fresh : ∀ j, k.table j ≠ some p) (slot : k.table i = none) :
    Partition (k.spawned p i) { q with run := q.run ++ [p] } := by
  obtain ⟨hoff, hact⟩ := h.off_fresh fresh
  have hactive : (k.spawned p i).active = k.active := by rw [spawned_eq]
  have htab : (k.spawned p i).table = Function.update k.table i (some p) := by rw [spawned_eq]
  refine h.move (t := p) (h.links.spawned hoff) rfl ?_ ?_
  · refine ⟨fun t ht => ?_, fun t ht => ?_, fun t ht => ?_, fun t _ => ?_, fun t ht => ?_,
      fun _ _ _ => Iff.rfl⟩
    · rw [spawned_eq]
      simp [ht]
    · rw [spawned_eq]
      simp [ht]
    · rw [Live, Live, htab]
      constructor
      · rintro ⟨j, hj⟩
        by_cases hji : j = i
        · rw [hji, Function.update_self, Option.some.injEq] at hj
          exact absurd hj.symm ht
        · rw [Function.update_of_ne hji] at hj
          exact ⟨j, hj⟩
      · rintro ⟨j, hj⟩
        have hji : j ≠ i := fun hji => by
          rw [hji, slot] at hj
          cases hj
        exact ⟨j, by rw [Function.update_of_ne hji]; exact hj⟩
    · rw [hactive]
    · simp only [List.mem_append, List.mem_singleton, ht, or_false]
  · refine InPlace.queued (by simp) hoff.ev ?_ ⟨i, ?_⟩ ?_
    · rw [spawned_eq]
      simp
    · rw [htab, Function.update_self]
    · rw [hactive]
      exact hact

/-- Clearing a fresh block. -/
theorem Partition.clear {k : Sched} {q : Lists} {p : Ptr} (h : Partition k q)
    (fresh : ∀ j, k.table j ≠ some p) :
    Partition { k with tcb := Function.update k.tcb p Tcb.zero } q := by
  obtain ⟨hoff, hact⟩ := h.off_fresh fresh
  have hst : (Function.update k.tcb p Tcb.zero p).state = .free := by
    rw [Function.update_self]
    rfl
  refine h.move (t := p) (h.links.clear hoff Tcb.zero) rfl ?_ ?_
  · refine ⟨fun t ht => ?_, fun t ht => ?_, fun _ _ => Iff.rfl, fun _ _ => Iff.rfl,
      fun _ _ => Iff.rfl, fun _ _ _ => Iff.rfl⟩ <;> simp only [Function.update_of_ne ht]
  · refine InPlace.off hoff ?_ ?_ ?_
    · simp only [hst]
      exact ⟨fun ha => absurd ha hact, fun hr => absurd hr (by decide)⟩
    · exact fun ⟨j, hj⟩ => absurd hj (fresh j)
    · exact fun _ => Or.inl hst

/-- Freeing a paused thread. -/
theorem Partition.reap {k : Sched} {q : Lists} {t : Ptr} {i : ℕ} (h : Partition k q)
    (hid : ∀ j, k.table j = some t → j = i) (live : k.table i = some t)
    (state : (k.tcb t).state = .paused) :
    Partition { k with table := Function.update k.table i none } q := by
  have hoff := h.off (p := t) (by simp [state]) (by simp [state])
  have hdead : ¬Live { k with table := Function.update k.table i none } t := by
    rintro ⟨j, hj⟩
    by_cases hji : j = i
    · simp [hji] at hj
    · simp only [Function.update_of_ne hji] at hj
      exact hji (hid j hj)
  refine h.move (t := t) (h.links.congr ?_) rfl ?_ ?_
  · exact ⟨fun _ => rfl, fun _ => rfl, fun _ _ => rfl, rfl, rfl, rfl, rfl⟩
  · refine ⟨fun _ _ => rfl, fun _ _ => rfl, fun p hp => ?_, fun _ _ => Iff.rfl,
      fun _ _ => Iff.rfl, fun _ _ _ => Iff.rfl⟩
    constructor
    · rintro ⟨j, hj⟩
      by_cases hji : j = i
      · simp [hji] at hj
      · simp only [Function.update_of_ne hji] at hj
        exact ⟨j, hj⟩
    · rintro ⟨j, hj⟩
      have hji : j ≠ i := by
        intro hji
        rw [hji, live, Option.some.injEq] at hj
        exact hp hj.symm
      exact ⟨j, by simp only [Function.update_of_ne hji]; exact hj⟩
  · exact InPlace.off hoff (h.place t).active (fun hl => absurd hl hdead) fun _ => Or.inr state

/-! ### One entry -/

/-- The actions of the scheduling core. -/
def CoreOk (k : Sched) : Act → Prop
  | .rewait _ => False
  | .kill _ => False
  | .request _ => False
  | .fault => False
  | .pause t => (k.tcb t).state ≠ .waiting
  | _ => True

instance (k : Sched) : ∀ a, Decidable (CoreOk k a)
  | .rewait _ | .kill _ | .request _ | .fault => isFalse id
  | .pause _ => inferInstanceAs (Decidable (_ ≠ _))
  | .other | .spawn | .reap _ | .yield | .resume _ | .wait _ _ | .reset _ | .irq _
  | .tick _ => isTrue trivial

/-- The waiters of each event after an action of the core. -/
def evAfter (k : Sched) (ev : ℕ → List Ptr) : Act → ℕ → List Ptr
  | .wait t e => if k.irqstate e = 0 then Function.update ev e (ev e ++ [t]) else ev
  | .irq n => Function.update ev n (ev n).tail
  | .tick fired => fun e => if e ∈ fired then (ev e).tail else ev e
  | _ => ev

/-- **The actions of the core keep every thread in its place**, and the waiters
move as `evAfter` says. -/
theorem Effect.partition {k k' : Sched} {a : Act} {q : Lists} (h : Effect k.image k a k')
    (hp : Partition k q) (hid : IdsOk k) (hinj : ∀ i p, k.table i = some p → (k.tcb p).id = i)
    (hen : k.active = some k.image ∨ (∃ n, a = .irq n) ∨ ∃ f, a = .tick f)
    (hok : CoreOk k a) : ∃ q', Partition k' q' ∧ q'.ev = evAfter k q.ev a := by
  have hrun : (∀ n, a ≠ .irq n) → (∀ f, a ≠ .tick f) → (k.tcb k.image).state = .running := by
    intro hi ht
    rcases hen with hact | ⟨n, hn⟩ | ⟨f, hf⟩
    · exact (hp.place _).active.mp hact
    · exact absurd hn (hi n)
    · exact absurd hf (ht f)
  cases h with
  | other => exact ⟨q, hp, rfl⟩
  | spawn fresh slot bound => exact ⟨_, hp.spawned fresh slot, rfl⟩
  | spawnFull fresh full => exact ⟨q, hp.clear fresh, rfl⟩
  | reap live state =>
    rename_i t i
    refine ⟨q, hp.reap (fun j hj => ?_) live state, rfl⟩
    have hids := (hinj j t hj).symm.trans (hinj i t live)
    exact Int.natCast_inj.mp hids
  | yield => exact ⟨_, hp.yield (hrun (by simp) (by simp)), rfl⟩
  | pauseRunning state => exact ⟨q, hp.halt state, rfl⟩
  | pauseQueued live state remv =>
    rename_i t r k₁
    have ht : t ∈ q.run := by
      rcases live with rfl | hlive
      · have hr := hrun (by simp) (by simp)
        rw [state] at hr
        cases hr
      · exact (hp.place t).run.mpr state
    have hact : k₁.active = k.active := by
      obtain ⟨n, hd, tl, rfl⟩ := scheduleRemv_withRun remv
      rfl
    refine ⟨_, hp.take (a := k₁.active) ht remv (Or.inr rfl) ?_ fun p _ => by rw [hact],
      rfl⟩
    rw [hact, (hp.place t).active, state]
    exact ⟨fun h => absurd h (by decide), fun h => absurd h (by decide)⟩
  | pauseWaiting state remv => exact absurd state hok
  | resume live state =>
    rename_i t i
    exact ⟨_, hp.resume ⟨i, live⟩ state, rfl⟩
  | rewait => exact hok.elim
  | rewaitBad => exact hok.elim
  | kill => exact hok.elim
  | request => exact hok.elim
  | wait live bound =>
    rename_i t e
    -- the caller is found under its own id
    have hc := hrun (by simp) (by simp)
    obtain ⟨i, hi⟩ := (hp.place k.image).live (by simp [hc]) (by simp [hc])
    rw [hid i _ hi, Option.some.injEq] at live
    subst live
    unfold Sched.waitOn
    by_cases hl : k.irqstate e = 0
    · simp only [hl, ne_eq, not_true_eq_false, if_false, evAfter, if_true]
      exact ⟨_, hp.sleep hc bound, rfl⟩
    · simp only [hl, ne_eq, not_false_eq_true, if_true, evAfter, if_false]
      exact ⟨_, hp.yield hc, rfl⟩
  | reset =>
    refine ⟨q, ⟨hp.links.congr ?_, hp.alone, fun p => ?_⟩, rfl⟩
    · exact ⟨fun _ => rfl, fun _ => rfl, fun _ _ => rfl, rfl, rfl, rfl, rfl⟩
    · exact (hp.place p).frame rfl rfl Iff.rfl Iff.rfl Iff.rfl fun _ => Iff.rfl
  | fault => exact hok.elim
  | irq =>
    exact hp.send _
  | tick virt distinct =>
    rename_i fired
    obtain ⟨q', hp', hev⟩ := hp.sends fired distinct
    unfold Sched.tick
    dsimp only
    split
    · rename_i hr
      exact ⟨_, hp'.yield hr, hev⟩
    · exact ⟨q', hp', hev⟩

theorem Picks.partition {k k' : Sched} {o : Option Ptr} {q : Lists} (h : Picks k o k')
    (hp : Partition k q) :
    ∃ q', Partition k' q' ∧ q'.ev = q.ev := by
  cases h with
  | same => exact ⟨q, hp, rfl⟩
  | idle => exact ⟨q, hp, rfl⟩
  | next active head remv =>
    rename_i t r k₁
    have hmem : t ∈ q.run := List.mem_of_head? (hp.links.run.first_eq.symm.trans head)
    refine ⟨_, hp.take (a := some t) hmem remv (Or.inl rfl) (by simp) fun p ht => ?_, rfl⟩
    rw [active, Option.some.injEq]
    exact ⟨fun he => absurd he.symm ht, fun hn => absurd hn (by simp)⟩

/-! ### The order of waking -/

/-- The threads of the table. -/
def Sched.threads (k : Sched) : List Ptr := (List.range THREAD_COUNT).filterMap k.table

/-- The thread is `TS_WAITING` on the event. -/
def Sched.waitsOn (k : Sched) (e : ℕ) (p : Ptr) : Bool :=
  decide ((k.tcb p).state = .waiting ∧ (k.tcb p).event = e)

/-- The threads that wait on the event after an entry and did not before. -/
def startedWaiting (k k' : Sched) (e : ℕ) : List Ptr :=
  k'.threads.filter fun p => k'.waitsOn e p && !k.waitsOn e p

/-- The threads that wait on the event before an entry and no longer after. -/
def wokenUp (k k' : Sched) (e : ℕ) : List Ptr :=
  k.threads.filter fun p => k.waitsOn e p && !k'.waitsOn e p

/-- For each event, who started waiting and who was woken, in order. -/
structure WaitLog where
  waited : ℕ → List Ptr
  woken : ℕ → List Ptr

def WaitLog.empty : WaitLog := ⟨fun _ => [], fun _ => []⟩

def WaitLog.observe (g : WaitLog) (k k' : Sched) : WaitLog :=
  ⟨fun e => g.waited e ++ startedWaiting k k' e, fun e => g.woken e ++ wokenUp k k' e⟩

theorem TableWf.mem_threads {s : Kernel} (h : TableWf s) {p : Ptr} :
    p ∈ s.toSched.threads ↔ Live s.toSched p := by
  rw [Sched.threads, List.mem_filterMap]
  constructor
  · rintro ⟨i, -, hi⟩
    exact ⟨i, hi⟩
  · rintro ⟨i, hi⟩
    exact ⟨i, List.mem_range.mpr (h.bound i p hi), hi⟩

theorem TableWf.nodup_threads {s : Kernel} (h : TableWf s) : s.toSched.threads.Nodup := by
  refine List.Nodup.filterMap ?_ List.nodup_range
  intro i j p hi hj
  have hids := (h.id_eq i p hi).symm.trans (h.id_eq j p hj)
  exact Int.natCast_inj.mp hids

theorem filter_eq_singleton {l : List Ptr} {f : Ptr → Bool} {t : Ptr} (hl : l.Nodup) (ht : t ∈ l)
    (hf : ∀ p ∈ l, f p = true ↔ p = t) : l.filter f = [t] := by
  have hnodup : (l.filter f).Nodup := hl.filter f
  refine List.perm_singleton.mp
    ((List.perm_ext_iff_of_nodup hnodup (List.nodup_singleton t)).mpr ?_)
  intro p
  rw [List.mem_filter, List.mem_singleton]
  constructor
  · rintro ⟨hp, hfp⟩
    exact (hf p hp).mp hfp
  · rintro rfl
    exact ⟨ht, (hf p ht).mpr rfl⟩

/-- An action of the core adds a waiter at the back, takes the front one, or leaves
the list alone. -/
theorem evAfter_cases (k : Sched) (ev : ℕ → List Ptr) (a : Act) (e : ℕ) :
    evAfter k ev a e = ev e ∨ (∃ t, evAfter k ev a e = ev e ++ [t]) ∨
      evAfter k ev a e = (ev e).tail := by
  cases a with
  | wait t e' =>
    simp only [evAfter]
    split
    · by_cases he : e = e'
      · subst he
        exact Or.inr (Or.inl ⟨t, by simp⟩)
      · exact Or.inl (Function.update_of_ne he _ _)
    · exact Or.inl rfl
  | irq n =>
    by_cases he : e = n
    · subst he
      exact Or.inr (Or.inr (by simp [evAfter]))
    · exact Or.inl (Function.update_of_ne he _ _)
  | tick fired =>
    by_cases he : e ∈ fired
    · exact Or.inr (Or.inr (by simp [evAfter, he]))
    · exact Or.inl (by simp [evAfter, he])
  | _ => exact Or.inl rfl

theorem Partition.waitsOn_iff {k : Sched} {q : Lists} (h : Partition k q) {e : ℕ} {p : Ptr} :
    k.waitsOn e p = true ↔ p ∈ q.ev e := by
  rw [Sched.waitsOn, decide_eq_true_eq, (h.place p).ev]

theorem Partition.mem_threads {s : Kernel} {q : Lists} (hw : TableWf s)
    (h : Partition s.toSched q) {e : ℕ} {p : Ptr} (hp : p ∈ q.ev e) : p ∈ s.toSched.threads := by
  have hst := (((h.place p).ev e).mp hp).1
  exact hw.mem_threads.mpr ((h.place p).live (by simp [hst]) (by simp [hst]))

/-- No thread starts waiting when the list of waiters does not grow. -/
theorem startedWaiting_nil {k k' : Sched} {q q' : Lists} {e : ℕ} (h : Partition k q)
    (h' : Partition k' q') (hsub : ∀ p ∈ q'.ev e, p ∈ q.ev e) : startedWaiting k k' e = [] := by
  rw [startedWaiting, List.filter_eq_nil_iff]
  intro p _
  rw [Bool.and_eq_true, Bool.not_eq_true', not_and, Bool.not_eq_false, h'.waitsOn_iff,
    h.waitsOn_iff]
  exact hsub p

theorem wokenUp_nil {k k' : Sched} {q q' : Lists} {e : ℕ} (h : Partition k q)
    (h' : Partition k' q') (hsub : ∀ p ∈ q.ev e, p ∈ q'.ev e) : wokenUp k k' e = [] := by
  rw [wokenUp, List.filter_eq_nil_iff]
  intro p _
  rw [Bool.and_eq_true, Bool.not_eq_true', not_and, Bool.not_eq_false, h'.waitsOn_iff,
    h.waitsOn_iff]
  exact hsub p

/-- What an entry does to the waiters is what the logs observe. -/
theorem Partition.observed {s s' : Kernel} {q q' : Lists} (hw : TableWf s) (hw' : TableWf s')
    (h : Partition s.toSched q) (h' : Partition s'.toSched q') {e : ℕ}
    (hm : q'.ev e = q.ev e ∨ (∃ t, q'.ev e = q.ev e ++ [t]) ∨ q'.ev e = (q.ev e).tail) :
    q.ev e ++ startedWaiting s.toSched s'.toSched e =
      wokenUp s.toSched s'.toSched e ++ q'.ev e := by
  rcases hm with heq | ⟨t, heq⟩ | heq
  · rw [startedWaiting_nil h h' fun p hp => heq ▸ hp, wokenUp_nil h h' fun p hp => heq ▸ hp, heq,
      List.append_nil, List.nil_append]
  · rw [wokenUp_nil h h' fun p hp => by rw [heq]; exact List.mem_append_left _ hp,
      List.nil_append, heq]
    have ht' : t ∈ q'.ev e := by rw [heq]; simp
    have ht : t ∉ q.ev e := by
      have hnodup := (h'.links.ev.rep e).nodup
      rw [heq] at hnodup
      exact fun htl => (List.nodup_append.mp hnodup).2.2 t htl t (List.mem_singleton_self t) rfl
    have hstarted : startedWaiting s.toSched s'.toSched e = [t] := by
      refine filter_eq_singleton hw'.nodup_threads (h'.mem_threads hw' ht') fun p _ => ?_
      rw [Bool.and_eq_true, Bool.not_eq_true', ← Bool.not_eq_true, h'.waitsOn_iff, h.waitsOn_iff,
        heq, List.mem_append, List.mem_singleton]
      constructor
      · rintro ⟨hp | hp, hn⟩
        · exact absurd hp hn
        · exact hp
      · rintro rfl
        exact ⟨Or.inr rfl, ht⟩
    rw [hstarted]
  · cases hl : q.ev e with
    | nil =>
      rw [hl, List.tail_nil] at heq
      rw [startedWaiting_nil h h' fun p hp => by rw [heq] at hp; exact absurd hp List.not_mem_nil,
        wokenUp_nil h h' fun p hp => by rw [hl] at hp; exact absurd hp List.not_mem_nil, heq]
    | cons t l =>
      rw [hl, List.tail_cons] at heq
      rw [startedWaiting_nil h h' fun p hp => by
          rw [hl]; exact List.mem_cons_of_mem t (heq ▸ hp), List.append_nil, heq]
      have ht : t ∉ l := by
        have hnodup := (h.links.ev.rep e).nodup
        rw [hl] at hnodup
        exact (List.nodup_cons.mp hnodup).1
      have hmem : t ∈ q.ev e := by rw [hl]; exact List.mem_cons_self
      have hwoken : wokenUp s.toSched s'.toSched e = [t] := by
        refine filter_eq_singleton hw.nodup_threads (h.mem_threads hw hmem) fun p _ => ?_
        rw [Bool.and_eq_true, Bool.not_eq_true', ← Bool.not_eq_true, h'.waitsOn_iff, h.waitsOn_iff,
          hl, heq, List.mem_cons]
        constructor
        · rintro ⟨hp | hp, hn⟩
          · exact hp
          · exact absurd hp hn
        · rintro rfl
          exact ⟨Or.inl rfl, ht⟩
      rw [hwoken, List.singleton_append]

/-! ### Runs -/

/-- One entry, with the logs. -/
def Kernel.logged (x : Kernel × WaitLog) (i : Input) : Except Stop (Kernel × WaitLog) :=
  (fun s' => (s', x.2.observe x.1.toSched s'.toSched)) <$> x.1.next i

/-- The states reached by runs of the scheduling core, with the logs. -/
def CoreReach : Kernel × WaitLog → Prop :=
  Reachable Kernel.logged (fun x i => i.Enabled x.1.toSched ∧ CoreOk x.1.toSched (i.act x.1))
    fun x => Init x.1 ∧ x.2 = WaitLog.empty

theorem Init.partition {s : Kernel} (h : Init s) :
    Partition s.toSched ⟨[], fun _ => [], fun _ => []⟩ := by
  obtain ⟨-, p, i, hs⟩ := h.cases
  have hoff : ∀ t, Lists.Off ⟨[], fun _ => [], fun _ => []⟩ t := fun t =>
    ⟨List.not_mem_nil, fun _ => List.not_mem_nil, fun _ => List.not_mem_nil⟩
  refine ⟨⟨?_, ⟨?_, ?_⟩, ?_⟩, fun _ => rfl, fun t => InPlace.off (hoff t) ?_ ?_ ?_⟩
  · rw [hs]
    exact Rep.empty _
  · intro e
    rw [hs]
    exact Rep.empty _
  · intro e e' _ t ht
    exact absurd ht List.not_mem_nil
  · intro v
    rw [hs]
    exact Rep.empty _
  · rw [hs]
    by_cases ht : t = p
    · simp [ht]
    · simp [Function.update_of_ne ht, Tcb.zero, Ne.symm ht]
  · rintro ⟨j, hj⟩
    rw [hs] at hj ⊢
    by_cases hji : j = i
    · simp only [hji, Function.update_self, Option.some.injEq] at hj
      simp [← hj]
    · simp [Function.update_of_ne hji] at hj
  · intro hl
    have ht : t ≠ p := by
      rintro rfl
      exact hl ⟨i, by rw [hs]; simp⟩
    rw [hs]
    simp [Function.update_of_ne ht, Tcb.zero]

/-- The invariant of a run of the core. -/
structure CoreInv (x : Kernel × WaitLog) (q : Lists) : Prop where
  table : TableWf x.1
  part : Partition x.1.toSched q
  order : ∀ e, x.2.waited e = x.2.woken e ++ q.ev e

theorem CoreReach.inv {x : Kernel × WaitLog} (h : CoreReach x) : ∃ q, CoreInv x q := by
  refine Reachable.invariant (fun x => ∃ q, CoreInv x q) ?_ ?_ h
  · rintro ⟨s, g⟩ ⟨hinit, rfl⟩
    exact ⟨_, hinit.cases.1, hinit.partition, fun _ => rfl⟩
  · rintro ⟨s, g⟩ i x' - ⟨q, hw, hp, horder⟩ ⟨hen, hok⟩ hstep
    obtain ⟨s', hs, rfl⟩ := map_eq_ok.mp hstep
    obtain ⟨k, o, heff, hpick, hw'⟩ := next_cases hw hs
    obtain ⟨q₁, hp₁, hev₁⟩ := heff.partition hp hw.idsOk hw.id_eq (Input.enabled_cases hen) hok
    obtain ⟨q₂, hp₂, hev₂⟩ := hpick.partition hp₁
    refine ⟨q₂, hw', hp₂, fun e => ?_⟩
    have hmoves := evAfter_cases s.toSched q.ev (i.act s) e
    rw [← hev₁, ← hev₂] at hmoves
    have hobs := Partition.observed hw hw' hp hp₂ hmoves
    calc g.waited e ++ startedWaiting s.toSched s'.toSched e
        = g.woken e ++ (q.ev e ++ startedWaiting s.toSched s'.toSched e) := by
          rw [horder e, List.append_assoc]
      _ = g.woken e ++ (wokenUp s.toSched s'.toSched e ++ q₂.ev e) := by rw [hobs]
      _ = (g.woken e ++ wokenUp s.toSched s'.toSched e) ++ q₂.ev e := by rw [List.append_assoc]

/-- **The scheduling core is a partition**: along every run, the run queue and the
event queues are duplicate-free lists that end where the kernel says; a thread of
the table is queued iff it is on the run queue, waiting iff it is on the queue of
its event (and then on no other event's), running iff it is active, and paused iff
it is in none of these places; and threads are woken in the order they started
waiting. -/
theorem scheduling_core_partition {s : Kernel} {g : WaitLog} (h : CoreReach (s, g)) :
    ∃ (run : List Ptr) (ev : ℕ → List Ptr),
      RunQ s.toSched run ∧ (∀ e, EvQ s.toSched e (ev e)) ∧
      (∀ i p, s.table i = some p →
        ((s.tcb p).state = .queued ↔ p ∈ run) ∧
        ((s.tcb p).state = .waiting ↔ ∃ e < EV_COUNT, (s.tcb p).event = (e : ℕ) ∧ p ∈ ev e) ∧
        (∀ e, p ∈ ev e → (s.tcb p).event = e) ∧
        ((s.tcb p).state = .running ↔ s.active = some p) ∧
        ((s.tcb p).state = .paused ↔ p ∉ run ∧ (∀ e, p ∉ ev e) ∧ s.active ≠ some p)) ∧
      ∀ e, g.waited e = g.woken e ++ ev e := by
  obtain ⟨q, -, hp, horder⟩ := h.inv
  refine ⟨q.run, q.ev, hp.links.run, hp.links.ev.rep, fun i p hi => ?_, horder⟩
  have hplace := hp.place p
  refine ⟨hplace.run.symm, ⟨fun hst => ?_, ?_⟩, fun e he => ((hplace.ev e).mp he).2,
    hplace.active.symm, ?_, ?_⟩
  · obtain ⟨e, he, hevent⟩ := hplace.event hst
    exact ⟨e, he, hevent, (hplace.ev e).mpr ⟨hst, hevent⟩⟩
  · rintro ⟨e, -, -, he⟩
    exact ((hplace.ev e).mp he).1
  · intro hst
    have hoff := hp.off (p := p) (by simp [hst]) (by simp [hst])
    refine ⟨hoff.run, hoff.ev, fun hact => ?_⟩
    have hr := hplace.active.mp hact
    rw [hst] at hr
    cases hr
  · rintro ⟨hr, he, hact⟩
    obtain ⟨hfree, hpw⟩ := hplace.known ⟨i, hi⟩
    cases hst : (s.tcb p).state with
    | free => exact absurd hst hfree
    | queued => exact absurd (hplace.run.mpr hst) hr
    | running => exact absurd (hplace.active.mpr hst) hact
    | waiting =>
      obtain ⟨e, -, hevent⟩ := hplace.event hst
      exact absurd ((hplace.ev e).mpr ⟨hst, hevent⟩) (he e)
    | paused => rfl
    | pausedw => exact absurd hst hpw

/-- Threads 1 and 0 wait on IRQ 5, which arrives once: thread 1 is woken, thread 0
still waits. -/
theorem scheduling_core_partition_irq : ∃ s g, CoreReach (s, g) ∧ (g.waited 5).length = 2 ∧
    (g.woken 5).length = 1 ∧ ∃ ev : ℕ → List Ptr, EvQ s.toSched 5 (ev 5) ∧ (ev 5).length = 1 := by
  have hrun : ((bootstrap flatMem 0 0 0).toOption.bind fun s =>
      replay Kernel.logged
        (fun x i => i.Enabled x.1.toSched ∧ CoreOk x.1.toSched (i.act x.1))
        [callOf 0x02 0, irqOf 0, callOf 0x0D 5, callOf 0x0D 5, irqOf 5] (s, WaitLog.empty)).any
      (fun x => (x.2.waited 5).length = 2 && (x.2.woken 5).length = 1) = true := by
    decide +kernel
  obtain ⟨⟨s, g⟩, hx, hlen⟩ := (Option.any_eq_true _ _).mp hrun
  obtain ⟨s₀, h₀, hx⟩ := Option.bind_eq_some_iff.mp hx
  have hreach : CoreReach (s, g) := Reachable.of_replay
    (.start ⟨⟨flatMem, 0, 0, 0, .empty rfl fun _ => rfl, toOption_eq_some.mp h₀⟩, rfl⟩) hx
  rw [Bool.and_eq_true, decide_eq_true_eq, decide_eq_true_eq] at hlen
  obtain ⟨run, ev, -, hev, -, horder⟩ := scheduling_core_partition hreach
  refine ⟨s, g, hreach, hlen.1, hlen.2, ev, hev 5, ?_⟩
  have hlength := congrArg List.length (horder 5)
  rw [List.length_append, hlen.1, hlen.2] at hlength
  omega

end Pinion
