/-
The search loops of the scheduler end.

`schedule_remv` and `event_remv` follow `next` until it is null.  They do so in every
state the kernel reaches, also where a defect has cut a queue or has linked a thread
twice: no operation closes a circle.  In the same states a thread that waits does so on an
event in range.
* `findPrev_total` — the loop returns where the links come to an end;
* `Steady` — all links come to an end, and waiting threads wait in range;
* `Steady.makeReady`, …, `Steady.tick` — the operations of the scheduler keep this;
* `Effect.steady`, `Picks.steady`, `KernelReach.steady` — so does every entry.
-/
import Pinion.Handlers
import Pinion.Active

open LinkedQueue Runs

namespace Pinion

/-! ### The loop -/

/-- The search ends at the end of the queue at the latest. -/
theorem findPrev_of_rep {next : Ptr → Option Ptr} {t a : Ptr} {l : List Ptr} :
    ∀ {n : ℕ} {first last : Option Ptr}, (a :: l).length ≤ n → Rep next first last (a :: l) →
      ∃ r, findPrev next t n a = .ok r := by
  induction l generalizing a with
  | nil =>
    intro n first last hn hr
    obtain ⟨n, rfl⟩ : ∃ m, n = m + 1 := ⟨n - 1, by simp at hn; omega⟩
    rw [findPrev, hr.next_first]
    exact ⟨none, rfl⟩
  | cons b l ih =>
    intro n first last hn hr
    obtain ⟨n, rfl⟩ : ∃ m, n = m + 1 := ⟨n - 1, by simp at hn; omega⟩
    rw [findPrev, hr.next_first]
    by_cases hbt : b = t
    · exact ⟨some a, if_pos hbt⟩
    · obtain ⟨r, hrest⟩ := ih (by simp at hn ⊢; omega) hr.pop
      exact ⟨r, (if_neg hbt).trans hrest⟩

theorem findPrev_total {next : Ptr → Option Ptr} {a : Ptr} (h : Terminates next a) (t : Ptr) :
    ∃ r, findPrev next t addressSpace a = .ok r := by
  obtain ⟨last, l, hl⟩ := h.exists_rep
  exact findPrev_of_rep (nodup_length_le hl.nodup) hl

/-- What is found is linked to what was looked for. -/
theorem findPrev_next {next : Ptr → Option Ptr} {t p : Ptr} {n : ℕ} :
    ∀ {a : Ptr}, findPrev next t n a = .ok (some p) → next p = some t := by
  induction n with
  | zero =>
    intro a h
    cases h
  | succ n ih =>
    intro a h
    rw [findPrev] at h
    split at h
    · cases h
    · rename_i b hb
      split at h
      · rename_i hbt
        cases h
        exact hb.trans (congrArg some hbt)
      · exact ih h

/-! ### The invariant -/

/-- The thread waits for an event, or is paused while it waits. -/
def TState.Waits (st : TState) : Prop := st = .waiting ∨ st = .pausedw

/-- All `next` links come to an end, and who waits does so on an event in range. -/
structure Steady (k : Sched) : Prop where
  ends : ∀ p, Terminates k.next p
  events : ∀ p, (k.tcb p).state.Waits → 0 ≤ (k.tcb p).event ∧ (k.tcb p).event < EV_COUNT

section Operations

variable {k k' : Sched} {t : Ptr}

/-- Links, states and events may be the same. -/
theorem Steady.same (h : Steady k) (hn : ∀ p, (k'.tcb p).next = (k.tcb p).next)
    (hs : ∀ p, (k'.tcb p).state = (k.tcb p).state) (he : ∀ p, (k'.tcb p).event = (k.tcb p).event) :
    Steady k' := by
  have hnext : k'.next = k.next := funext hn
  refine ⟨fun p => ?_, fun p hw => ?_⟩
  · rw [hnext]
    exact h.ends p
  · rw [hs] at hw
    rw [he]
    exact h.events p hw

theorem setState_next (k : Sched) (t p : Ptr) (st : TState) :
    ((k.setState t st).tcb p).next = (k.tcb p).next ∧
      ((k.setState t st).tcb p).event = (k.tcb p).event := by
  by_cases hp : p = t
  · subst hp
    simp [Sched.setState, Sched.upd]
  · simp [Sched.setState, Sched.upd, hp]

/-- Another state for a thread, one in which it does not wait or waits in range. -/
theorem Steady.setState (h : Steady k) (t : Ptr) {st : TState}
    (hst : st.Waits → 0 ≤ (k.tcb t).event ∧ (k.tcb t).event < EV_COUNT) :
    Steady (k.setState t st) := by
  have hnext : (k.setState t st).next = k.next := funext fun p => (setState_next k t p st).1
  refine ⟨fun p => ?_, fun p hw => ?_⟩
  · rw [hnext]
    exact h.ends p
  · rw [setState_state] at hw
    rw [(setState_next k t p st).2]
    by_cases hp : p = t
    · rw [if_pos hp] at hw
      exact hp ▸ hst hw
    · rw [if_neg hp] at hw
      exact h.events p hw

theorem not_waits_paused : ¬TState.paused.Waits := by
  rintro (h | h) <;> cases h

theorem not_waits_queued : ¬TState.queued.Waits := by
  rintro (h | h) <;> cases h

theorem not_waits_running : ¬TState.running.Waits := by
  rintro (h | h) <;> cases h

/-- A thread made ready waits no more, whatever its event is. -/
theorem steady_makeReady (hends : ∀ p, Terminates k.next p)
    (hevents : ∀ p, p ≠ t → (k.tcb p).state.Waits →
      0 ≤ (k.tcb p).event ∧ (k.tcb p).event < EV_COUNT) : Steady (makeReady k t) := by
  rw [makeReady_eq]
  refine ⟨fun p => (hends p).push fun c => rfl, fun p hw => ?_⟩
  dsimp only at hw ⊢
  split_ifs at hw with hp
  · exact absurd hw not_waits_queued
  · exact hevents p hp hw

theorem Steady.makeReady (h : Steady k) (t : Ptr) : Steady (makeReady k t) :=
  steady_makeReady h.ends fun p _ => h.events p

theorem Steady.release (h : Steady k) : Steady k.release :=
  h.same (fun _ => rfl) (fun _ => rfl) fun _ => rfl

/-- `schedule_remv` returns and keeps all links terminating. -/
theorem Steady.scheduleRemv (h : Steady k) (t : Ptr) :
    ∃ r k', scheduleRemv k t = .ok (r, k') ∧ Steady k' ∧
      ∀ p, (k'.tcb p).state = (k.tcb p).state := by
  cases hh : k.schedHead with
  | none => exact ⟨1, k, by simp only [Pinion.scheduleRemv, hh], h, fun _ => rfl⟩
  | some head =>
    by_cases hth : t = head
    · subst hth
      exact ⟨_, _, scheduleRemv_head hh, h.same (fun _ => rfl) (fun _ => rfl) fun _ => rfl,
        fun _ => rfl⟩
    · obtain ⟨o, hf⟩ := findPrev_total (h.ends head) t
      cases o with
      | none => exact ⟨1, k, scheduleRemv_notFound hh hth hf, h, fun _ => rfl⟩
      | some t1 =>
        refine ⟨_, _, scheduleRemv_found hh hth hf, ⟨fun p => ?_, h.events⟩, fun _ => rfl⟩
        exact (h.ends p).unlink (findPrev_next hf) fun c => Function.update_apply _ _ _ _

/-- `event_remv` returns, and keeps all links terminating. -/
theorem Steady.eventRemv (h : Steady k) (id e : ℤ) :
    ∃ r k', eventRemv k id e = .ok (r, k') ∧ Steady k' ∧
      ∀ p, (k'.tcb p).event = (k.tcb p).event := by
  have hsame : Steady k ∧ ∀ p, (k.tcb p).event = (k.tcb p).event := ⟨h, fun _ => rfl⟩
  unfold Pinion.eventRemv
  split
  · exact ⟨1, k, rfl, hsame⟩
  · rename_i t _
    split
    · exact ⟨1, k, rfl, hsame⟩
    · dsimp only
      split
      · exact ⟨1, k, rfl, hsame⟩
      · rename_i front _
        split
        · exact ⟨_, _, rfl, h.same (fun _ => rfl) (fun _ => rfl) fun _ => rfl, fun _ => rfl⟩
        · obtain ⟨o, hf⟩ := findPrev_total (h.ends front) t
          have hf' : findPrev (fun t => (k.tcb t).next) t addressSpace front = .ok o := hf
          rw [hf']
          cases o with
          | none => exact ⟨1, k, rfl, hsame⟩
          | some t1 =>
            have hcut : Steady (k.upd t1 fun b => { b with next := (k.tcb t).next }) ∧
                ∀ p, ((k.upd t1 fun b => { b with next := (k.tcb t).next }).tcb p).event =
                  (k.tcb p).event := by
              have hevent : ∀ p, ((k.upd t1 fun b => { b with next := (k.tcb t).next }).tcb p).event =
                  (k.tcb p).event := by
                intro p
                by_cases hp : p = t1
                · simp [Sched.upd, hp]
                · simp [Sched.upd, hp]
              refine ⟨⟨fun p => (h.ends p).unlink (findPrev_next hf) fun c => ?_, fun p hw => ?_⟩,
                hevent⟩
              · by_cases hc : c = t1
                · simp [Sched.next, Sched.upd, hc]
                · simp [Sched.next, Sched.upd, hc]
              · rw [hevent]
                refine h.events p ?_
                by_cases hp : p = t1
                · simpa [Sched.upd, hp] using hw
                · simpa [Sched.upd, hp] using hw
            refine ⟨_, _, rfl, ?_⟩
            split
            · exact ⟨hcut.1.same (fun _ => rfl) (fun _ => rfl) fun _ => rfl, hcut.2⟩
            · exact hcut

/-! ### Queues of events and of reports -/

theorem Rdv.setLink_same (q : Rdv) (n : Option Ptr) (b : Tcb) :
    (q.setLink n b).next = b.next ∧ (q.setLink n b).event = b.event := by
  cases q <;> exact ⟨rfl, rfl⟩

theorem Steady.setLink (h : Steady k) (q : Rdv) (n : Option Ptr) (t : Ptr) :
    Steady (k.upd t (q.setLink n)) := by
  have hsame : ∀ p, ((k.upd t (q.setLink n)).tcb p).next = (k.tcb p).next ∧
      ((k.upd t (q.setLink n)).tcb p).state = (k.tcb p).state ∧
      ((k.upd t (q.setLink n)).tcb p).event = (k.tcb p).event := by
    intro p
    by_cases hp : p = t
    · subst hp
      simp [Sched.upd, Rdv.setLink_same, Rdv.setLink_state]
    · simp [Sched.upd, hp]
  exact h.same (fun p => (hsame p).1) (fun p => (hsame p).2.1) fun p => (hsame p).2.2

theorem Steady.rdvInsert (h : Steady k) (q : Rdv) (t : Ptr) : Steady (rdvInsert q k t) := by
  unfold Pinion.rdvInsert
  cases (k.ends q).head with
  | none => exact h.same (fun _ => rfl) (fun _ => rfl) fun _ => rfl
  | some b =>
    exact ((h.setLink q _ b).setLink q _ t).same (fun _ => rfl) (fun _ => rfl) fun _ => rfl

theorem Steady.report (h : Steady k) (v : Side) (t : Ptr) : Steady (k.report v t) := by
  unfold Sched.report
  cases (k.ends v.waiters).tail with
  | none => exact h.rdvInsert _ _
  | some w =>
    have hadv : Steady (rdvAdvance v.waiters k (v.waiters.link (k.tcb w))) :=
      h.same (fun _ => rfl) (fun _ => rfl) fun _ => rfl
    exact hadv.makeReady w

theorem Steady.request (h : Steady k) (v : Side) (c : Ptr) : Steady (k.request v c) := by
  unfold Sched.request
  cases (k.ends v.items).tail with
  | none => exact (h.release.setState c fun hw => absurd hw not_waits_paused).rdvInsert _ _
  | some d => exact h.same (fun _ => rfl) (fun _ => rfl) fun _ => rfl

/-- The thread `event_send` wakes waits no more. -/
theorem Steady.send (h : Steady k) (e : ℕ) : Steady (k.send e) := by
  have hwake : Steady (k.wake e) := by
    unfold Sched.wake
    cases (k.evqueue e).frontThread with
    | none => exact h
    | some t =>
      refine steady_makeReady (fun p => ?_) fun p hp hw => ?_
      · have hnext : Sched.next { (evqueuePop k e t).upd t (fun b => { b with event := -1 }) with
            active := if (k.tcb t).state = .running then none else k.active } = k.next := by
          funext p
          by_cases hp : p = t
          · simp [Sched.next, Sched.upd, evqueuePop, Sched.setEvqueue, hp]
          · simp [Sched.next, Sched.upd, evqueuePop, Sched.setEvqueue, hp]
        rw [hnext]
        exact h.ends p
      · simp only [Sched.upd, evqueuePop, Sched.setEvqueue, Function.update_of_ne hp] at hw ⊢
        exact h.events p hw
  exact hwake.same (fun _ => rfl) (fun _ => rfl) fun _ => rfl

theorem Steady.sends (fired : List ℕ) :
    ∀ {k : Sched}, Steady k → Steady (fired.foldl Sched.send k) := by
  induction fired with
  | nil =>
    intro k h
    exact h
  | cons e l ih =>
    intro k h
    exact ih (h.send e)

theorem Steady.tick (h : Steady k) (c : Ptr) (fired : List ℕ) : Steady (k.tick c fired) := by
  have hsent := h.sends fired
  unfold Sched.tick
  dsimp only
  split
  · exact hsent.release.makeReady c
  · exact hsent

/-- `event_wait` for an event in range. -/
theorem Steady.waitOn (h : Steady k) (t : Ptr) {e : ℕ} (he : e < EV_COUNT) :
    Steady (k.waitOn t e) := by
  unfold Sched.waitOn
  split
  · exact h.release.makeReady t
  · have hrange : (0 : ℤ) ≤ e ∧ (e : ℤ) < EV_COUNT := by omega
    have hpush : Steady (evqueuePush k e t) := by
      rw [evqueuePush_eq]
      refine ⟨h.ends, fun p hw => ?_⟩
      dsimp only
      split_ifs
      · exact hrange
      · exact h.events p hw
    refine hpush.release.setState t fun _ => ?_
    have hevent : ((evqueuePush k e t).release.tcb t).event = e := by
      rw [evqueuePush_eq]
      exact if_pos rfl
    rw [hevent]
    exact hrange

/-- A new thread, or a cleared block that gets no slot. -/
theorem Steady.cleared (h : Steady k) (p : Ptr) :
    Steady { k with tcb := Function.update k.tcb p Tcb.zero } := by
  have hnext : ∀ c, Sched.next { k with tcb := Function.update k.tcb p Tcb.zero } c =
      if c = p then none else if none = some c then some p else k.next c := by
    intro c
    by_cases hc : c = p
    · simp [Sched.next, hc, Tcb.zero]
    · simp [Sched.next, hc]
  refine ⟨fun q => (h.ends q).push hnext, fun q hw => ?_⟩
  · by_cases hq : q = p
    · simp only [hq, Function.update_self] at hw
      rcases hw with hw | hw <;> cases hw
    · simp only [Function.update_of_ne hq] at hw ⊢
      exact h.events q hw

theorem Steady.spawned (h : Steady k) (p : Ptr) (i : ℕ) : Steady (k.spawned p i) := by
  have hnext : ∀ c, (k.spawned p i).next c =
      if c = p then none else if k.schedTail = some c then some p else k.next c := by
    intro c
    rw [spawned_eq]
    by_cases hc : c = p
    · simp [Sched.next, hc, Tcb.zero]
    · simp [Sched.next, hc]
  refine ⟨fun q => (h.ends q).push hnext, fun q hw => ?_⟩
  rw [spawned_eq] at hw ⊢
  dsimp only at hw ⊢
  by_cases hq : q = p
  · rw [if_pos hq] at hw
    exact absurd hw not_waits_queued
  · rw [if_neg hq] at hw ⊢
    exact h.events q hw

end Operations

/-! ### Every entry -/

/-- Whatever an entry does, links terminate and waiting threads wait in range. -/
theorem Effect.steady {c : Ptr} {k k' : Sched} {a : Act} (heff : Effect c k a k')
    (h : Steady k) : Steady k' := by
  cases heff with
  | other => exact h
  | spawn => exact h.spawned _ _
  | spawnFull => exact h.cleared _
  | reap => exact h.same (fun _ => rfl) (fun _ => rfl) fun _ => rfl
  | yield => exact h.release.makeReady c
  | pauseRunning => exact h.release.setState _ fun hw => absurd hw not_waits_paused
  | @pauseQueued t r k₁ _ _ remv =>
    obtain ⟨r', k₂, hremv, hk₂, -⟩ := h.scheduleRemv t
    cases hremv.symm.trans remv
    exact hk₂.setState _ fun hw => absurd hw not_waits_paused
  | @pauseWaiting t r k₁ state remv =>
    obtain ⟨r', k₂, hremv, hk₂, hevent⟩ := h.eventRemv (k.tcb t).id (k.tcb t).event
    cases hremv.symm.trans remv
    refine hk₂.setState _ fun _ => ?_
    rw [hevent]
    exact h.events t (.inl state)
  | resume => exact h.makeReady _
  | @rewait t i e live state event bound =>
    refine (h.waitOn t bound).setState t fun _ => ?_
    have hkeep : ((k.waitOn t e).tcb t).event = (k.tcb t).event ∨
        ((k.waitOn t e).tcb t).event = e := by
      unfold Sched.waitOn
      split
      · rw [makeReady_eq]
        exact .inl rfl
      · rw [(setState_next _ t t _).2, evqueuePush_eq]
        exact .inr (if_pos rfl)
    have hrange : (0 : ℤ) ≤ e ∧ (e : ℤ) < EV_COUNT := by omega
    rcases hkeep with hkeep | hkeep
    · rw [hkeep, event]
      exact hrange
    · rw [hkeep]
      exact hrange
  | @rewaitBad t state event =>
    have hrange := h.events t (.inr state)
    exact h.setState t fun _ => hrange
  | kill =>
    unfold Sched.kill
    split
    · exact (h.release.setState _ fun hw => absurd hw not_waits_paused).report _ _
    · exact h.report _ _
  | request => exact h.request _ _
  | wait _ bound => exact h.waitOn _ bound
  | reset => exact h.same (fun _ => rfl) (fun _ => rfl) fun _ => rfl
  | fault => exact (h.release.setState _ fun hw => absurd hw not_waits_paused).report _ _
  | irq => exact h.send _
  | tick => exact h.tick _ _

theorem Picks.steady {k k' : Sched} {o : Option Ptr} (hp : Picks k o k') (h : Steady k) :
    Steady k' := by
  cases hp with
  | same => exact h
  | idle => exact h
  | @next t r k₁ _ _ remv =>
    obtain ⟨r', k₂, hremv, hk₂, -⟩ := h.scheduleRemv t
    cases hremv.symm.trans remv
    have hactive : Steady { k₁ with active := some t } :=
      hk₂.same (fun _ => rfl) (fun _ => rfl) fun _ => rfl
    exact hactive.setState t fun hw => absurd hw not_waits_running

theorem Init.steady {s : Kernel} (h : Init s) : Steady s.toSched := by
  obtain ⟨-, p, i, hs⟩ := h.cases
  rw [hs]
  refine ⟨fun q => .last ?_, fun q hw => ?_⟩
  · by_cases hq : q = p
    · simp [Sched.next, hq, Tcb.zero]
    · simp [Sched.next, hq, Tcb.zero]
  · by_cases hq : q = p
    · simp only [hq, Function.update_self] at hw
      exact absurd hw not_waits_running
    · simp only [Function.update_of_ne hq] at hw
      rcases hw with hw | hw <;> cases hw

/-- **In every state the kernel reaches** the searches end, and who waits does so on an
event in range. -/
theorem KernelReach.steady {ok : Kernel → Input → Prop} {s : Kernel} (h : KernelReach ok s) :
    Steady s.toSched := by
  refine Reachable.invariant (fun s => Steady s.toSched) (fun s hs => hs.steady)
    (fun s i s' hreach hr hok hs => ?_) h
  obtain ⟨k, o, heff, hpick, -⟩ := next_cases (KernelReach.tableWf hreach) hs
  exact hpick.steady (heff.steady hr)

end Pinion
