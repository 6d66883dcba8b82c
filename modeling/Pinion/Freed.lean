/-
No queue holds a freed thread.

`REAP` frees a thread that is `TS_PAUSED`, wherever it is linked.  On top of
`Sound`, `Items k d` says that the dead and fault queues hold the lists of `d`,
whose members are in the table; a thread reported twice cuts off those queued
behind it, which the lists follow.

* `FreeOk` — the actions that keep it: those of `BlockOk`, where `REAP` also
  leaves the dead and fault queues alone, a report enters an empty queue with a
  null link, and a fault is pulled by a `next` equal to its `next_fault`;
* `Effect.items`, `Picks.items` — the step lemmas;
* `no_freed_references` — along every run of such actions, whatever is reached
  from the active thread or a queue is in the table, under its own id.
-/
import Pinion.Blocked

open LinkedQueue Runs

namespace Pinion

/-- The dead and fault queues hold the lists of `d`; while one holds a thread,
nobody waits on its side. -/
structure Items (k : Sched) (d : Side → List Ptr) : Prop where
  rep : ∀ v : Side, StrictQ k v.items (d v)
  live : ∀ v, ∀ p ∈ d v, Live k p
  alone : ∀ v : Side, d v ≠ [] → (k.ends v.waiters).tail = none

/-- The links and ends of the four queues, and the table, do not differ. -/
structure SameRdv (k k' : Sched) : Prop where
  link : ∀ (q : Rdv) (p : Ptr), q.link (k'.tcb p) = q.link (k.tcb p)
  ends : k'.ends = k.ends
  table : k'.table = k.table

theorem SameRdv.refl (k : Sched) : SameRdv k k := ⟨fun _ _ => rfl, rfl, rfl⟩

theorem SameRdv.trans {k₁ k₂ k₃ : Sched} (h : SameRdv k₁ k₂) (h' : SameRdv k₂ k₃) :
    SameRdv k₁ k₃ :=
  ⟨fun q p => (h'.link q p).trans (h.link q p), h'.ends.trans h.ends, h'.table.trans h.table⟩

theorem Items.congr {k k' : Sched} {d : Side → List Ptr} (h : Items k d) (hs : SameRdv k k') :
    Items k' d := by
  refine ⟨fun v => ?_, fun v p hp => ?_, fun v hv => ?_⟩
  · exact (h.rep v).congr (fun p _ => hs.link _ p) (congrFun hs.ends _)
  · obtain ⟨i, hi⟩ := h.live v p hp
    exact ⟨i, by rw [hs.table]; exact hi⟩
  · rw [hs.ends]
    exact h.alone v hv

/-! ### Operations that leave the four queues alone -/

theorem makeReady_rdv (k : Sched) (t : Ptr) : SameRdv k (makeReady k t) := by
  rw [makeReady_eq]
  refine ⟨?_, rfl, rfl⟩
  intro q p
  cases q <;> rfl

theorem release_rdv (k : Sched) : SameRdv k k.release := ⟨fun _ _ => rfl, rfl, rfl⟩

theorem setState_rdv (k : Sched) (t : Ptr) (st : TState) : SameRdv k (k.setState t st) :=
  ⟨(SameLinks.setState k t st).link, rfl, rfl⟩

theorem withRun_rdv (k : Sched) (n : Ptr → Option Ptr) (hd tl : Option Ptr) :
    SameRdv k (k.withRun n hd tl) := by
  refine ⟨?_, rfl, rfl⟩
  intro q p
  cases q <;> rfl

theorem wake_rdv (k : Sched) (e : ℕ) : SameRdv k (k.wake e) := by
  unfold Sched.wake
  cases (k.evqueue e).frontThread with
  | none => exact SameRdv.refl k
  | some t =>
    refine SameRdv.trans ?_ (makeReady_rdv _ t)
    have hevent : SameLinks (evqueuePop k e t)
        ((evqueuePop k e t).upd t fun b => { b with event := -1 }) :=
      SameLinks.upd (fun _ => rfl) (fun _ => rfl) fun q _ => by cases q <;> rfl
    exact ⟨hevent.link, rfl, rfl⟩

theorem sends_rdv (fired : List ℕ) : ∀ k : Sched, SameRdv k (fired.foldl Sched.send k) := by
  induction fired with
  | nil => exact SameRdv.refl
  | cons e l ih =>
    intro k
    have hsend : SameRdv k (k.send e) := ⟨(wake_rdv k e).link, (wake_rdv k e).ends,
      (wake_rdv k e).table⟩
    exact hsend.trans (ih (k.send e))

theorem waitOn_rdv (k : Sched) (t : Ptr) (e : ℕ) : SameRdv k (k.waitOn t e) := by
  unfold Sched.waitOn
  split
  · exact (release_rdv k).trans (makeReady_rdv k.release t)
  · refine SameRdv.trans ?_ (setState_rdv _ t _)
    rw [evqueuePush_eq]
    refine ⟨?_, rfl, rfl⟩
    intro q p
    cases q <;> rfl

/-! ### Reports and requests -/

/-- A live thread enters an item queue while nobody waits on its side. -/
theorem Items.insert {k : Sched} {d : Side → List Ptr} {v : Side} {t : Ptr} (h : Items k d)
    (hw : (k.ends v.waiters).tail = none) (hlive : Live k t)
    (hl : (k.ends v.items).head = none → v.items.link (k.tcb t) = none) :
    Items (rdvInsert v.items k t) (Function.update d v (enqueue (d v) t)) := by
  have hends : ∀ v' : Side, (rdvInsert v.items k t).ends v'.waiters = k.ends v'.waiters := by
    intro v'
    rw [rdvInsert_eq]
    simp only [Function.update_of_ne (Side.items_ne v v').symm]
  have hlive' : ∀ p, Live k p → Live (rdvInsert v.items k t) p := by
    rintro p ⟨i, hi⟩
    exact ⟨i, by rw [rdvInsert_eq]; exact hi⟩
  refine ⟨fun v' => ?_, fun v' p hp => ?_, fun v' hv' => ?_⟩
  · by_cases hv : v' = v
    · subst hv
      rw [rdvInsert_eq]
      simp only [StrictQ, Function.update_self, Rdv.link_setLink]
      have hrep := h.rep v'
      cases hh : (k.ends v'.items).head with
      | none =>
        rw [StrictQ, hh] at hrep
        rw [hrep.toLoose.eq_nil_of_last]
        refine Rep.single ?_
        simp only [insertLink, hh, if_true]
        exact hl hh
      | some b =>
        have hpush := Rep.pushAny hrep (fun c => (rfl : (if c = t then none else
          if (k.ends v'.items).head = some c then some t else v'.items.link (k.tcb c)) = _))
        rw [hh] at hpush
        simp only [insertLink, hh]
        exact hpush
    · rw [Function.update_of_ne hv]
      refine (h.rep v').congr (fun p _ => ?_) ?_ <;> rw [rdvInsert_eq]
      · exact Side.link_setLink_ne (Ne.symm hv) (Or.inl rfl) (Or.inl rfl) _ _
      · have hne : v'.items ≠ v.items := by
          cases v <;> cases v' <;> first | decide | exact absurd rfl hv
        simp only [Function.update_of_ne hne]
  · by_cases hv : v' = v
    · subst hv
      rw [Function.update_self, enqueue, List.mem_append, List.mem_singleton] at hp
      rcases hp with hp | rfl
      · exact hlive' p (h.live v' p ((List.takeWhile_subset _) hp))
      · exact hlive' p hlive
    · rw [Function.update_of_ne hv] at hp
      exact hlive' p (h.live v' p hp)
  · rw [hends]
    by_cases hv : v' = v
    · rw [hv]
      exact hw
    · rw [Function.update_of_ne hv] at hv'
      exact h.alone v' hv'

/-- A report keeps the items: it wakes a waiter, and then there are none, or it
enters the queue. -/
theorem Items.report {k : Sched} {d : Side → List Ptr} {v : Side} {t : Ptr} (h : Items k d)
    (hlive : Live k t) (hl : (k.ends v.waiters).tail = none → (k.ends v.items).head = none →
      v.items.link (k.tcb t) = none) : ∃ d', Items (k.report v t) d' := by
  unfold Sched.report
  cases htail : (k.ends v.waiters).tail with
  | none => exact ⟨_, h.insert htail hlive (hl htail)⟩
  | some w =>
    have hnil : d v = [] := by
      by_contra hne
      rw [h.alone v hne] at htail
      cases htail
    refine ⟨d, Items.congr ?_ (makeReady_rdv _ w)⟩
    refine ⟨fun v' => ?_, h.live, fun v' hv' => ?_⟩
    · refine (h.rep v').congr (fun _ _ => rfl) ?_
      simp [rdvAdvance, Sched.setEnds, Side.items_ne v' v]
    · by_cases hv : v' = v
      · exact absurd (hv ▸ hnil) hv'
      · simp only [rdvAdvance, Sched.setEnds, Function.update_of_ne (Side.ends_ne hv)]
        exact h.alone v' hv'

/-- A request takes the first item by the link of the queue, or the caller waits,
and then there are no items. -/
theorem Items.request {k : Sched} {d : Side → List Ptr} {v : Side} {c : Ptr} (h : Items k d)
    (hout : ∀ a, (k.ends v.items).tail = some a → v.out (k.tcb a) = v.items.link (k.tcb a)) :
    ∃ d', Items (k.request v c) d' := by
  unfold Sched.request
  cases htail : (k.ends v.items).tail with
  | some a =>
    have hrep := h.rep v
    rw [StrictQ, htail] at hrep
    obtain ⟨l, hl⟩ := hrep.toLoose.exists_cons
    rw [hl] at hrep
    refine ⟨Function.update d v l, fun v' => ?_, fun v' p hp => ?_, fun v' hv' => ?_⟩
    · by_cases hv : v' = v
      · subst hv
        simp only [StrictQ, rdvAdvance, Sched.setEnds, Function.update_self, hout a htail]
        exact hrep.pop
      · have hne : v'.items ≠ v.items := by
          cases v <;> cases v' <;> first | decide | exact absurd rfl hv
        rw [Function.update_of_ne hv]
        refine (h.rep v').congr (fun _ _ => rfl) ?_
        simp only [rdvAdvance, Sched.setEnds, Function.update_of_ne hne]
    · by_cases hv : v' = v
      · subst hv
        rw [Function.update_self] at hp
        exact h.live v' p (hl ▸ List.mem_cons_of_mem a hp)
      · rw [Function.update_of_ne hv] at hp
        exact h.live v' p hp
    · have hkeep : (k.ends v'.waiters).tail = none := by
        by_cases hv : v' = v
        · exact h.alone v' (by rw [hv, hl]; simp)
        · rw [Function.update_of_ne hv] at hv'
          exact h.alone v' hv'
      simp only [rdvAdvance, Sched.setEnds, Function.update_of_ne (Side.items_ne v v').symm]
      exact hkeep
  | none =>
    have hnil : d v = [] := by
      have hrep := h.rep v
      rw [StrictQ, htail] at hrep
      exact hrep.toLoose.eq_nil
    have hrel : Items (k.release.setState c .paused) d :=
      h.congr ((release_rdv k).trans (setState_rdv k.release c _))
    set k₁ := k.release.setState c .paused
    refine ⟨d, fun v' => ?_, fun v' p hp => ?_, fun v' hv' => ?_⟩
    · refine (hrel.rep v').congr (fun p hp => ?_) ?_ <;> rw [rdvInsert_eq]
      · by_cases hv : v' = v
        · rw [hv, hnil] at hp
          exact absurd hp List.not_mem_nil
        · exact Side.link_setLink_ne (Ne.symm hv) (Or.inr rfl) (Or.inl rfl) _ _
      · simp only [Function.update_of_ne (Side.items_ne v' v)]
    · obtain ⟨i, hi⟩ := hrel.live v' p hp
      exact ⟨i, by rw [rdvInsert_eq]; exact hi⟩
    · by_cases hv : v' = v
      · exact absurd (hv ▸ hnil) hv'
      · rw [rdvInsert_eq]
        simp only [Function.update_of_ne (Side.ends_ne hv)]
        exact hrel.alone v' hv'

/-! ### The allowed actions -/

/-- The condition beyond `BlockOk`. -/
def ItemsOk (k : Sched) (c : Ptr) : Act → Prop
  | .reap t => Linked k .dead t = false ∧ Linked k .fault t = false
  | .kill t => (k.ends .reaper).tail = none → (k.ends .dead).head = none →
      (k.tcb t).nextDead = none
  | .fault => (k.ends .debug).tail = none → (k.ends .fault).head = none →
      (k.tcb c).nextFault = none
  | .request v => (k.ends v.items).tail.all fun a => v.out (k.tcb a) = v.items.link (k.tcb a)
  | _ => True

instance (k : Sched) (c : Ptr) : ∀ a, Decidable (ItemsOk k c a)
  | .reap _ => inferInstanceAs (Decidable (_ ∧ _))
  | .kill _ => inferInstanceAs (Decidable (_ → _ → _))
  | .fault => inferInstanceAs (Decidable (_ → _ → _))
  | .request _ => inferInstanceAs (Decidable (_ = true))
  | .other | .spawn | .yield | .pause _ | .resume _ | .rewait _ | .wait _ _ | .reset _ | .irq _
  | .tick _ => isTrue trivial

/-- The actions that keep freed threads off every queue. -/
def FreeOk (k : Sched) (c : Ptr) (a : Act) : Prop := BlockOk k c a ∧ ItemsOk k c a

instance (k : Sched) (c : Ptr) (a : Act) : Decidable (FreeOk k c a) :=
  inferInstanceAs (Decidable (_ ∧ _))

theorem Items.notLinked {k : Sched} {d : Side → List Ptr} {t : Ptr} (h : Items k d)
    (ht : Linked k .dead t = false ∧ Linked k .fault t = false) : ∀ v, t ∉ d v := by
  intro v hv
  have hl := (h.rep v).linked_iff.mpr hv
  cases v with
  | dead =>
    rw [show Side.items .dead = .dead from rfl, ht.1] at hl
    cases hl
  | fault =>
    rw [show Side.items .fault = .fault from rfl, ht.2] at hl
    cases hl

theorem Items.spawned {k : Sched} {d : Side → List Ptr} {p : Ptr} {i : ℕ} (h : Items k d)
    (fresh : ∀ j, k.table j ≠ some p) (slot : k.table i = none) : Items (k.spawned p i) d := by
  have hne : ∀ v, ∀ a ∈ d v, a ≠ p := by
    rintro v a ha rfl
    obtain ⟨j, hj⟩ := h.live v a ha
    exact fresh j hj
  rw [spawned_eq]
  refine ⟨fun v => (h.rep v).congr (fun a ha => ?_) rfl, fun v a ha => ?_, h.alone⟩
  · simp only [hne v a ha, if_false]
    cases v <;> rfl
  · obtain ⟨j, hj⟩ := h.live v a ha
    have hji : j ≠ i := fun hji => by
      rw [hji, slot] at hj
      cases hj
    exact ⟨j, by simp only [Function.update_of_ne hji]; exact hj⟩

theorem Items.clear {k : Sched} {d : Side → List Ptr} {p : Ptr} (h : Items k d)
    (fresh : ∀ j, k.table j ≠ some p) (b : Tcb) :
    Items { k with tcb := Function.update k.tcb p b } d := by
  refine ⟨fun v => (h.rep v).congr (fun a ha => ?_) rfl, h.live, h.alone⟩
  have hap : a ≠ p := by
    rintro rfl
    obtain ⟨j, hj⟩ := h.live v a ha
    exact fresh j hj
  simp only [Function.update_of_ne hap]

theorem Items.reap {k : Sched} {d : Side → List Ptr} {t : Ptr} {i : ℕ} (h : Items k d)
    (live : k.table i = some t) (ht : ∀ v, t ∉ d v) :
    Items { k with table := Function.update k.table i none } d := by
  refine ⟨h.rep, fun v a ha => ?_, h.alone⟩
  obtain ⟨j, hj⟩ := h.live v a ha
  have hji : j ≠ i := by
    intro hji
    rw [hji, live, Option.some.injEq] at hj
    exact ht v (hj ▸ ha)
  exact ⟨j, by simp only [Function.update_of_ne hji]; exact hj⟩

/-- **The allowed actions keep the item queues.** -/
theorem Effect.items {k k' : Sched} {a : Act} {q : Lists} {d : Side → List Ptr}
    (h : Effect k.image k a k') (hs : Sound k q) (hi : Items k d)
    (hen : k.active = some k.image ∨ (∃ n, a = .irq n) ∨ ∃ f, a = .tick f)
    (hok : ItemsOk k k.image a) : ∃ d', Items k' d' := by
  have hlive : (∀ n, a ≠ .irq n) → (∀ f, a ≠ .tick f) → Live k k.image := by
    intro hi ht
    rcases hen with hact | ⟨n, hn⟩ | ⟨f, hf⟩
    · exact (hs.placed _).live ((hs.placed _).active hact)
    · exact absurd hn (hi n)
    · exact absurd hf (ht f)
  cases h with
  | other => exact ⟨d, hi⟩
  | spawn fresh slot bound => exact ⟨d, hi.spawned fresh slot⟩
  | spawnFull fresh full => exact ⟨d, hi.clear fresh _⟩
  | reap live state => exact ⟨d, hi.reap live (hi.notLinked hok)⟩
  | yield => exact ⟨d, hi.congr ((release_rdv k).trans (makeReady_rdv k.release _))⟩
  | pauseRunning => exact ⟨d, hi.congr ((release_rdv k).trans (setState_rdv k.release _ _))⟩
  | pauseQueued live state remv =>
    obtain ⟨n, hd, tl, rfl⟩ := scheduleRemv_withRun remv
    exact ⟨d, hi.congr ((withRun_rdv k n hd tl).trans (setState_rdv _ _ _))⟩
  | pauseWaiting state remv =>
    obtain ⟨n, ev, rfl⟩ := eventRemv_eq remv
    have hev : SameRdv k
        { k with tcb := fun p => { k.tcb p with next := n p }, evqueue := ev } := by
      refine ⟨?_, rfl, rfl⟩
      intro q p
      cases q <;> rfl
    exact ⟨d, hi.congr (hev.trans (setState_rdv _ _ _))⟩
  | resume => exact ⟨d, hi.congr (makeReady_rdv k _)⟩
  | rewait => exact ⟨d, hi.congr ((waitOn_rdv k _ _).trans (setState_rdv _ _ _))⟩
  | rewaitBad => exact ⟨d, hi.congr (setState_rdv k _ _)⟩
  | kill live state =>
    rename_i t
    have ht : Live k t := by
      rcases live with rfl | ht
      · exact hlive (by simp) (by simp)
      · exact ht
    unfold Sched.kill
    split
    · have hrel := hi.congr ((release_rdv k).trans (setState_rdv k.release t .paused))
      refine hrel.report (v := .dead) ht ?_
      rw [(setState_rdv k.release t .paused).link]
      exact hok
    · exact hi.report (v := .dead) ht hok
  | request =>
    rename_i v
    refine hi.request fun a ha => ?_
    have hall : (k.ends v.items).tail.all
        (fun a => decide (v.out (k.tcb a) = v.items.link (k.tcb a))) = true := hok
    rw [ha] at hall
    simpa using hall
  | wait => exact ⟨d, hi.congr (waitOn_rdv k _ _)⟩
  | reset => exact ⟨d, hi.congr ⟨fun _ _ => rfl, rfl, rfl⟩⟩
  | fault =>
    have hrel := hi.congr ((release_rdv k).trans (setState_rdv k.release k.image .paused))
    refine hrel.report (v := .fault) (hlive (by simp) (by simp)) ?_
    rw [(setState_rdv k.release k.image .paused).link]
    exact hok
  | irq => exact ⟨d, hi.congr ⟨(wake_rdv k _).link, (wake_rdv k _).ends, (wake_rdv k _).table⟩⟩
  | tick =>
    rename_i fired _ _
    unfold Sched.tick
    dsimp only
    split
    · exact ⟨d, hi.congr (((sends_rdv fired k).trans (release_rdv _)).trans
        (makeReady_rdv (Sched.release _) _))⟩
    · exact ⟨d, hi.congr (sends_rdv fired k)⟩

theorem Picks.items {k k' : Sched} {o : Option Ptr} {d : Side → List Ptr} (h : Picks k o k')
    (hi : Items k d) : Items k' d := by
  cases h with
  | same => exact hi
  | idle => exact hi
  | next active head remv =>
    rename_i t _ k₁
    obtain ⟨n, hd, tl, rfl⟩ := scheduleRemv_withRun remv
    have hact : SameRdv k { k.withRun n hd tl with active := some t } := by
      refine ⟨?_, rfl, rfl⟩
      exact (withRun_rdv k n hd tl).link
    exact hi.congr (hact.trans (setState_rdv _ t _))

/-! ### Runs -/

def StepFreeOk (s : Kernel) (i : Input) : Prop := FreeOk s.toSched s.image (i.act s)

instance (s : Kernel) (i : Input) : Decidable (StepFreeOk s i) :=
  inferInstanceAs (Decidable (FreeOk _ _ _))

theorem KernelReach.items {s : Kernel} (h : KernelReach StepFreeOk s) :
    ∃ d, Items s.toSched d := by
  refine Reachable.invariant (fun s => ∃ d, Items s.toSched d) ?_ ?_ h
  · intro s hs
    obtain ⟨-, p, i, hs⟩ := hs.cases
    refine ⟨fun _ => [], fun v => ?_, fun v p hp => absurd hp List.not_mem_nil,
      fun v hv => absurd rfl hv⟩
    rw [hs]
    exact Rep.empty _
  · intro s i s' hreach hd hok hs
    obtain ⟨d, hd⟩ := hd
    have hblock : KernelReach StepBlockOk s :=
      Reachable.mono (fun s i h => ⟨h.1, h.2.1⟩) hreach
    obtain ⟨q, hq⟩ := hblock.sound
    obtain ⟨k, o, heff, hpick, -⟩ := next_cases hblock.tableWf hs
    obtain ⟨d', hd'⟩ := heff.items hq hd (Input.enabled_cases hok.1) hok.2.2
    exact ⟨d', hpick.items hd'⟩

/-- **No reference to a freed thread**: along every run of allowed actions, a
table entry carries its index as id, and every thread reached from the active
pointer, the run queue, an event queue or one of the dead, reaper, fault and debug
queues is in the table. -/
theorem no_freed_references {s : Kernel} (h : KernelReach StepFreeOk s) :
    (∀ i p, s.table i = some p → (s.tcb p).id = i) ∧
    ∀ p, (s.active = some p ∨ OnRun s.toSched p ∨ (∃ e, OnEvent s.toSched e p) ∨
      ∃ q, OnRdv s.toSched q p) → ∃ i, s.table i = some p := by
  have hblock : KernelReach StepBlockOk s := Reachable.mono (fun s i h => ⟨h.1, h.2.1⟩) h
  obtain ⟨q, hq⟩ := hblock.sound
  obtain ⟨d, hd⟩ := h.items
  refine ⟨h.tableWf.id_eq, ?_⟩
  rintro p (hact | hrun | ⟨e, he⟩ | ⟨r, hr⟩)
  · exact (hq.placed p).live ((hq.placed p).active hact)
  · exact ((hq.placed p).run (hq.links.run.reach_iff.mp hrun)).2
  · exact ((hq.placed p).ev e ((hq.links.ev.rep e).reach_iff.mp he)).2.2
  · cases r with
    | dead => exact hd.live .dead p ((hd.rep .dead).reach_iff.mp hr)
    | reaper => exact ((hq.placed p).waiters .dead ((hq.links.waiters .dead).reach_iff.mp hr)).2
    | fault => exact hd.live .fault p ((hd.rep .fault).reach_iff.mp hr)
    | debug => exact ((hq.placed p).waiters .fault ((hq.links.waiters .fault).reach_iff.mp hr)).2

/-- Thread 1 blocks in `GETDEAD`, thread 0 kills itself and thread 1 reaps it. -/
theorem no_freed_references_reap : ∃ s p, KernelReach StepFreeOk s ∧ s.active = some p ∧
    s.table 0 = none ∧ ∃ i, s.table i = some p := by
  obtain ⟨s, hs, hf⟩ := exists_bootRun StepFreeOk
    [callOf 0x02 0, irqOf 0, callOf 0x0A 0, killOf (-1), callOf 0x0B 0]
    (fun s => s.active.isSome && decide (s.table 0 = none)) (by decide +kernel)
  rw [Bool.and_eq_true, decide_eq_true_eq] at hf
  obtain ⟨p, hp⟩ := Option.isSome_iff_exists.mp hf.1
  exact ⟨s, p, hs, hp, hf.2, (no_freed_references hs).2 p (Or.inl hp)⟩

/-- Thread 1 blocks in `GETDEAD` and thread 0 reaps it: the reaper queue holds a
freed thread. -/
theorem no_freed_references_fails : ∃ s p, KernelReach (fun _ _ => True) s ∧
    OnRdv s.toSched .reaper p ∧ ∀ i < THREAD_COUNT, s.table i ≠ some p := by
  obtain ⟨s, hs, hf⟩ := exists_bootRun (fun _ _ => True)
    [callOf 0x02 0, irqOf 0, callOf 0x0A 0, callOf 0x0B 1]
    (fun s => (s.ends .reaper).tail.any fun p =>
      decide (∀ i < THREAD_COUNT, s.table i ≠ some p)) (by decide +kernel)
  simp only [Option.any_eq_true, decide_eq_true_eq] at hf
  obtain ⟨p, hp, hfree⟩ := hf
  refine ⟨s, p, hs, ?_, hfree⟩
  rw [OnRdv, hp]
  exact .here p

end Pinion
