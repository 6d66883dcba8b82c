/-
What an entry of the kernel does to the scheduler.

`Input.act` reads off an input what the handler will do (refused calls are
`other`), and `Effect c k a k'` says what action `a` of caller `c` makes of the
scheduler state `k`.  Every invariant of the scheduler is proved on `Effect`.

* `Sched.send`, `Sched.waitOn`, `Sched.report` — `event_send`, `event_wait` and
  the two pushes, on the scheduler alone;
* `Act`, `Input.act`, `Effect` — actions and what they do;
* `TableWf` — table entries carry their index as id and are owned heap blocks;
* `Effect.ids` — only `SPAWN` and `REAP` write ids and the table.
-/
import Pinion.DeadFault
import Pinion.Heap

open LinkedQueue Runs

namespace Pinion

/-! ### Scheduler operations -/

/-- `_active_thread = NULL`. -/
def Sched.release (k : Sched) : Sched := { k with active := none }

/-- The wake-up of `event_send`. -/
def Sched.wake (k : Sched) (e : ℕ) : Sched :=
  match (k.evqueue e).frontThread with
  | none => k
  | some t =>
    makeReady { (evqueuePop k e t).upd t (fun b => { b with event := -1 }) with
      active := if (k.tcb t).state = .running then none else k.active } t

/-- A waiter that does not run is taken from its queue and made ready. -/
theorem wake_waiter {k : Sched} {e : ℕ} {t : Ptr} (hf : (k.evqueue e).frontThread = some t)
    (hst : ¬(k.tcb t).state = .running) :
    k.wake e = makeReady { (evqueuePop k e t).upd t (fun b => { b with event := -1 }) with
      active := k.active } t := by
  rw [Sched.wake, hf]
  simp only [hst, if_false]

/-- `event_send` for an event in range. -/
def Sched.send (k : Sched) (e : ℕ) : Sched :=
  { k.wake e with irqstate := if e < 240 then Function.update k.irqstate e 1 else k.irqstate }

/-- `event_wait` for a thread that exists and an event in range. -/
def Sched.waitOn (k : Sched) (t : Ptr) (e : ℕ) : Sched :=
  if k.irqstate e ≠ 0 then makeReady k.release t
  else (evqueuePush k e t).release.setState t .waiting

/-- `dead_push` and `fault_push`. -/
def Sched.report (k : Sched) (v : Side) (t : Ptr) : Sched :=
  match (k.ends v.waiters).tail with
  | some w => makeReady (rdvAdvance v.waiters k (v.waiters.link (k.tcb w))) w
  | none => rdvInsert v.items k t

/-- `GETDEAD` and `GETFAULT`: take the first item, or block. -/
def Sched.request (k : Sched) (v : Side) (c : Ptr) : Sched :=
  match (k.ends v.items).tail with
  | some d => rdvAdvance v.items k (v.out (k.tcb d))
  | none => rdvInsert v.waiters (k.release.setState c .paused) c

/-- A thread that `SPAWN` enters in slot `i`. -/
def Sched.spawned (k : Sched) (p : Ptr) (i : ℕ) : Sched :=
  schedulePush { k with
    tcb := Function.update k.tcb p { Tcb.zero with id := i, state := .queued }
    table := Function.update k.table i (some p) } p

/-- The kill branch of `SETSTATE`. -/
def Sched.kill (k : Sched) (t : Ptr) : Sched :=
  (if (k.tcb t).state = .running then k.release.setState t .paused else k).report .dead t

/-- The timer: send the events that fired, then preempt the interrupted image. -/
def Sched.tick (k : Sched) (c : Ptr) (fired : List ℕ) : Sched :=
  let k := fired.foldl Sched.send k
  if (k.tcb c).state = .running then makeReady k.release c else k

/-! ### Actions -/

/-- What an entry does.  Calls that only return a code are `other`. -/
inductive Act
  | other
  | spawn
  | reap (target : Ptr)
  | yield
  | pause (target : Ptr)
  | resume (target : Ptr)
  | rewait (target : Ptr)
  | kill (target : Ptr)
  | request (side : Side)
  | wait (thread : Ptr) (event : ℕ)
  | reset (line : ℕ)
  | fault
  | irq (line : ℕ)
  | tick (fired : List ℕ)
  deriving DecidableEq

/-- The thread a call names in `ebx`, `-1` for the caller. -/
def Sched.named (k : Sched) (c : Ptr) (ebx : U32) : Option Ptr :=
  if ebx = -1 then some c else threadGet k ebx.toInt

def pauseAct (k : Sched) (t : Ptr) : Act :=
  match (k.tcb t).state with
  | .running => .pause t
  | .queued => .pause t
  | .waiting => .pause t
  | _ => .other

def resumeAct (k : Sched) (t : Ptr) : Act :=
  match (k.tcb t).state with
  | .paused => .resume t
  | .pausedw => .rewait t
  | _ => .other

/-- The action of a kernel call of `c`. -/
def callAct (k : Sched) (c : Ptr) (ebx : U32) (flags : U8) : Call → Act
  | .spawn => .spawn
  | .reap =>
    match threadGet k ebx.toInt with
    | some t => if (k.tcb t).state = .paused then .reap t else .other
    | none => .other
  | .yield => .yield
  | .pause => ((k.named c ebx).map (pauseAct k)).getD .other
  | .resume => ((threadGet k ebx.toInt).map (resumeAct k)).getD .other
  | .setstate =>
    match k.named c ebx with
    | some t =>
      if ((k.tcb t).state = .paused ∨ (k.tcb t).state = .pausedw ∨ (k.tcb t).state = .running) ∧
        flags &&& TF_DEAD ≠ 0 then .kill t else .other
    | none => .other
  | .getdead => .request .dead
  | .getfault => .request .fault
  | .wait =>
    match threadGet k (k.tcb c).id with
    | some t => if 0 ≤ ebx.toInt ∧ ebx.toInt < EV_COUNT then .wait t ebx.toInt.toNat else .other
    | none => .other
  | .reset => if ebx.toNat < 240 then .reset ebx.toNat else .other
  | _ => .other

/-- The image an entry works on. -/
def Sched.image (k : Sched) : Ptr := k.active.getD idleImage

def Input.act (s : Kernel) : Input → Act
  | .call r env =>
    if (s.img s.image).flags &&& TF_USER ≠ 0 then .other
    else callAct s.toSched s.image r.ebx env.info.flags (Call.ofEax r.eax)
  | .irq n _ _ =>
    if n.val = 0 then .tick ((timersFired (s.tick + 1) s.pitFreq).map evVtimer) else .irq n
  | .fault n _ _ => if n.val = 15 then .other else .fault

/-- What action `a` of `c` makes of the scheduler. -/
inductive Effect (c : Ptr) (k : Sched) : Act → Sched → Prop
  | other : Effect c k .other k
  | spawn {p : Ptr} {i : ℕ} (fresh : ∀ j, k.table j ≠ some p) (slot : k.table i = none)
      (bound : i < THREAD_COUNT) : Effect c k .spawn (k.spawned p i)
  | spawnFull {p : Ptr} (fresh : ∀ j, k.table j ≠ some p)
      (full : ∀ i < THREAD_COUNT, k.table i ≠ none) :
      Effect c k .spawn { k with tcb := Function.update k.tcb p Tcb.zero }
  | reap {t : Ptr} {i : ℕ} (live : k.table i = some t) (state : (k.tcb t).state = .paused) :
      Effect c k (.reap t) { k with table := Function.update k.table i none }
  | yield : Effect c k .yield (makeReady k.release c)
  | pauseRunning {t : Ptr} (state : (k.tcb t).state = .running) :
      Effect c k (.pause t) (k.release.setState t .paused)
  | pauseQueued {t : Ptr} {r : ℤ} {k' : Sched} (live : t = c ∨ ∃ i, k.table i = some t)
      (state : (k.tcb t).state = .queued) (remv : scheduleRemv k t = .ok (r, k')) :
      Effect c k (.pause t) (k'.setState t .paused)
  | pauseWaiting {t : Ptr} {r : ℤ} {k' : Sched} (state : (k.tcb t).state = .waiting)
      (remv : eventRemv k (k.tcb t).id (k.tcb t).event = .ok (r, k')) :
      Effect c k (.pause t) (k'.setState t .pausedw)
  | resume {t : Ptr} {i : ℕ} (live : k.table i = some t) (state : (k.tcb t).state = .paused) :
      Effect c k (.resume t) (makeReady k t)
  | rewait {t : Ptr} {i e : ℕ} (live : k.table i = some t) (state : (k.tcb t).state = .pausedw)
      (event : (k.tcb t).event = e) (bound : e < EV_COUNT) :
      Effect c k (.rewait t) ((k.waitOn t e).setState t .waiting)
  | rewaitBad {t : Ptr} (state : (k.tcb t).state = .pausedw)
      (event : (k.tcb t).event < 0 ∨ (EV_COUNT : ℤ) ≤ (k.tcb t).event) :
      Effect c k (.rewait t) (k.setState t .waiting)
  | kill {t : Ptr} (live : t = c ∨ ∃ i, k.table i = some t)
      (state : (k.tcb t).state = .paused ∨ (k.tcb t).state = .pausedw ∨
        (k.tcb t).state = .running) : Effect c k (.kill t) (k.kill t)
  | request {v : Side} : Effect c k (.request v) (k.request v c)
  | wait {t : Ptr} {e : ℕ} (live : threadGet k (k.tcb c).id = some t) (bound : e < EV_COUNT) :
      Effect c k (.wait t e) (k.waitOn t e)
  | reset {n : ℕ} (bound : n < 240) :
      Effect c k (.reset n) { k with irqstate := Function.update k.irqstate n 0 }
  | fault : Effect c k .fault ((k.release.setState c .paused).report .fault c)
  | irq {n : ℕ} (pos : 0 < n) (bound : n < 16) : Effect c k (.irq n) (k.send n)
  | tick {fired : List ℕ} (virt : ∀ e ∈ fired, 240 ≤ e ∧ e < EV_COUNT) (distinct : fired.Nodup) :
      Effect c k (.tick fired) (k.tick c fired)

/-! ### The table -/

/-- Table entries carry their index as id and are owned blocks of the heap. -/
structure TableWf (s : Kernel) : Prop where
  heap : HeapWf s.mm
  id_eq : ∀ i p, s.table i = some p → (s.tcb p).id = i
  bound : ∀ i p, s.table i = some p → i < THREAD_COUNT
  owned : ∀ i p, s.table i = some p → Owned s.mm p

/-- Memory may change as long as thread blocks stay owned. -/
def Keeps (m m' : Mem) : Prop := HeapWf m → HeapWf m' ∧ ∀ q, Owned m q → Owned m' q

theorem Keeps.refl (m : Mem) : Keeps m m := fun h => ⟨h, fun _ ho => ho⟩

theorem Keeps.same {m m' : Mem} (h : SameHeap m m') : Keeps m m' :=
  fun hw => ⟨hw.same h, fun _ ho => ho.same h⟩

theorem Keeps.of_eq {m m' : Mem} (h : m' = m) : Keeps m m' := h ▸ Keeps.refl m

/-- The ids and the table are the same. -/
def SameIds (k k' : Sched) : Prop :=
  (∀ p, (k'.tcb p).id = (k.tcb p).id) ∧ k'.table = k.table

theorem SameIds.trans {k₁ k₂ k₃ : Sched} (h : SameIds k₁ k₂) (h' : SameIds k₂ k₃) :
    SameIds k₁ k₃ := ⟨fun p => (h'.1 p).trans (h.1 p), h'.2.trans h.2⟩

theorem TableWf.keep {s s' : Kernel} (h : TableWf s) (hi : SameIds s.toSched s'.toSched)
    (hm : Keeps s.mm s'.mm) : TableWf s' := by
  obtain ⟨hheap, howned⟩ := hm h.heap
  refine ⟨hheap, fun i p hp => ?_, fun i p hp => ?_, fun i p hp => ?_⟩ <;> rw [hi.2] at hp
  · rw [hi.1 p]
    exact h.id_eq i p hp
  · exact h.bound i p hp
  · exact howned p (h.owned i p hp)

theorem threadGet_eq_some {k : Sched} {id : ℤ} {t : Ptr} (h : threadGet k id = some t) :
    ∃ i : ℕ, id = i ∧ i < THREAD_COUNT ∧ k.table i = some t := by
  unfold threadGet at h
  split at h
  · cases h
  · refine ⟨id.toNat, ?_, ?_, h⟩ <;> omega

theorem threadGet_natCast {k : Sched} {i : ℕ} (h : i < THREAD_COUNT) :
    threadGet k i = k.table i := by
  unfold threadGet
  rw [if_neg (by omega), Int.toNat_natCast]

/-- A thread a call names is the caller or in the table. -/
theorem Sched.named_live {k : Sched} {c t : Ptr} {ebx : U32} (h : k.named c ebx = some t) :
    t = c ∨ ∃ i, k.table i = some t := by
  unfold Sched.named at h
  split at h
  · exact Or.inl (Option.some.inj h).symm
  · obtain ⟨i, -, -, htab⟩ := threadGet_eq_some h
    exact Or.inr ⟨i, htab⟩

/-- A thread of the table is found under its id. -/
theorem TableWf.get {s : Kernel} (h : TableWf s) {i : ℕ} {t : Ptr} (ht : s.table i = some t) :
    threadGet s.toSched (s.tcb t).id = some t := by
  rw [h.id_eq i t ht, threadGet_natCast (h.bound i t ht), ht]

/-! ### Ids are written by `SPAWN` only -/

theorem makeReady_ids (k : Sched) (t : Ptr) : SameIds k (makeReady k t) := by
  rw [makeReady_eq]
  exact ⟨fun _ => rfl, rfl⟩

theorem upd_ids {k : Sched} {t : Ptr} {f : Tcb → Tcb} (hf : ∀ b, (f b).id = b.id) :
    SameIds k (k.upd t f) := by
  refine ⟨fun p => ?_, rfl⟩
  by_cases hp : p = t
  · subst hp; simp [Sched.upd, hf]
  · simp [Sched.upd, hp]

theorem setState_ids (k : Sched) (t : Ptr) (st : TState) : SameIds k (k.setState t st) :=
  upd_ids fun _ => rfl

theorem evqueuePush_ids (k : Sched) (e : ℕ) (t : Ptr) : SameIds k (evqueuePush k e t) := by
  rw [evqueuePush_eq]
  exact ⟨fun _ => rfl, rfl⟩

theorem Rdv.setLink_id (q : Rdv) (n : Option Ptr) (t : Tcb) : (q.setLink n t).id = t.id := by
  cases q <;> rfl

theorem rdvInsert_ids (q : Rdv) (k : Sched) (t : Ptr) : SameIds k (rdvInsert q k t) := by
  unfold rdvInsert
  cases (k.ends q).head with
  | none => exact ⟨fun _ => rfl, rfl⟩
  | some h =>
    exact (upd_ids (q.setLink_id _)).trans (upd_ids (q.setLink_id _))

theorem wake_ids (k : Sched) (e : ℕ) : SameIds k (k.wake e) := by
  unfold Sched.wake
  cases (k.evqueue e).frontThread with
  | none => exact ⟨fun _ => rfl, rfl⟩
  | some t =>
    refine SameIds.trans ?_ (makeReady_ids _ t)
    have hevent := upd_ids (k := evqueuePop k e t) (t := t) (f := fun b => { b with event := -1 })
      fun _ => rfl
    exact ⟨hevent.1, hevent.2⟩

theorem send_ids (k : Sched) (e : ℕ) : SameIds k (k.send e) :=
  wake_ids k e

theorem report_ids (k : Sched) (v : Side) (t : Ptr) : SameIds k (k.report v t) := by
  unfold Sched.report
  cases (k.ends v.waiters).tail with
  | none => exact rdvInsert_ids _ _ _
  | some w => exact makeReady_ids (rdvAdvance v.waiters k _) w

theorem waitOn_ids (k : Sched) (t : Ptr) (e : ℕ) : SameIds k (k.waitOn t e) := by
  unfold Sched.waitOn
  split
  · exact makeReady_ids k.release t
  · exact (evqueuePush_ids k e t).trans (setState_ids (evqueuePush k e t).release t _)

theorem sends_ids (fired : List ℕ) : ∀ k : Sched, SameIds k (fired.foldl Sched.send k) := by
  induction fired with
  | nil => exact fun k => ⟨fun _ => rfl, rfl⟩
  | cons e l ih => exact fun k => (send_ids k e).trans (ih (k.send e))

/-- No action but `spawn` and `reap` writes an id or the table. -/
theorem Effect.ids {c : Ptr} {k k' : Sched} {a : Act} (h : Effect c k a k') (hs : a ≠ .spawn)
    (hr : ∀ t, a ≠ .reap t) : SameIds k k' := by
  cases h with
  | other => exact ⟨fun _ => rfl, rfl⟩
  | spawn => exact absurd rfl hs
  | spawnFull => exact absurd rfl hs
  | reap => exact absurd rfl (hr _)
  | yield => exact makeReady_ids k.release c
  | pauseRunning => exact setState_ids k.release _ _
  | pauseQueued _ _ remv =>
    obtain ⟨n, hd, tl, rfl⟩ := scheduleRemv_withRun remv
    exact setState_ids (k.withRun n hd tl) _ _
  | pauseWaiting _ remv =>
    obtain ⟨n, q, rfl⟩ := eventRemv_eq remv
    exact setState_ids { k with tcb := fun p => { k.tcb p with next := n p }, evqueue := q } _ _
  | resume => exact makeReady_ids k _
  | rewait => exact (waitOn_ids k _ _).trans (setState_ids _ _ _)
  | rewaitBad => exact setState_ids k _ _
  | kill =>
    refine SameIds.trans ?_ (report_ids _ _ _)
    split
    · exact setState_ids k.release _ _
    · exact ⟨fun _ => rfl, rfl⟩
  | request =>
    rename_i v
    unfold Sched.request
    cases (k.ends v.items).tail with
    | none => exact (setState_ids k.release c _).trans (rdvInsert_ids _ _ _)
    | some d => exact ⟨fun _ => rfl, rfl⟩
  | wait => exact waitOn_ids k _ _
  | reset => exact ⟨fun _ => rfl, rfl⟩
  | fault => exact (setState_ids k.release c _).trans (report_ids _ _ _)
  | irq => exact send_ids k _
  | tick =>
    rename_i fired _ _
    unfold Sched.tick
    refine (sends_ids fired k).trans ?_
    dsimp only
    split
    · exact makeReady_ids (Sched.release _) c
    · exact ⟨fun _ => rfl, rfl⟩

/-- The scheduler after a spawn, field by field. -/
theorem spawned_eq (k : Sched) (p : Ptr) (i : ℕ) :
    k.spawned p i =
      { k with
        tcb := fun q =>
          if q = p then { Tcb.zero with id := i, state := .queued }
          else { k.tcb q with next := if k.schedTail = some q then some p else (k.tcb q).next }
        table := Function.update k.table i (some p)
        schedHead := if k.schedTail = none then some p else k.schedHead
        schedTail := some p } := by
  rw [Sched.spawned, schedulePush_eq]
  simp only [Sched.withRun, Sched.mk.injEq, and_self, and_true]
  funext q
  by_cases hq : q = p
  · subst hq; simp [pushNext, Tcb.zero]
  · simp [hq, pushNext]

/-- Only `SPAWN` enters a thread in the table. -/
theorem Effect.table_sub {c p : Ptr} {k k' : Sched} {a : Act} {j : ℕ} (h : Effect c k a k')
    (ha : a ≠ .spawn) (hj : k'.table j = some p) : k.table j = some p := by
  by_cases hr : ∃ t, a = .reap t
  · obtain ⟨t, rfl⟩ := hr
    cases h with
    | reap live state =>
      rename_i i
      by_cases hji : j = i
      · simp [hji] at hj
      · simpa only [Function.update_of_ne hji] using hj
  · rw [← (h.ids ha fun t ht => hr ⟨t, ht⟩).2]
    exact hj

/-- A slot of the table is kept until its thread is reaped. -/
theorem Effect.table_keep {c t : Ptr} {k k' : Sched} {a : Act} {j : ℕ} (h : Effect c k a k')
    (ha : a ≠ .reap t) (hj : k.table j = some t) : k'.table j = some t := by
  have hids : a ≠ .spawn → (∀ p, a ≠ .reap p) → k'.table j = some t := by
    intro hs hr
    rw [(h.ids hs hr).2]
    exact hj
  cases h with
  | spawn fresh slot bound =>
    rename_i p i
    have hji : j ≠ i := fun hji => by
      rw [hji, slot] at hj
      cases hj
    rw [spawned_eq]
    simp only [Function.update_of_ne hji]
    exact hj
  | spawnFull => exact hj
  | reap live state =>
    rename_i p i
    have hji : j ≠ i := by
      intro hji
      rw [hji, live, Option.some.injEq] at hj
      exact ha (congrArg Act.reap hj)
    simp only [Function.update_of_ne hji]
    exact hj
  | _ => exact hids (by simp) (by simp)

theorem TableWf.spawned {s s' : Kernel} {p : Ptr} {i : ℕ} (h : TableWf s)
    (heq : s'.toSched = s.toSched.spawned p i) (fresh : ∀ j, s.table j ≠ some p)
    (bound : i < THREAD_COUNT) (hwf : HeapWf s'.mm) (hown : Owned s'.mm p)
    (hkeep : ∀ q, Owned s.mm q → Owned s'.mm q) : TableWf s' := by
  have hcases : ∀ j q, s'.table j = some q → (j = i ∧ q = p) ∨ (s.table j = some q ∧ q ≠ p) := by
    intro j q hq
    rw [heq, spawned_eq] at hq
    by_cases hj : j = i
    · subst hj
      simp only [Function.update_self, Option.some.injEq] at hq
      exact Or.inl ⟨rfl, hq.symm⟩
    · simp only [Function.update_of_ne hj] at hq
      exact Or.inr ⟨hq, fun hqp => fresh j (hqp ▸ hq)⟩
  refine ⟨hwf, fun j q hq => ?_, fun j q hq => ?_, fun j q hq => ?_⟩
  · rw [heq, spawned_eq]
    rcases hcases j q hq with ⟨rfl, rfl⟩ | ⟨hq, hne⟩
    · simp
    · simp only [hne, if_false]
      exact h.id_eq j q hq
  · rcases hcases j q hq with ⟨rfl, rfl⟩ | ⟨hq, hne⟩
    · exact bound
    · exact h.bound j q hq
  · rcases hcases j q hq with ⟨rfl, rfl⟩ | ⟨hq, hne⟩
    · exact hown
    · exact hkeep q (h.owned j q hq)

end Pinion
