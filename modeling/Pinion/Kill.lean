/-
The kill protocol: `__t_kill`, then `GETDEAD`, then `__t_reap`.

`__t_kill` pauses the thread, reads its state and writes it back with `TF_DEAD`.
The three calls and `REAP` each admit their own states: `PAUSE` refuses a thread
that is already paused, and turns a waiting one into `TS_PAUSEDW`, which `REAP`
refuses.

* `getdeads`, `reports` — the ids that `GETDEAD` returns after a kill;
* `Killed` — the protocol does its work: the kill returns 0, the id is reported
  exactly once and the thread can then be reaped;
* `KillOk` — the states of the target from which it does;
* `killed_iff` — the two are the same, in every state of a run without freed
  references.
-/
import Pinion.System

open LinkedQueue Runs

namespace Pinion

section Protocol

variable (c : Ptr) (r : UserRegs) (env : Env)

/-- `GETDEAD` again and again while the dead queue holds a thread, `n` times at
most: the ids it returns. -/
def getdeads : ℕ → Kernel → List U32 × Kernel
  | 0, s => ([], s)
  | n + 1, s =>
    if (s.ends .dead).tail = none then ([], s)
    else match tGetdead c r env s with
      | none => ([], s)
      | some (id, _, s') => (id :: (getdeads n s').1, (getdeads n s').2)

/-- What the `GETDEAD` of the first waiting reaper returns, once it is woken. -/
def answered (s s' : Kernel) : List U32 :=
  ((s.ends .reaper).tail.filter fun w => (s'.tcb w).state = .queued).toList.map
    fun w => (s'.img w).eax

/-- The ids reported after a kill that led from `s` to `s'`. -/
def reports (s s' : Kernel) (n : ℕ) : List U32 := answered s s' ++ (getdeads c r env n s').1

/-- The protocol: `__t_kill` returns 0, the id is reported exactly once however
often `GETDEAD` is called, and once it is, `__t_reap` returns 0 and frees the slot. -/
def Killed (thread status state info : U32) (s : Kernel) : Prop :=
  ∃ s', tKill c r env thread status state s = some (0, s') ∧
    (∃ n, (reports c r env s s' n).count thread = 1) ∧
    ∀ n, (reports c r env s s' n).count thread ≤ 1 ∧
      (thread ∈ reports c r env s s' n →
        ∃ x s'', tReap c r env thread info (getdeads c r env n s').2 = some (0, x, s'') ∧
          threadGet s''.toSched thread.toInt = none)

end Protocol

/-- The id of a thread as the word that `GETDEAD` returns. -/
def idWord (k : Sched) (p : Ptr) : U32 := BitVec.ofInt 32 (k.tcb p).id

/-- The states from which the protocol goes through: the thread is queued, there is
room for its FPU area, and if it enters an empty dead queue, its old `next_dead`
leads to no thread of the same id. -/
structure KillOk (t : Ptr) (thread : U32) (s : Kernel) : Prop where
  state : (s.tcb t).state = .queued
  room : FxRoom s t
  fresh : (s.ends .reaper).tail = none → (s.ends .dead).tail = none →
    ∀ p, Reach (fun p => (s.tcb p).nextDead) (s.tcb t).nextDead p →
      idWord s.toSched p ≠ thread

/-! ### Repeated `GETDEAD` -/

section Steps

variable {c t : Ptr} {r : UserRegs} {env : Env} {thread : U32} {s : Kernel}

/-- It returns the ids along `next_dead` and changes the ends of the dead queue
only. -/
theorem getdeads_eq (r : UserRegs) (env : Env) (n : ℕ) : ∀ {s : Kernel}, SystemThread c s →
    (getdeads c r env n s).1 =
      (follow (fun p => (s.tcb p).nextDead) n (s.ends .dead).tail).map (idWord s.toSched) ∧
    SystemThread c (getdeads c r env n s).2 ∧ (getdeads c r env n s).2.tcb = s.tcb ∧
      (getdeads c r env n s).2.table = s.table := by
  induction n with
  | zero => exact fun hs => ⟨rfl, hs, rfl, rfl⟩
  | succ n ih =>
    intro s hs
    cases hd : (s.ends .dead).tail with
    | none =>
      rw [getdeads, if_pos hd]
      exact ⟨rfl, hs, rfl, rfl⟩
    | some d =>
      obtain ⟨s', hcall, hret⟩ := tGetdead_some r env hs hd
      obtain ⟨hids, hsys, htcb, htable⟩ := ih (hret.system hs hs.active)
      rw [getdeads, if_neg (by rw [hd]; simp), hcall]
      dsimp only
      rw [hids, htcb, htable, hret.sched]
      refine ⟨?_, hsys, rfl, rfl⟩
      simp only [rdvAdvance, Sched.setEnds, Function.update_self]
      rfl

/-! ### `__t_kill` after its first call -/

theorem killInfo_dead (status : U32) (info : TInfo) :
    (killInfo status info).flags &&& TF_DEAD ≠ 0 := by
  have habs : (info.flags ||| TF_DEAD) &&& TF_DEAD = TF_DEAD := by
    ext i hi
    rw [BitVec.getElem_and, BitVec.getElem_or]
    cases info.flags[i] <;> simp
  rw [killInfo, habs]
  decide

/-- A kill that returns 0 has paused the thread. -/
theorem tKill_pause {status state : U32} {s' : Kernel}
    (h : tKill c r env thread status state s = some (0, s')) :
    ∃ x s₁, tPause c r env thread s = some (0, x, s₁) := by
  obtain ⟨⟨v, x, s₁⟩, hx, h⟩ := Option.bind_eq_some_iff.mp h
  dsimp only at h
  split at h
  · rename_i hv
    simp only [Option.some.injEq, Prod.mk.injEq] at h
    exact absurd h.1 hv
  · rename_i hv
    rw [not_not.mp hv] at hx
    exact ⟨x, s₁, hx⟩

/-- What a paused thread looks like to the rest of `__t_kill`. -/
structure PausedBy (c t : Ptr) (thread : U32) (s : Kernel) : Prop where
  system : SystemThread c s
  get : threadGet s.toSched thread.toInt = some t
  other : t ≠ c
  state : (s.tcb t).state = .paused ∨ (s.tcb t).state = .pausedw
  reaper : (s.ends .reaper).tail ≠ some c

theorem threadGet_named {k : Sched} {p : Ptr} (h : threadGet k thread.toInt = some p) :
    thread ≠ -1 := by
  rintro rfl
  rw [threadGet, if_pos (Or.inl (by decide))] at h
  cases h

/-- After the pause the kill goes through exactly when there is room for the FPU
area, and reports the thread. -/
theorem PausedBy.tKill (status state : U32) {x : TInfo} {s₁ : Kernel} (h : PausedBy c t thread s₁)
    (hp : tPause c r env thread s = some (0, x, s₁)) :
    (FxRoom s₁ t → ∃ s', Pinion.tKill c r env thread status state s = some (0, s') ∧
      Reported c t s₁ s') ∧
    (¬FxRoom s₁ t → Pinion.tKill c r env thread status state s = none) := by
  have hne := threadGet_named h.get
  obtain ⟨s₂, hget, hret⟩ := tGetstate_ok r env state h.system hne h.get h.other h.state
  set info := killInfo status (saveInfo s₁ env.info t)
  have hargs : KillArgs c t thread info s₂ := by
    refine ⟨hret.system h.system h.system.active, hne, ?_, h.other, ?_, killInfo_dead _ _, ?_, ?_⟩
    · rw [hret.sched]
      exact h.get
    · rw [hret.sched]
      exact h.state
    · rw [hret.img t h.other]
      rfl
    · rw [hret.sched]
      exact h.reaper
  have hroom : FxRoom s₂ t ↔ FxRoom s₁ t := by
    rw [FxRoom, FxRoom, hret.img t h.other, hret.mm]
  have hkill : Pinion.tKill c r env thread status state s =
      (tSetstate c r env thread state info s₂).bind fun z =>
        if z.1 ≠ 0 then some (z.1, z.2.2) else some (0, z.2.2) := by
    rw [Pinion.tKill, hp, Option.bind_some, if_neg (not_not.mpr rfl), hget, Option.bind_some,
      if_neg (not_not.mpr rfl)]
  refine ⟨fun room => ?_, fun full => ?_⟩
  · obtain ⟨s', hset, hrep⟩ := hargs.tSetstate_room r env state (hroom.mpr room)
    refine ⟨s', ?_, ?_⟩
    · rw [hkill, hset, Option.bind_some, if_neg (not_not.mpr rfl)]
    · obtain ⟨hsched, hflags, heax⟩ := hrep
      rw [hret.sched] at hsched heax
      exact ⟨hsched, hflags.trans hret.flags, heax⟩
  · rw [hkill, hargs.tSetstate_full r env state fun h => full (hroom.mp h)]
    rfl

/-! ### The reports -/

theorem threadGet_bound {k : Sched} {i : ℤ} {p : Ptr} (h : threadGet k i = some p) :
    0 ≤ i ∧ i < THREAD_COUNT ∧ k.table i.toNat = some p := by
  unfold threadGet at h
  split at h
  · cases h
  · rename_i hi
    exact ⟨by omega, by omega, h⟩

/-- Threads of the table have different words. -/
theorem IdsOk.word_inj {k : Sched} {p q : Ptr} (h : IdsOk k) (hp : Live k p) (hq : Live k q)
    (hw : idWord k p = idWord k q) : p = q := by
  obtain ⟨i, hi⟩ := hp
  obtain ⟨j, hj⟩ := hq
  obtain ⟨hp₀, hp₁, hpt⟩ := threadGet_bound (h i p hi)
  obtain ⟨hq₀, hq₁, hqt⟩ := threadGet_bound (h j q hj)
  have hmod := congrArg BitVec.toInt hw
  simp only [idWord, BitVec.toInt_ofInt, THREAD_COUNT] at hmod hp₁ hq₁
  rw [Int.bmod_eq_of_le (by omega) (by omega), Int.bmod_eq_of_le (by omega) (by omega)] at hmod
  rw [hmod, hqt, Option.some.injEq] at hpt
  exact hpt.symm

/-- Along a list without repetition whose members differ in `f`, one of them is met
once. -/
theorem count_take_map {α β : Type*} [DecidableEq α] [DecidableEq β] {f : α → β} {l : List α}
    {a : α} (hl : l.Nodup) (hf : ∀ b ∈ l, f b = f a → b = a) (ha : a ∈ l) :
    (∃ n, ((l.take n).map f).count (f a) = 1) ∧ ∀ n, ((l.take n).map f).count (f a) ≤ 1 := by
  have hcount : ∀ n, ((l.take n).map f).count (f a) = (l.take n).count a := by
    intro n
    rw [List.count_eq_countP, List.countP_map, List.count_eq_countP]
    refine List.countP_congr fun b hb => ?_
    simp only [Function.comp_apply, beq_iff_eq]
    exact ⟨hf b (List.mem_of_mem_take hb), fun h => by rw [h]⟩
  refine ⟨⟨l.length, ?_⟩, fun n => ?_⟩
  · rw [hcount, List.take_length]
    exact List.count_eq_one_of_mem hl ha
  · rw [hcount]
    exact List.nodup_iff_count_le_one.mp (hl.sublist (List.take_sublist n l)) a

/-- A waiting reaper gets the report, and the dead queue is empty. -/
theorem reports_waiting {s₁ s' : Kernel} {d : Side → List Ptr} {w : Ptr} (hi : Items s₁.toSched d)
    (hrep : Reported c t s₁ s') (hs' : SystemThread c s') (hends : s.ends = s₁.ends)
    (hw : (s₁.ends .reaper).tail = some w) (hwc : w ≠ c) (hwt : w ≠ t) (n : ℕ) :
    reports c r env s s' n = [idWord s₁.toSched t] := by
  have hsched : s'.toSched = makeReady (rdvAdvance .reaper s₁.toSched (s₁.tcb w).nextDead) w := by
    rw [hrep.sched, Sched.report, show (s₁.ends (Side.waiters .dead)).tail = some w from hw]
    rfl
  have hanswer : answered s s' = [idWord s₁.toSched t] := by
    have hst : (s'.tcb w).state = .queued := by
      rw [hsched, makeReady_state, if_pos rfl]
    rw [answered, hends, hw, Option.filter_some_pos (by simpa using hst)]
    simp only [Option.toList_some, List.map_cons, List.map_nil, hrep.eax w hw hwc hwt]
    rfl
  have hnil : d .dead = [] := by
    by_contra hne
    rw [show (s₁.ends .reaper).tail = none from hi.alone .dead hne] at hw
    cases hw
  have hdead : (s'.ends .dead).tail = none := by
    have hrep := hi.rep .dead
    rw [hnil] at hrep
    rw [hsched, (makeReady_rdv _ w).ends]
    simp only [rdvAdvance, Sched.setEnds, Function.update_of_ne (show Rdv.dead ≠ .reaper by decide)]
    exact hrep.first_eq
  rw [reports, hanswer, (getdeads_eq r env n hs').1, hdead]
  cases n <;> rfl

/-- With no reaper waiting, the reports are the ids along the dead queue. -/
theorem reports_idle (r : UserRegs) (env : Env) {s₁ s' : Kernel} (hrep : Reported c t s₁ s')
    (hs' : SystemThread c s')
    (hends : s.ends = s₁.ends) (hw : (s₁.ends .reaper).tail = none) (n : ℕ) :
    s'.toSched = rdvInsert .dead s₁.toSched t ∧
    reports c r env s s' n = (follow (fun p => ((rdvInsert .dead s₁.toSched t).tcb p).nextDead) n
      ((rdvInsert .dead s₁.toSched t).ends .dead).tail).map (idWord s₁.toSched) := by
  have hsched : s'.toSched = rdvInsert .dead s₁.toSched t := by
    rw [hrep.sched, Sched.report, show (s₁.ends (Side.waiters .dead)).tail = none from hw]
    rfl
  refine ⟨hsched, ?_⟩
  have hword : idWord s'.toSched = idWord s₁.toSched := by
    funext p
    rw [idWord, hsched, (rdvInsert_ids .dead s₁.toSched t).1 p]
    rfl
  rw [reports, answered, hends, hw, (getdeads_eq r env n hs').1, hword, hsched]
  rfl

/-- Behind other threads: the members of the queue have different ids. -/
theorem once_behind {k : Sched} {d : Side → List Ptr} {a : Ptr} (hi : Items k d) (hid : IdsOk k)
    (ht : Live k t) (hw : (k.ends .reaper).tail = none) (hdead : (k.ends .dead).tail = some a) :
    (∃ n, ((follow (fun p => ((rdvInsert .dead k t).tcb p).nextDead) n
      ((rdvInsert .dead k t).ends .dead).tail).map (idWord k)).count (idWord k t) = 1) ∧
    ∀ n, ((follow (fun p => ((rdvInsert .dead k t).tcb p).nextDead) n
      ((rdvInsert .dead k t).ends .dead).tail).map (idWord k)).count (idWord k t) ≤ 1 := by
  have hq := hi.rep .dead
  have hhead : (k.ends .dead).head ≠ none := by
    intro hnone
    rw [StrictQ, show (k.ends (Side.items .dead)).head = none from hnone] at hq
    rw [hq.toLoose.eq_nil_of_last] at hq
    have hfirst : (k.ends .dead).tail = none := hq.first_eq
    rw [hdead] at hfirst
    cases hfirst
  have hi' := hi.insert (v := .dead) hw ht fun hnone => absurd hnone hhead
  have hq' := hi'.rep .dead
  rw [Function.update_self] at hq'
  have hlive : ∀ p ∈ enqueue (d .dead) t, Live k p := by
    intro p hp
    obtain ⟨i, hpi⟩ := hi'.live .dead p (by rw [Function.update_self]; exact hp)
    exact ⟨i, (rdvInsert_ids .dead k t).2 ▸ hpi⟩
  have honce := count_take_map (f := idWord k) (a := t) hq'.nodup
    (fun p hp hw => hid.word_inj (hlive p hp) ht hw) (by simp [enqueue])
  simp only [← Rep.follow_eq hq'] at honce
  exact honce

/-- In an empty queue the thread comes first, followed by its old link. -/
theorem once_first_iff {k : Sched} {d : Side → List Ptr} (hi : Items k d)
    (hdead : (k.ends .dead).tail = none) :
    ((∃ n, ((follow (fun p => ((rdvInsert .dead k t).tcb p).nextDead) n
      ((rdvInsert .dead k t).ends .dead).tail).map (idWord k)).count (idWord k t) = 1) ∧
    ∀ n, ((follow (fun p => ((rdvInsert .dead k t).tcb p).nextDead) n
      ((rdvInsert .dead k t).ends .dead).tail).map (idWord k)).count (idWord k t) ≤ 1) ↔
    ∀ p, Reach (fun p => (k.tcb p).nextDead) (k.tcb t).nextDead p → idWord k p ≠ idWord k t := by
  have hhead : (k.ends .dead).head = none := by
    have hq := hi.rep .dead
    have hnil := hq
    rw [StrictQ, show (k.ends (Side.items .dead)).tail = none from hdead] at hnil
    rw [hnil.toLoose.eq_nil] at hq
    exact hq.last_eq
  have hins : rdvInsert .dead k t = k.setEnds .dead ⟨some t, some t⟩ := by
    rw [rdvInsert, hhead]
  have hfollow : ∀ n, follow (fun p => ((rdvInsert .dead k t).tcb p).nextDead) (n + 1)
      ((rdvInsert .dead k t).ends .dead).tail =
      t :: follow (fun p => (k.tcb p).nextDead) n (k.tcb t).nextDead := by
    intro n
    rw [hins]
    simp only [Sched.setEnds, Function.update_self]
    rfl
  constructor
  · rintro ⟨-, hle⟩ p hp hw
    obtain ⟨n, hn⟩ := exists_mem_follow.mpr hp
    have hcount := hle (n + 1)
    rw [hfollow, List.map_cons, List.count_cons_self] at hcount
    have hmem : idWord k t ∈
        (follow (fun p => (k.tcb p).nextDead) n (k.tcb t).nextDead).map (idWord k) :=
      hw ▸ List.mem_map_of_mem hn
    have hpos := List.count_pos_iff.mpr hmem
    omega
  · intro hfresh
    have hone : ∀ n, ((follow (fun p => ((rdvInsert .dead k t).tcb p).nextDead) (n + 1)
        ((rdvInsert .dead k t).ends .dead).tail).map (idWord k)).count (idWord k t) = 1 := by
      intro n
      rw [hfollow, List.map_cons, List.count_cons_self, List.count_eq_zero_of_not_mem]
      intro hmem
      obtain ⟨p, hp, hw⟩ := List.mem_map.mp hmem
      exact hfresh p (exists_mem_follow.mp ⟨n, hp⟩) hw
    refine ⟨⟨1, hone 0⟩, fun n => ?_⟩
    cases n with
    | zero => simp [follow]
    | succ n => exact (hone n).le

/-- **Exactly one report**: unless the thread enters an empty dead queue in front of
another thread of its id. -/
theorem reports_once_iff (r : UserRegs) (env : Env) {s₁ s' : Kernel} {d : Side → List Ptr}
    (hi : Items s₁.toSched d) (hid : IdsOk s₁.toSched) (ht : Live s₁.toSched t)
    (hrep : Reported c t s₁ s') (hs' : SystemThread c s') (hends : s.ends = s₁.ends)
    (hw : ∀ w, (s₁.ends .reaper).tail = some w → w ≠ c ∧ w ≠ t) :
    ((∃ n, (reports c r env s s' n).count (idWord s₁.toSched t) = 1) ∧
      ∀ n, (reports c r env s s' n).count (idWord s₁.toSched t) ≤ 1) ↔
    ((s₁.ends .reaper).tail = none → (s₁.ends .dead).tail = none →
      ∀ p, Reach (fun p => (s₁.tcb p).nextDead) (s₁.tcb t).nextDead p →
        idWord s₁.toSched p ≠ idWord s₁.toSched t) := by
  cases htail : (s₁.ends .reaper).tail with
  | some w =>
    obtain ⟨hwc, hwt⟩ := hw w htail
    have hone : ∀ n, (reports c r env s s' n).count (idWord s₁.toSched t) = 1 := by
      intro n
      rw [reports_waiting hi hrep hs' hends htail hwc hwt, List.count_singleton_self]
    exact iff_of_true ⟨⟨0, hone 0⟩, fun n => (hone n).le⟩ (by simp)
  | none =>
    have hreports := fun n => (reports_idle r env hrep hs' hends htail n).2
    simp only [hreports, true_implies]
    cases hdead : (s₁.ends .dead).tail with
    | some a => exact iff_of_true (once_behind hi hid ht htail hdead) (by simp)
    | none =>
      rw [once_first_iff hi hdead]
      simp only [true_implies]

/-! ### The protocol -/

/-- What a `PAUSE` that returns leaves for the rest of the kill. -/
structure Pausing (c t : Ptr) (thread : U32) (s s₁ : Kernel) (st : TState) : Prop where
  by_pause : PausedBy c t thread s₁
  state : (s₁.tcb t).state = st
  rdv : SameRdv s.toSched s₁.toSched
  ids : SameIds s.toSched s₁.toSched
  room : FxRoom s₁ t ↔ FxRoom s t

/-- `PAUSE` of a queued or waiting thread touches the run queue or an event queue. -/
theorem Returns.pausing {k : Sched} {s₁ : Kernel} {st : TState}
    (hret : Returns c s s₁ (k.setState t st)) (hst : st = .paused ∨ st = .pausedw)
    (hs : SystemThread c s) (ht : threadGet s.toSched thread.toInt = some t) (htc : t ≠ c)
    (hreaper : (s.ends .reaper).tail ≠ some c) (hk : SameRdv s.toSched k)
    (hids : SameIds s.toSched k) (hact : k.active = s.active) :
    Pausing c t thread s s₁ st := by
  have hstate : (s₁.tcb t).state = st := by
    rw [hret.sched, setState_state, if_pos rfl]
  have hrdv : SameRdv s.toSched s₁.toSched := by
    rw [hret.sched]
    exact hk.trans (setState_rdv k t st)
  have hsame : SameIds s.toSched s₁.toSched := by
    rw [hret.sched]
    exact hids.trans (setState_ids k t st)
  refine ⟨⟨hret.system hs (hact.trans hs.active), ?_, htc, hstate ▸ hst, ?_⟩, hstate, hrdv, hsame,
    ?_⟩
  · rw [threadGet, hrdv.table]
    exact ht
  · rw [hrdv.ends]
    exact hreaper
  · rw [FxRoom, FxRoom, hret.img t htc, hret.mm]

/-- What the protocol uses of a state of a run. -/
structure KillState (c t : Ptr) (thread : U32) (s : Kernel) (q : Lists) (d : Side → List Ptr) :
    Prop where
  sound : Sound s.toSched q
  items : Items s.toSched d
  ids : IdsOk s.toSched
  word : idWord s.toSched t = thread
  live : Live s.toSched t
  system : SystemThread c s
  get : threadGet s.toSched thread.toInt = some t
  other : t ≠ c

section KillState

variable {q : Lists} {d : Side → List Ptr} (h : KillState c t thread s q d)

include h

theorem KillState.running : (s.tcb c).state = .running :=
  (h.sound.placed c).active h.system.active

/-- The threads on the reaper queue are paused. -/
theorem KillState.reaper {w : Ptr} (hw : (s.ends .reaper).tail = some w) :
    (s.tcb w).state = .paused := by
  have hq := h.sound.links.waiters .dead
  rw [StrictQ, show (s.ends (Side.waiters .dead)).tail = some w from hw] at hq
  exact ((h.sound.placed w).waiters .dead hq.toLoose.first_mem).1

theorem KillState.reaper_ne : (s.ends .reaper).tail ≠ some c := by
  intro hw
  have hst := h.reaper hw
  rw [h.running] at hst
  cases hst

theorem KillState.target_ne (hst : (s.tcb t).state ≠ .paused) : (s.ends .reaper).tail ≠ some t :=
  fun hw => hst (h.reaper hw)

/-- `PAUSE` of a queued thread returns 0. -/
theorem KillState.pause_queued (r : UserRegs) (env : Env) (hst : (s.tcb t).state = .queued) :
    ∃ x s₁, tPause c r env thread s = some (0, x, s₁) ∧ Pausing c t thread s s₁ .paused := by
  have hremv : ∃ v k, scheduleRemv s.toSched t = .ok (v, k) := by
    by_cases hmem : t ∈ q.run
    · obtain ⟨k, hk, -⟩ := h.sound.links.run.remv hmem
      exact ⟨0, k, hk⟩
    · exact ⟨1, _, h.sound.links.run.remv_of_notMem hmem⟩
  obtain ⟨v, k, hk⟩ := hremv
  obtain ⟨s₁, hp, hret⟩ := tPause_queued r env h.system (threadGet_named h.get)
    h.get hst hk
  obtain ⟨n, hd, tl, rfl⟩ := scheduleRemv_withRun hk
  exact ⟨_, s₁, hp, hret.pausing (Or.inl rfl) h.system h.get h.other h.reaper_ne
    (withRun_rdv s.toSched n hd tl) ⟨fun _ => rfl, rfl⟩ rfl⟩

/-- `PAUSE` returns 0 for a queued or a waiting thread only. -/
theorem KillState.pause_cases {x : TInfo} {s₁ : Kernel}
    (hp : tPause c r env thread s = some (0, x, s₁)) :
    (s.tcb t).state = .queued ∨
      (s.tcb t).state = .waiting ∧ Pausing c t thread s s₁ .pausedw := by
  have hne := threadGet_named h.get
  have hrefused : ∀ s', tPause c r env thread s ≠ some (TE_STATE, env.info, s') := by
    intro s' hs'
    rw [hp] at hs'
    simp [TE_STATE] at hs'
  cases hst : (s.tcb t).state with
  | queued => exact Or.inl rfl
  | waiting =>
    obtain ⟨v, k, hk, hret⟩ := tPause_waiting h.system hne h.get hst hp
    obtain ⟨n, ev, rfl⟩ := eventRemv_eq hk
    refine Or.inr ⟨rfl, hret.pausing (Or.inr rfl) h.system h.get h.other h.reaper_ne ?_
      ⟨fun _ => rfl, rfl⟩ rfl⟩
    refine ⟨?_, rfl, rfl⟩
    intro q p
    cases q <;> rfl
  | running =>
    -- another running thread: the processor is given to the head of the run queue
    have hhead := tPause_running h.system hne h.get hst hp
    have hrun := h.sound.links.run
    rw [RunQ, hhead] at hrun
    exact absurd hrun.toLoose.first_mem (h.sound.off_running h.running).run
  | free | paused | pausedw =>
    obtain ⟨s', hs'⟩ := tPause_refused r env h.system hne h.get (by rw [hst]; decide)
      (by rw [hst]; decide) (by rw [hst]; decide)
    exact absurd hs' (hrefused s')

end KillState

section After

variable {s₁ s' : Kernel} {st : TState} (hpause : Pausing c t thread s s₁ st)
  (hrep : Reported c t s₁ s')

include hpause hrep

/-- After the kill, and after any number of `GETDEAD`, the caller still runs and
finds the thread, in the state the pause left. -/
theorem Pausing.after (r : UserRegs) (env : Env) (hw : (s.ends .reaper).tail ≠ some t) (n : ℕ) :
    SystemThread c s' ∧ SystemThread c (getdeads c r env n s').2 ∧
    threadGet (getdeads c r env n s').2.toSched thread.toInt = some t ∧
    (((getdeads c r env n s').2.tcb) t).state = st ∧
    (((getdeads c r env n s').2.tcb) t).id = (s.tcb t).id := by
  have hsys : SystemThread c s' := by
    refine ⟨?_, ?_⟩
    · rw [hrep.sched, report_active]
      exact hpause.by_pause.system.active
    · rw [hrep.flags]
      exact hpause.by_pause.system.mode
  obtain ⟨-, hsys', htcb, htable⟩ := getdeads_eq r env n hsys
  have hids := report_ids s₁.toSched .dead t
  refine ⟨hsys, hsys', ?_, ?_, ?_⟩
  · rw [threadGet, htable, hrep.sched, hids.2]
    exact hpause.by_pause.get
  · rw [htcb, hrep.sched, Sched.report]
    have hw₁ : (s₁.ends (Side.waiters .dead)).tail ≠ some t := by
      rw [hpause.rdv.ends]
      exact hw
    cases htail : (s₁.ends (Side.waiters .dead)).tail with
    | none =>
      dsimp only
      rw [rdvInsert_state]
      exact hpause.state
    | some w =>
      have hwt : t ≠ w := by
        rintro rfl
        exact hw₁ htail
      dsimp only
      rw [makeReady_state, if_neg hwt]
      exact hpause.state
  · rw [htcb, hrep.sched, hids.1, hpause.ids.1]

end After

/-- The reports after the kill, in terms of the state before it. -/
theorem KillState.once_iff {q : Lists} {d : Side → List Ptr} {s₁ s' : Kernel} {st : TState}
    (h : KillState c t thread s q d) (r : UserRegs) (env : Env)
    (hst : (s.tcb t).state = .queued) (hpause : Pausing c t thread s s₁ st)
    (hrep : Reported c t s₁ s') :
    ((∃ n, (reports c r env s s' n).count thread = 1) ∧
      ∀ n, (reports c r env s s' n).count thread ≤ 1) ↔
    ((s.ends .reaper).tail = none → (s.ends .dead).tail = none →
      ∀ p, Reach (fun p => (s.tcb p).nextDead) (s.tcb t).nextDead p →
        idWord s.toSched p ≠ thread) := by
  have hwt := h.target_ne (by rw [hst]; decide)
  obtain ⟨hsys, -⟩ := hpause.after hrep r env hwt 0
  have hword : idWord s₁.toSched = idWord s.toSched := by
    funext p
    rw [idWord, hpause.ids.1 p]
    rfl
  have hlink : (fun p => (s₁.tcb p).nextDead) = fun p => (s.tcb p).nextDead :=
    funext fun p => hpause.rdv.link .dead p
  have hids : IdsOk s₁.toSched := by
    intro i p hp
    rw [hpause.rdv.table] at hp
    rw [threadGet, hpause.ids.1, hpause.rdv.table]
    exact h.ids i p hp
  have hlive : Live s₁.toSched t := by
    obtain ⟨i, hi⟩ := h.live
    exact ⟨i, by rw [hpause.rdv.table]; exact hi⟩
  have honce := reports_once_iff (s := s) r env (h.items.congr hpause.rdv) hids hlive hrep hsys
    hpause.rdv.ends.symm (by
      intro w hw
      rw [hpause.rdv.ends] at hw
      refine ⟨?_, ?_⟩
      · rintro rfl
        exact h.reaper_ne hw
      · rintro rfl
        exact hwt hw)
  rw [hword, h.word, hlink, hpause.rdv.ends, congrFun hlink t] at honce
  exact honce

theorem KernelReach.killState (h : KernelReach StepFreeOk s) (hs : SystemThread c s)
    (ht : threadGet s.toSched thread.toInt = some t) (htc : t ≠ c) :
    ∃ q d, KillState c t thread s q d := by
  have hblock : KernelReach StepBlockOk s := Reachable.mono (fun s i h => ⟨h.1, h.2.1⟩) h
  obtain ⟨q, hq⟩ := hblock.sound
  obtain ⟨d, hd⟩ := h.items
  obtain ⟨hpos, -, htable⟩ := threadGet_bound ht
  refine ⟨q, d, hq, hd, h.tableWf.idsOk, ?_, ⟨_, htable⟩, hs, ht, htc⟩
  rw [idWord, h.tableWf.id_eq _ _ htable, Int.toNat_of_nonneg hpos, BitVec.ofInt_toInt]

/-- **The kill protocol.**  In every run without freed references, `__t_kill` of
another thread, the report of its death and `__t_reap` work together exactly when
the thread is queued, there is room for its FPU area, and it enters the dead queue
behind no old link to its own id. -/
theorem killed_iff (h : KernelReach StepFreeOk s) (r : UserRegs) (env : Env)
    (status state info : U32) (hs : SystemThread c s)
    (ht : threadGet s.toSched thread.toInt = some t) (htc : t ≠ c) :
    Killed c r env thread status state info s ↔ KillOk t thread s := by
  obtain ⟨q, d, hkill⟩ := h.killState hs ht htc
  constructor
  · rintro ⟨s', hk, ⟨n, hone⟩, hall⟩
    obtain ⟨x, s₁, hp⟩ := tKill_pause hk
    -- with no room the kill does not return
    have hreported : ∀ st, Pausing c t thread s s₁ st → FxRoom s t ∧ Reported c t s₁ s' := by
      intro st hpause
      obtain ⟨hroom, hfull⟩ := hpause.by_pause.tKill status state hp
      by_cases hfx : FxRoom s₁ t
      · obtain ⟨s'', hk', hrep⟩ := hroom hfx
        rw [hk] at hk'
        cases hk'
        exact ⟨hpause.room.mp hfx, hrep⟩
      · rw [hfull hfx] at hk
        cases hk
    rcases hkill.pause_cases hp with hst | ⟨hst, hpause⟩
    · obtain ⟨x', s₁', hp', hpause⟩ := hkill.pause_queued r env hst
      rw [hp] at hp'
      cases hp'
      obtain ⟨hroom, hrep⟩ := hreported _ hpause
      exact ⟨hst, hroom, (hkill.once_iff r env hst hpause hrep).mp
        ⟨⟨n, hone⟩, fun n => (hall n).1⟩⟩
    · -- a waiting thread is now `TS_PAUSEDW`, and `REAP` refuses it
      obtain ⟨-, hrep⟩ := hreported _ hpause
      obtain ⟨-, hsys, hget, hstate, -⟩ :=
        hpause.after hrep r env (hkill.target_ne (by rw [hst]; decide)) n
      obtain ⟨x, s'', hreap, -⟩ := (hall n).2 (List.count_pos_iff.mp (by omega))
      obtain ⟨y, u, hrefused⟩ := tReap_refused r env info hsys hget (by rw [hstate]; decide)
      rw [hrefused] at hreap
      simp [TE_STATE] at hreap
  · rintro ⟨hst, hroom, hfresh⟩
    obtain ⟨x, s₁, hp, hpause⟩ := hkill.pause_queued r env hst
    obtain ⟨s', hk, hrep⟩ := (hpause.by_pause.tKill status state hp).1 (hpause.room.mpr hroom)
    obtain ⟨hone, hle⟩ := (hkill.once_iff r env hst hpause hrep).mpr hfresh
    refine ⟨s', hk, hone, fun n => ⟨hle n, fun _ => ?_⟩⟩
    obtain ⟨-, hsys, hget, hstate, hid⟩ :=
      hpause.after hrep r env (hkill.target_ne (by rw [hst]; decide)) n
    obtain ⟨s'', hreap, htable⟩ := tReap_paused r env info hsys hget htc hstate
    refine ⟨_, s'', hreap, ?_⟩
    obtain ⟨hpos, -, hslot⟩ := threadGet_bound ht
    rw [threadGet, htable, hid, h.tableWf.id_eq _ _ hslot, Int.toNat_natCast, Function.update_self]
    split <;> rfl

end Steps

/-- Thread 0 kills thread 1, which it has just spawned. -/
theorem killed_iff_spawned : ∃ s c, KernelReach StepFreeOk s ∧ SystemThread c s ∧
    Killed c ⟨0, 0, 0, 0, 0, 0, 0, 0, 0, 0, 0⟩ noEnv 1 0 0 0 s := by
  obtain ⟨s, hs, hf⟩ := exists_bootRun StepFreeOk [callOf 0x02 0]
    (fun s => s.active.any fun c => (s.table 1).any fun t =>
      decide (s.active = some c) && decide ((s.img c).flags &&& TF_USER = 0) && decide (t ≠ c) &&
      decide (s.table 1 = some t) && decide ((s.tcb t).state = .queued) &&
      decide ((s.tcb t).nextDead = none) &&
      (heapAlloc s.mm 512).toOption.any fun x => x.1.isSome) (by decide +kernel)
  simp only [Option.any_eq_true, Bool.and_eq_true, decide_eq_true_eq] at hf
  obtain ⟨c, -, t, -, ⟨⟨⟨⟨⟨hact, hmode⟩, htc⟩, ht⟩, hst⟩, hnext⟩, ⟨o, m⟩, halloc, ho⟩ := hf
  obtain ⟨p, rfl⟩ := Option.isSome_iff_exists.mp ho
  have hget : threadGet s.toSched (1 : U32).toInt = some t := ht
  refine ⟨s, c, hs, ⟨hact, hmode⟩,
    (killed_iff hs _ _ _ _ _ ⟨hact, hmode⟩ hget htc).mpr ⟨hst, ?_, ?_⟩⟩
  · exact fun _ => ⟨p, m, toOption_eq_some.mp halloc⟩
  · intro _ _ p hp
    rw [hnext] at hp
    cases hp

/-- The debugger: thread 1 faults, thread 0 gets it from `GETFAULT` and kills it, but
`PAUSE` refuses a thread that is paused. -/
theorem killed_iff_fails : ∃ s c t, KernelReach (fun _ _ => True) s ∧ SystemThread c s ∧
    (s.img c).eax = 1 ∧ s.table 1 = some t ∧ t ≠ c ∧ (s.img t).flags &&& TF_DEAD = 0 ∧
    ∀ r env status state info, ¬Killed c r env 1 status state info s := by
  obtain ⟨s, hs, hf⟩ := exists_bootRun (fun _ _ => True)
    [callOf 0x02 0, irqOf 0, .fault 14 ⟨0, 0, 0, 0, 0, 0, 0, 0, 0, 0, 0⟩ noEnv, callOf 0x09 0]
    (fun s => s.active.any fun c => (s.table 1).any fun t =>
      decide (s.active = some c) && decide ((s.img c).flags &&& TF_USER = 0) && decide (t ≠ c) &&
      decide (s.table 1 = some t) && decide ((s.tcb t).state = .paused) &&
      decide ((s.img t).flags &&& TF_DEAD = 0) && decide ((s.img c).eax = 1)) (by decide +kernel)
  simp only [Option.any_eq_true, Bool.and_eq_true, decide_eq_true_eq] at hf
  obtain ⟨c, -, t, -, ⟨⟨⟨⟨⟨hact, hmode⟩, htc⟩, ht⟩, hst⟩, hflags⟩, heax⟩ := hf
  refine ⟨s, c, t, hs, ⟨hact, hmode⟩, heax, ht, htc, hflags, ?_⟩
  rintro r env status state info ⟨s', hk, -⟩
  obtain ⟨x, s₁, hp⟩ := tKill_pause hk
  have hget : threadGet s.toSched (1 : U32).toInt = some t := ht
  obtain ⟨s₂, hrefused⟩ := tPause_refused r env ⟨hact, hmode⟩ (by decide) hget
    (by rw [hst]; decide) (by rw [hst]; decide) (by rw [hst]; decide)
  rw [hrefused] at hp
  simp [TE_STATE] at hp

end Pinion
