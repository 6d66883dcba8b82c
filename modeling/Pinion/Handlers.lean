/-
The handlers perform the effects of their actions.

This is the only module that opens the handlers of `kcall.c`, `fault.c` and
`timer.c` for the scheduler: what they do to it is `Effect`.

* `kcall_effect`, `fault_effect`, `timer_effect` — one lemma per handler;
* `handled_effect` — a handler that returns performs the effect of its action,
  and keeps `TableWf`;
* `schedule_picks` — the rest of `int_handler` picks the head of the run queue;
* `Init`, `KernelReach` — the states `init` leaves and the runs from them;
* `KernelReach.tableWf` — the table is well formed in every run.
-/
import Pinion.Actions

open Runs

namespace Pinion

/-! ### The handlers -/

theorem eventSend_send {s : Kernel} {e : ℕ} (he : e < EV_COUNT) :
    (eventSend s e).toSched = s.toSched.send e := by
  rw [eventSend_toSched he, Sched.send, Sched.wake]
  cases hf : (s.evqueue e).frontThread with
  | none => rw [eventWake_none hf]
  | some t => rw [eventWake_toSched hf]

theorem eventSend_mm (s : Kernel) (e : ℕ) : (eventSend s e).mm = s.mm := by
  unfold eventSend
  split
  · rfl
  · dsimp only
    split
    · simp only [irqReset, irqMask, writeMask, outb]
      split_ifs <;> exact eventWake_mm s e
    · exact eventWake_mm s e

/-- `event_wait` on an existing thread: the return value tells what happened. -/
theorem eventWait_cases {env : Env} {s s' : Kernel} {id e r : ℤ} {t : Ptr}
    (hg : threadGet s.toSched id = some t) (h : eventWait env s id e = .ok (r, s')) :
    (0 ≤ e ∧ e < EV_COUNT ∧ r = 0 ∧ s'.toSched = s.toSched.waitOn t e.toNat ∧ s'.mm = s.mm) ∨
      ((e < 0 ∨ (EV_COUNT : ℤ) ≤ e) ∧ s' = s) := by
  by_cases h₀ : e < 0
  · simp only [eventWait, hg, h₀, if_true] at h
    obtain ⟨v, -, h⟩ := bind_eq_ok.mp h
    cases h
    exact Or.inr ⟨Or.inl h₀, rfl⟩
  · by_cases h₁ : (EV_COUNT : ℤ) ≤ e
    · simp only [eventWait, hg, h₀, h₁, if_false, if_true] at h
      cases h
      exact Or.inr ⟨Or.inr h₁, rfl⟩
    · refine Or.inl ⟨not_lt.mp h₀, not_le.mp h₁, ?_⟩
      simp only [eventWait, hg, h₀, h₁, if_false] at h
      by_cases hl : s.irqstate e.toNat = 0
      · simp only [hl, ne_eq, not_true_eq_false, if_false] at h
        cases h
        refine ⟨rfl, ?_, ?_⟩
        · rw [Kernel.setState, Kernel.onSched, threadSave_toSched, Sched.waitOn]
          simp only [hl, ne_eq, not_true_eq_false, if_false]
          rfl
        · exact threadSave_mm _ _
      · simp only [hl, ne_eq, not_false_eq_true, if_true] at h
        cases h
        refine ⟨rfl, ?_, ?_⟩
        · rw [Kernel.onSched, threadSave_toSched, Sched.waitOn]
          simp only [hl, ne_eq, not_false_eq_true, if_true]
          rfl
        · exact threadSave_mm _ _

theorem push_report (v : Side) (s : Kernel) (t : Ptr) :
    (v.push s t).toSched = s.toSched.report v t ∧ (v.push s t).mm = s.mm := by
  rw [v.push_eq, rdvPush, Sched.report]
  cases (s.ends v.waiters).tail <;> exact ⟨rfl, rfl⟩

theorem wait_insert {v : Side} {s : Kernel} (h : (s.ends v.items).tail = none) (r : Ptr) :
    v.wait s r = s.onSched (rdvInsert v.waiters · r) := by
  rw [v.wait_eq, rdvWait, h]

/-- A caller that finds no item is paused and queued as a waiter. -/
theorem wait_paused {v : Side} {s : Kernel} (h : (s.ends v.items).tail = none) (c : Ptr) :
    v.wait ((threadSave s c).setState c .paused) c =
      ((threadSave s c).setState c .paused).onSched (rdvInsert v.waiters · c) := by
  refine wait_insert ?_ c
  rw [Kernel.setState, Kernel.onSched, threadSave_toSched]
  exact h

/-- The block of a new thread is fresh; unless the table is full it enters the
first free slot, paused. -/
theorem threadAlloc_cases {s s' : Kernel} {o : Option Ptr} (hw : TableWf s)
    (h : threadAlloc s = .ok (o, s')) :
    ∃ p, (∀ j, s.table j ≠ some p) ∧ HeapWf s'.mm ∧ Owned s'.mm p ∧
      (∀ q, Owned s.mm q → Owned s'.mm q) ∧
      ((o = none ∧ (∀ i < THREAD_COUNT, s.table i ≠ none) ∧
        s'.toSched = { s.toSched with tcb := Function.update s.tcb p Tcb.zero }) ∨
      ∃ i < THREAD_COUNT, o = some p ∧ s.table i = none ∧
        s'.toSched = { s.toSched with
          tcb := Function.update s.tcb p { Tcb.zero with id := i, state := .paused }
          table := Function.update s.table i (some p) }) := by
  unfold threadAlloc at h
  obtain ⟨⟨ob, m₁⟩, hm₁, h⟩ := bind_eq_ok.mp h
  cases ob with
  | none => cases h
  | some p =>
    obtain ⟨⟨of, m₂⟩, hm₂, h⟩ := bind_eq_ok.mp h
    obtain ⟨hwf₁, hnot, hown₁, hkeep₁⟩ := heapAlloc_thread hw.heap hm₁
    obtain ⟨hwf₂, hkeep₂⟩ := heapAlloc_fx hwf₁ hm₂
    refine ⟨p, fun j hj => hnot (hw.owned j p hj), ?_⟩
    dsimp only at h
    split at h
    · rename_i hfull
      cases h
      refine ⟨hwf₂, hkeep₂ p hown₁, fun q hq => hkeep₂ q (hkeep₁ q hq), Or.inl ⟨rfl, ?_, rfl⟩⟩
      intro i hi
      have hsome := List.find?_eq_none.mp hfull i (List.mem_range.mpr hi)
      simpa using hsome
    · rename_i i hi
      cases h
      refine ⟨hwf₂, hkeep₂ p hown₁, fun q hq => hkeep₂ q (hkeep₁ q hq), Or.inr
        ⟨i, List.mem_range.mp (List.mem_of_find?_eq_some hi), rfl, ?_, ?_⟩⟩
      · simpa using List.find?_some hi
      · simp only [Kernel.onSched, Sched.upd, Function.update_self, Function.update_idem]

/-- The scheduler and the memory of `SPAWN`. -/
theorem spawn_effect {env : Env} {s s' : Kernel} {c : Ptr} (hw : TableWf s)
    (h : kcallSpawn env s c = .ok s') : Effect c s.toSched .spawn s'.toSched ∧ TableWf s' := by
  obtain ⟨⟨id, s₁⟩, h₁, h⟩ := bind_eq_ok.mp h
  obtain ⟨⟨o, s₂⟩, h₂, h₁⟩ := bind_eq_ok.mp h₁
  obtain ⟨p, hfresh, hwf, hown, hkeep, ⟨rfl, hfull, hs₂⟩ | ⟨i, hi, rfl, hslot, hs₂⟩⟩ :=
    threadAlloc_cases hw h₂
  · cases h₁
    simp only [if_true] at h
    cases h
    have hsched : (s₁.setEax c (-1)).toSched =
        { s.toSched with tcb := Function.update s.tcb p Tcb.zero } := hs₂
    rw [hsched]
    refine ⟨.spawnFull hfresh hfull, hwf, fun j q hq => ?_, fun j q hq => ?_, fun j q hq => ?_⟩ <;>
      simp only [hsched] at hq ⊢
    · have hqp : q ≠ p := fun hqp => hfresh j (hqp ▸ hq)
      rw [Function.update_of_ne hqp]
      exact hw.id_eq j q hq
    · exact hw.bound j q hq
    · exact hkeep q (hw.owned j q hq)
  · cases h₁
    have hid : (s₁.tcb p).id = i := by rw [hs₂]; simp
    have hget : threadGet s₁.toSched i = some p := by
      rw [threadGet_natCast hi, hs₂]
      simp
    have hne : ¬(i : ℤ) = -1 := by omega
    simp only [hid, hne, if_false, hget] at h
    have hs' := Except.ok.inj h
    have hmm : s'.mm = s₁.mm := by rw [← hs']; rfl
    have heq : s'.toSched = s.toSched.spawned p i := by
      rw [← hs']
      simp only [Kernel.setEax, Kernel.updImg, Kernel.setState, Kernel.onSched, hs₂,
        Sched.setState, Sched.upd, Sched.spawned, Function.update_idem, Function.update_self]
    rw [← hmm] at hwf hown hkeep
    refine ⟨?_, hw.spawned heq hfresh hi hwf hown hkeep⟩
    rw [heq]
    exact .spawn hfresh hslot hi

/-- An effect that is neither a spawn nor a reap keeps the table. -/
theorem Effect.tableWf {c : Ptr} {s k : Kernel} {a : Act} (h : Effect c s.toSched a k.toSched)
    (hw : TableWf s) (hs : a ≠ .spawn) (hr : ∀ t, a ≠ .reap t) (hm : Keeps s.mm k.mm) :
    TableWf k :=
  hw.keep (h.ids hs hr) hm

theorem reap_effect {env : Env} {s s' : Kernel} {c : Ptr} {info : TInfo} {f : U8} (hw : TableWf s)
    (h : kcallReap env s c = .ok (s', info)) :
    Effect c s.toSched (callAct s.toSched c (s.img c).ebx f .reap) s'.toSched ∧ TableWf s' := by
  unfold kcallReap at h
  split at h
  · cases h
  · rename_i t ht
    obtain ⟨i, hi, hbound, htab⟩ := threadGet_eq_some ht
    have hid := hw.id_eq i t htab
    simp only [callAct, ht]
    split at h
    · rename_i hst
      cases h
      rw [if_neg hst]
      exact ⟨.other, hw.keep ⟨fun _ => rfl, rfl⟩ (Keeps.refl _)⟩
    · rename_i hst
      rw [not_not] at hst
      rw [if_pos hst]
      have hs' := (Prod.mk.inj (Except.ok.inj h)).1
      have hsched : s'.toSched =
          { s.toSched with table := Function.update s.table i none } := by
        rw [← hs', threadKill]
        simp only [Kernel.setEax, Kernel.updImg, hid, Int.toNat_natCast]
      refine ⟨?_, ?_⟩
      · rw [hsched]
        exact .reap htab hst
      · -- the FPU area goes back first, then the block of the thread
        obtain ⟨m, hm, hfree, hbrk⟩ : ∃ m : Mem, s'.mm = heapFree m t sizeofThread ∧
            m.freeThreads = s.mm.freeThreads ∧ m.brk = s.mm.brk := by
          rw [← hs', threadKill]
          cases ((s.setEax c 0).img t).fxdata with
          | none => exact ⟨_, rfl, rfl, rfl⟩
          | some q => exact ⟨_, rfl, heapFree_fx s.mm q⟩
        have hwfm : HeapWf m := ⟨hbrk ▸ hw.heap.base, hbrk ▸ hw.heap.top, hfree ▸ hw.heap.nodup,
          fun p hp => hbrk ▸ hw.heap.inHeap p (hfree ▸ hp)⟩
        have hown : ∀ q, Owned s.mm q → Owned m q := fun q ho =>
          ⟨ho.base, hbrk ▸ ho.below, hfree ▸ ho.notFree⟩
        obtain ⟨hwf', hkeep⟩ := heapFree_thread hwfm (hown t (hw.owned i t htab))
        have hold : ∀ j q, s'.table j = some q → s.table j = some q ∧ q ≠ t := by
          intro j q hq
          rw [hsched] at hq
          have hji : j ≠ i := by
            rintro rfl
            simp at hq
          simp only [Function.update_of_ne hji] at hq
          refine ⟨hq, fun hqt => hji ?_⟩
          have hj := hw.id_eq j q hq
          rw [hqt, hid] at hj
          exact_mod_cast hj.symm
        refine ⟨hm ▸ hwf', fun j q hq => ?_, fun j q hq => ?_, fun j q hq => ?_⟩
        · rw [hsched]
          exact hw.id_eq j q (hold j q hq).1
        · exact hw.bound j q (hold j q hq).1
        · rw [hm]
          exact hkeep q (hown q (hw.owned j q (hold j q hq).1)) (hold j q hq).2

theorem pause_effect {s s' : Kernel} {c : Ptr} {f : U8} (hw : TableWf s)
    (h : kcallPause s c = .ok s') :
    Effect c s.toSched (callAct s.toSched c (s.img c).ebx f .pause) s'.toSched ∧ TableWf s' := by
  have hnamed : targetOrSelf s c = s.toSched.named c (s.img c).ebx := rfl
  unfold kcallPause at h
  rw [hnamed] at h
  cases ht : s.toSched.named c (s.img c).ebx with
  | none =>
    rw [ht] at h
    cases h
    simp only [callAct, ht, Option.map_none, Option.getD_none]
    exact ⟨.other, hw.keep ⟨fun _ => rfl, rfl⟩ (Keeps.refl _)⟩
  | some t =>
    rw [ht] at h
    dsimp only at h
    simp only [callAct, ht, Option.map_some, Option.getD_some, pauseAct]
    cases hst : (s.tcb t).state with
    | running =>
      rw [hst] at h
      cases h
      have heff : Effect c s.toSched (.pause t)
          (((threadSave s t).setState t .paused).setEax c 0).toSched := by
        convert Effect.pauseRunning hst using 1
        rw [Kernel.setEax, Kernel.updImg, Kernel.setState, Kernel.onSched, threadSave_toSched]
        rfl
      exact ⟨heff, heff.tableWf hw (by simp) (by simp)
        (Keeps.of_eq (threadSave_mm s t))⟩
    | queued =>
      rw [hst] at h
      obtain ⟨⟨r, k⟩, hk, h⟩ := bind_eq_ok.mp h
      cases h
      have heff := Effect.pauseQueued (c := c) (Sched.named_live ht) hst hk
      exact ⟨heff, heff.tableWf (k := ({ s with toSched := k }.setState t .paused).setEax c 0) hw
        (by simp) (by simp) (Keeps.refl _)⟩
    | waiting =>
      rw [hst] at h
      obtain ⟨⟨r, k⟩, hk, h⟩ := bind_eq_ok.mp h
      cases h
      have heff := Effect.pauseWaiting (c := c) hst hk
      exact ⟨heff, heff.tableWf (k := ({ s with toSched := k }.setState t .pausedw).setEax c 0) hw
        (by simp) (by simp) (Keeps.refl _)⟩
    | free | paused | pausedw =>
      rw [hst] at h
      cases h
      exact ⟨.other, hw.keep ⟨fun _ => rfl, rfl⟩ (Keeps.refl _)⟩

theorem resume_effect {env : Env} {s s' : Kernel} {c : Ptr} {f : U8} (hw : TableWf s)
    (h : kcallResume env s c = .ok s') :
    Effect c s.toSched (callAct s.toSched c (s.img c).ebx f .resume) s'.toSched ∧ TableWf s' := by
  unfold kcallResume at h
  cases ht : threadGet s.toSched (s.img c).ebx.toInt with
  | none =>
    rw [ht] at h
    cases h
    simp only [callAct, ht, Option.map_none, Option.getD_none]
    exact ⟨.other, hw.keep ⟨fun _ => rfl, rfl⟩ (Keeps.refl _)⟩
  | some t =>
    rw [ht] at h
    dsimp only at h
    simp only [callAct, ht, Option.map_some, Option.getD_some, resumeAct]
    obtain ⟨i, -, -, htab⟩ := threadGet_eq_some ht
    cases hst : (s.tcb t).state with
    | paused =>
      rw [hst] at h
      cases h
      have heff := Effect.resume (c := c) htab hst
      exact ⟨heff, heff.tableWf (k := (s.onSched (makeReady · t)).setEax c 0) hw (by simp)
        (by simp) (Keeps.refl _)⟩
    | pausedw =>
      rw [hst] at h
      obtain ⟨⟨r, s₁⟩, h₁, h⟩ := bind_eq_ok.mp h
      cases h
      rcases eventWait_cases (hw.get htab) h₁ with ⟨h₀, hlt, -, hs₁, hmm⟩ | ⟨hbad, rfl⟩
      · have heff :
            Effect c s.toSched (.rewait t) ((s₁.setState t .waiting).setEax c 0).toSched := by
          convert Effect.rewait htab hst (e := (s.tcb t).event.toNat) (Int.toNat_of_nonneg h₀).symm
            (by omega) using 1
          rw [← hs₁]
          rfl
        refine ⟨heff, heff.tableWf hw (by simp) (by simp) ?_⟩
        exact Keeps.of_eq hmm
      · have heff := Effect.rewaitBad (c := c) hst hbad
        exact ⟨heff, heff.tableWf (k := (s₁.setState t .waiting).setEax c 0) hw (by simp)
          (by simp) (Keeps.refl _)⟩
    | free | running | queued | waiting =>
      rw [hst] at h
      cases h
      exact ⟨.other, hw.keep ⟨fun _ => rfl, rfl⟩ (Keeps.refl _)⟩

theorem setstateKill_kill (s : Kernel) (t : Ptr) :
    (setstateKill s t).toSched = s.toSched.kill t ∧ (setstateKill s t).mm = s.mm := by
  unfold setstateKill Sched.kill
  obtain ⟨hs, hm⟩ := push_report .dead
    (if (s.tcb t).state = .running then (threadSave s t).setState t .paused else s) t
  have hdead : ∀ s : Kernel, deadPush s t = Side.dead.push s t := fun _ => rfl
  rw [hdead, hs, hm]
  split
  · rw [Kernel.setState, Kernel.onSched, threadSave_toSched, threadSave_mm]
    exact ⟨rfl, rfl⟩
  · exact ⟨rfl, rfl⟩

theorem setstateCopy_ok {src : TInfo} {s s' : Kernel} {t : Ptr}
    (h : setstateCopy src s t = .ok s') : s'.toSched = s.toSched ∧ Keeps s.mm s'.mm := by
  unfold setstateCopy at h
  dsimp only at h
  split at h
  · cases h
    exact ⟨rfl, Keeps.refl _⟩
  · obtain ⟨⟨o, m⟩, hm, h⟩ := bind_eq_ok.mp h
    cases o with
    | none => cases h
    | some p =>
      cases h
      exact ⟨rfl, fun hw => heapAlloc_fx hw hm⟩

theorem setstate_effect {env : Env} {s s' : Kernel} {c : Ptr} (hw : TableWf s)
    (h : kcallSetstate env s c = .ok s') :
    Effect c s.toSched (callAct s.toSched c (s.img c).ebx env.info.flags .setstate) s'.toSched ∧
      TableWf s' := by
  have hnamed : targetOrSelf s c = s.toSched.named c (s.img c).ebx := rfl
  unfold kcallSetstate at h
  rw [hnamed] at h
  cases ht : s.toSched.named c (s.img c).ebx with
  | none =>
    rw [ht] at h
    cases h
    simp only [callAct, ht]
    exact ⟨.other, hw.keep ⟨fun _ => rfl, rfl⟩ (Keeps.refl _)⟩
  | some t =>
    rw [ht] at h
    dsimp only at h
    simp only [callAct, ht]
    split at h
    case isFalse hst =>
      cases h
      rw [if_neg (fun h => hst h.1)]
      exact ⟨.other, hw.keep ⟨fun _ => rfl, rfl⟩ (Keeps.refl _)⟩
    case isTrue hst =>
      set s₁ := if env.info.flags &&& TF_DEAD ≠ 0 then setstateKill s t else s with hs₁
      set s₂ := setstateLoad env.info s₁ t with hs₂
      obtain ⟨src, -, h⟩ := bind_eq_ok.mp h
      have h₁₂ : s₂.toSched = s₁.toSched ∧ Keeps s₁.mm s₂.mm := by
        rw [hs₂, setstateLoad]
        split
        · exact ⟨rfl, Keeps.same (pctxLoad_heap _ _)⟩
        · exact ⟨rfl, Keeps.refl _⟩
      have hlast : s'.toSched = s₁.toSched ∧ Keeps s₁.mm s'.mm := by
        split at h
        · obtain ⟨s₃, h₃, h⟩ := bind_eq_ok.mp h
          cases h
          obtain ⟨hsched, hkeep⟩ := setstateCopy_ok h₃
          refine ⟨hsched.trans h₁₂.1, fun hwf => ?_⟩
          obtain ⟨hwf₂, hown₂⟩ := h₁₂.2 hwf
          obtain ⟨hwf₃, hown₃⟩ := hkeep hwf₂
          exact ⟨hwf₃, fun q ho => hown₃ q (hown₂ q ho)⟩
        · rw [pure_bind] at h
          cases h
          exact h₁₂
      have heff : Effect c s.toSched (if ((s.tcb t).state = .paused ∨ (s.tcb t).state = .pausedw ∨
          (s.tcb t).state = .running) ∧ env.info.flags &&& TF_DEAD ≠ 0 then .kill t else .other)
          s'.toSched ∧ Keeps s.mm s'.mm := by
        rw [hlast.1]
        by_cases hd : env.info.flags &&& TF_DEAD ≠ 0
        · obtain ⟨hk, hm⟩ := setstateKill_kill s t
          rw [if_pos ⟨hst, hd⟩, hs₁, if_pos hd, hk]
          refine ⟨.kill (Sched.named_live ht) hst, ?_⟩
          have hkeep := hlast.2
          rw [hs₁, if_pos hd, hm] at hkeep
          exact hkeep
        · rw [if_neg (fun h => hd h.2), hs₁, if_neg hd]
          refine ⟨.other, ?_⟩
          have hkeep := hlast.2
          rw [hs₁, if_neg hd] at hkeep
          exact hkeep
      refine ⟨heff.1, heff.1.tableWf hw ?_ ?_ heff.2⟩
      · split <;> simp
      · intro u
        split <;> simp

theorem request_effect (v : Side) {s s' : Kernel} {c : Ptr} (hw : TableWf s)
    (h : s' = match (s.ends v.items).tail with
      | some d => { s with toSched := (v.pull s.toSched).2 }.setEax c (BitVec.ofInt 32 (s.tcb d).id)
      | none => v.wait ((threadSave s c).setState c .paused) c) :
    Effect c s.toSched (.request v) s'.toSched ∧ TableWf s' := by
  have hboth : s'.toSched = s.toSched.request v c ∧ s'.mm = s.mm := by
    rw [h, Sched.request]
    cases ht : (s.ends v.items).tail with
    | some d =>
      dsimp only
      rw [v.pull_some ht]
      exact ⟨rfl, rfl⟩
    | none =>
      dsimp only
      have hs : ((threadSave s c).setState c .paused).toSched =
          s.toSched.release.setState c .paused := by
        rw [Kernel.setState, Kernel.onSched, threadSave_toSched]
        rfl
      have hm : ((threadSave s c).setState c .paused).mm = s.mm := threadSave_mm s c
      rw [wait_insert (by rw [hs]; exact ht), Kernel.onSched, hs, hm]
      exact ⟨rfl, rfl⟩
  have heff : Effect c s.toSched (.request v) s'.toSched := by
    rw [hboth.1]
    exact .request
  exact ⟨heff, heff.tableWf hw (by simp) (by simp)
    (Keeps.of_eq hboth.2)⟩

theorem wait_effect {env : Env} {s s' : Kernel} {c : Ptr} {f : U8} (hw : TableWf s)
    (h : kcallWait env s c = .ok s') :
    Effect c s.toSched (callAct s.toSched c (s.img c).ebx f .wait) s'.toSched ∧ TableWf s' := by
  obtain ⟨⟨r, s₁⟩, h₁, h⟩ := bind_eq_ok.mp h
  cases h
  cases ht : threadGet s.toSched (s.tcb c).id with
  | none =>
    simp only [callAct, ht]
    simp only [eventWait, ht] at h₁
    cases h₁
    exact ⟨.other, hw.keep ⟨fun _ => rfl, rfl⟩ (Keeps.refl _)⟩
  | some t =>
    simp only [callAct, ht]
    rcases eventWait_cases ht h₁ with ⟨h₀, hlt, -, hs₁, hmm⟩ | ⟨hbad, rfl⟩
    · rw [if_pos ⟨h₀, hlt⟩]
      have heff : Effect c s.toSched (.wait t (s.img c).ebx.toInt.toNat)
          (s₁.setEax c (BitVec.ofInt 32 r)).toSched := by
        convert Effect.wait ht (e := (s.img c).ebx.toInt.toNat) (by omega) using 1
        exact hs₁
      exact ⟨heff, heff.tableWf hw (by simp) (by simp)
        (Keeps.of_eq hmm)⟩
    · rw [if_neg (by omega)]
      exact ⟨.other, hw.keep ⟨fun _ => rfl, rfl⟩ (Keeps.refl _)⟩

theorem reset_effect {s : Kernel} {c : Ptr} {f : U8} (hw : TableWf s) :
    Effect c s.toSched (callAct s.toSched c (s.img c).ebx f .reset) (kcallReset s c).toSched ∧
      TableWf (kcallReset s c) := by
  by_cases hn : (s.img c).ebx.toNat < 240
  · have hsched : (kcallReset s c).toSched =
        { s.toSched with irqstate := Function.update s.irqstate (s.img c).ebx.toNat 0 } := by
      simp only [kcallReset, hn, if_true, Kernel.setEax, Kernel.updImg, irqUnmask]
      rw [writeMask_toSched]
    have hmm : (kcallReset s c).mm = s.mm := by
      simp only [kcallReset, hn, if_true, Kernel.setEax, Kernel.updImg, irqUnmask, writeMask, outb]
      split <;> rfl
    have heff : Effect c s.toSched (.reset (s.img c).ebx.toNat) (kcallReset s c).toSched := by
      rw [hsched]
      exact .reset hn
    simp only [callAct, hn, if_true]
    exact ⟨heff, heff.tableWf hw (by simp) (by simp)
      (Keeps.of_eq hmm)⟩
  · simp only [callAct, kcallReset, hn, if_false]
    exact ⟨.other, hw.keep ⟨fun _ => rfl, rfl⟩ (Keeps.refl _)⟩

theorem kcall_effect {env : Env} {s s' : Kernel} {c : Ptr} {info : TInfo} (hw : TableWf s)
    (h : kcall env s c = .ok (s', info)) :
    Effect c s.toSched (if (s.img c).flags &&& TF_USER ≠ 0 then .other
      else callAct s.toSched c (s.img c).ebx env.info.flags (Call.ofEax (s.img c).eax)) s'.toSched ∧
      TableWf s' := by
  have hquiet : ∀ {k : Kernel}, k.toSched = s.toSched → Keeps s.mm k.mm →
      Effect c s.toSched .other k.toSched ∧ TableWf k := by
    intro k hk hm
    rw [hk]
    exact ⟨.other, hw.keep ⟨fun _ => by rw [hk], by rw [hk]⟩ hm⟩
  unfold kcall at h
  split at h
  case isTrue hu =>
    rw [if_pos hu]
    cases h
    exact hquiet rfl (Keeps.refl _)
  case isFalse hu =>
    rw [if_neg hu]
    unfold kernelCall at h
    cases hc : Call.ofEax (s.img c).eax
    case spawn =>
      rw [hc] at h
      obtain ⟨s₁, h₁, h⟩ := map_eq_ok.mp h
      cases h
      exact spawn_effect hw h₁
    case reap =>
      rw [hc] at h
      exact reap_effect hw h
    case yield =>
      rw [hc] at h
      cases h
      have hsched : (kcallYield s c).toSched = makeReady s.toSched.release c := by
        rw [kcallYield, Kernel.onSched, threadSave_toSched]
        rfl
      have heff : Effect c s.toSched .yield (kcallYield s c).toSched := by
        rw [hsched]
        exact .yield
      have hmm : (kcallYield s c).mm = s.mm := threadSave_mm s c
      exact ⟨heff, heff.tableWf hw (by simp) (by simp)
        (Keeps.of_eq hmm)⟩
    case pause =>
      rw [hc] at h
      obtain ⟨s₁, h₁, h⟩ := map_eq_ok.mp h
      cases h
      exact pause_effect hw h₁
    case resume =>
      rw [hc] at h
      obtain ⟨s₁, h₁, h⟩ := map_eq_ok.mp h
      cases h
      exact resume_effect hw h₁
    case getstate =>
      rw [hc] at h
      have hs' := congrArg Prod.fst (Except.ok.inj h)
      have hsame : (kcallGetstate env s c).1.toSched = s.toSched ∧
          (kcallGetstate env s c).1.mm = s.mm := by
        unfold kcallGetstate
        split
        · exact ⟨rfl, rfl⟩
        · split <;> exact ⟨rfl, rfl⟩
      rw [hs'] at hsame
      exact hquiet hsame.1 (Keeps.of_eq hsame.2)
    case setstate =>
      rw [hc] at h
      obtain ⟨s₁, h₁, h⟩ := map_eq_ok.mp h
      cases h
      exact setstate_effect hw h₁
    case getdead =>
      rw [hc] at h
      cases h
      exact request_effect .dead hw rfl
    case getfault =>
      rw [hc] at h
      cases h
      exact request_effect .fault hw rfl
    case wait =>
      rw [hc] at h
      obtain ⟨s₁, h₁, h⟩ := map_eq_ok.mp h
      cases h
      exact wait_effect hw h₁
    case reset =>
      rw [hc] at h
      cases h
      exact reset_effect hw
    case gettid | sysret =>
      rw [hc] at h
      cases h
      exact hquiet rfl (Keeps.refl _)
    all_goals
      rw [hc] at h
      obtain ⟨⟨i, m⟩, hm, h⟩ := bind_eq_ok.mp h
      cases h
      exact hquiet rfl (Keeps.same (pagingCall_heap hm))

/-! ### Faults, interrupts and the timer -/

/-- Both fault handlers that return pause the thread and report it. -/
theorem fault_effect {s s₁ s' : Kernel} {c : Ptr} (hw : TableWf s)
    (hs₁ : s₁.toSched = s.toSched.release.setState c .paused) (hm₁ : s₁.mm = s.mm)
    (h : s' = faultPush s₁ c) : Effect c s.toSched .fault s'.toSched ∧ TableWf s' := by
  obtain ⟨hs, hm⟩ := push_report .fault s₁ c
  have hsched : s'.toSched = (s.toSched.release.setState c .paused).report .fault c := by
    rw [h, ← hs₁]
    exact hs
  have hmm : s'.mm = s.mm := by
    rw [h, ← hm₁]
    exact hm
  have heff : Effect c s.toSched .fault s'.toSched := by
    rw [hsched]
    exact .fault
  exact ⟨heff, heff.tableWf hw (by simp) (by simp)
    (Keeps.of_eq hmm)⟩

theorem faultGeneric_effect {s s' : Kernel} {c : Ptr} (hw : TableWf s)
    (h : faultGeneric s c = .ok s') : Effect c s.toSched .fault s'.toSched ∧ TableWf s' := by
  unfold faultGeneric at h
  split at h
  · cases h
  · refine fault_effect hw ?_ ?_ (Except.ok.inj h).symm
    · rw [Kernel.updImg, Kernel.setState, Kernel.onSched, threadSave_toSched]
      rfl
    · exact threadSave_mm s c

theorem faultPage_effect {env : Env} {s s' : Kernel} {c : Ptr} (hw : TableWf s)
    (h : faultPage env s c = .ok s') : Effect c s.toSched .fault s'.toSched ∧ TableWf s' := by
  unfold faultPage at h
  split at h
  · cases h
  · refine fault_effect hw ?_ ?_ (Except.ok.inj h).symm
    · rw [Kernel.setState, Kernel.onSched, Kernel.updImg, threadSave_toSched]
      rfl
    · exact threadSave_mm s c

theorem sends_toSched (fired : List ℕ) (hf : ∀ i ∈ fired, i < 16) : ∀ s : Kernel,
    (fired.foldl (fun s i => eventSend s (evVtimer i)) s).toSched =
      (fired.map evVtimer).foldl Sched.send s.toSched ∧
    (fired.foldl (fun s i => eventSend s (evVtimer i)) s).mm = s.mm := by
  induction fired with
  | nil => exact fun s => ⟨rfl, rfl⟩
  | cons i l ih =>
    intro s
    have hi : evVtimer i < EV_COUNT := by
      have := hf i (by simp)
      simp only [evVtimer, EV_COUNT]
      omega
    obtain ⟨hs, hm⟩ := ih (fun j hj => hf j (List.mem_cons_of_mem i hj)) (eventSend s (evVtimer i))
    rw [List.foldl_cons, List.map_cons, List.foldl_cons, hs, hm, eventSend_send hi, eventSend_mm]
    exact ⟨rfl, rfl⟩

theorem timersFired_lt {tick freq : U32} : ∀ i ∈ timersFired tick freq, i < 16 :=
  fun _ hi => List.mem_range.mp (List.mem_filter.mp hi).1

/-- The scheduler after `timer_handler`. -/
theorem timerHandler_tick (s : Kernel) (c : Ptr) :
    (timerHandler s c).toSched =
        s.toSched.tick c ((timersFired (s.tick + 1) s.pitFreq).map evVtimer) ∧
      (timerHandler s c).mm = s.mm := by
  set fired := timersFired (s.tick + 1) s.pitFreq with hfired
  obtain ⟨hs, hm⟩ := sends_toSched fired timersFired_lt { s with tick := s.tick + 1 }
  unfold timerHandler Sched.tick
  dsimp only
  rw [← hfired, ← hs]
  generalize List.foldl (fun s i => eventSend s (evVtimer i)) { s with tick := s.tick + 1 }
    fired = k at hm ⊢
  by_cases hr : (k.tcb c).state = .running
  · simp only [Kernel.updImg, hr, if_true]
    rw [Kernel.onSched, threadSave_toSched]
    exact ⟨rfl, (threadSave_mm _ _).trans hm⟩
  · simp only [Kernel.updImg, hr, if_false]
    exact ⟨trivial, hm⟩

/-- The events of a tick are virtual ones, each at most once. -/
theorem vtimers_virtual {tick freq : U32} :
    (∀ e ∈ (timersFired tick freq).map evVtimer, 240 ≤ e ∧ e < EV_COUNT) ∧
      ((timersFired tick freq).map evVtimer).Nodup := by
  have hlt : ∀ i ∈ timersFired tick freq, i < 16 := timersFired_lt
  refine ⟨fun e he => ?_, ?_⟩
  · obtain ⟨i, hi, rfl⟩ := List.mem_map.mp he
    have := hlt i hi
    simp only [evVtimer, EV_COUNT]
    omega
  · refine List.Nodup.map_on (fun i hi j hj hij => ?_) (List.nodup_range.filter _)
    have := hlt i hi
    have := hlt j hj
    simp only [evVtimer] at hij
    omega

theorem timer_effect {s : Kernel} {c : Ptr} (hw : TableWf s) :
    Effect c s.toSched (.tick ((timersFired (s.tick + 1) s.pitFreq).map evVtimer))
      (timerHandler s c).toSched ∧ TableWf (timerHandler s c) := by
  obtain ⟨hs, hm⟩ := timerHandler_tick s c
  have heff : Effect c s.toSched (.tick ((timersFired (s.tick + 1) s.pitFreq).map evVtimer))
      (timerHandler s c).toSched := by
    rw [hs]
    exact .tick vtimers_virtual.1 vtimers_virtual.2
  exact ⟨heff, heff.tableWf hw (by simp) (by simp)
    (Keeps.of_eq hm)⟩

/-! ### One entry -/

theorem trap_img (s : Kernel) (i : Input) :
    (trap s i).img s.image = pushFrame s.image i.num i.regs (s.img s.image) := by
  simp [trap, Kernel.updImg, Sched.image]

theorem Input.num_lt (i : Input) : i.num < 2 ^ 32 := by
  cases i with
  | call => simp [Input.num]
  | irq n => have := n.isLt; simp only [Input.num]; omega
  | fault n => have := n.isLt; simp only [Input.num]; omega

theorem trap_num (s : Kernel) (i : Input) : ((trap s i).img s.image).num.toNat = i.num := by
  rw [trap_img, pushFrame, BitVec.toNat_ofNat, Nat.mod_eq_of_lt i.num_lt]

/-- A wake-up writes `eax` only. -/
theorem eventSend_num {s : Kernel} {e : ℕ} (he : e < EV_COUNT) (p : Ptr) :
    ((eventSend s e).img p).num = (s.img p).num := by
  rw [eventSend_img he]
  cases hf : (s.evqueue e).frontThread with
  | none => rw [eventWake_none hf]
  | some t =>
    rw [eventWake_img hf]
    by_cases hp : p = t
    · subst hp; simp [Kernel.setEax, Kernel.updImg]
    · simp [Kernel.setEax, Kernel.updImg, hp]

theorem irqReset_mm (s : Kernel) (n : ℕ) : (irqReset s n).mm = s.mm := by
  unfold irqReset outb
  split
  · rfl
  · dsimp only
    split <;> rfl

theorem handled_call (s : Kernel) (r : UserRegs) (env : Env) :
    handled s (.call r env) = kcall env (trap s (.call r env)) s.image := by
  have hnum : ((trap s (.call r env)).img s.image).num.toNat = 0x81 := trap_num s _
  unfold handled handle
  dsimp only
  rw [show s.active.getD idleImage = s.image from rfl, hnum, if_neg (by omega), dispatch]
  rw [hnum, if_pos rfl]
  rfl

theorem handled_tick (s : Kernel) {n : Fin 16} (hn : n.val = 0) (r : UserRegs) (env : Env) :
    handled s (.irq n r env) =
      .ok (timerHandler (irqReset (trap s (.irq n r env)) 0) s.image, env.info) := by
  have hnum : ((trap s (.irq n r env)).img s.image).num.toNat = 32 + n.val := trap_num s _
  have hnum' : ((irqReset (trap s (.irq n r env)) 0).img s.image).num.toNat = 32 := by
    rw [irqReset_img, hnum, hn]
  unfold handled handle
  dsimp only
  rw [show s.active.getD idleImage = s.image from rfl, hnum, if_pos (by omega), if_neg (by omega),
    show 32 + n.val - 32 = 0 by omega, dispatch]
  rw [hnum', if_neg (by omega), if_pos rfl]
  rfl

theorem handled_irq (s : Kernel) {n : Fin 16} (hn : n.val ≠ 0) (r : UserRegs) (env : Env) :
    handled s (.irq n r env) = .ok (eventSend (trap s (.irq n r env)) n, env.info) := by
  have hlt := n.isLt
  have he : n.val < EV_COUNT := by simp only [EV_COUNT]; omega
  have hnum : ((trap s (.irq n r env)).img s.image).num.toNat = 32 + n.val := trap_num s _
  have hnum' : ((eventSend (trap s (.irq n r env)) n.val).img s.image).num.toNat = 32 + n.val := by
    rw [eventSend_num he, hnum]
  unfold handled handle
  dsimp only
  rw [show s.active.getD idleImage = s.image from rfl, hnum, if_pos (by omega), if_pos (by omega),
    show 32 + n.val - 32 = n.val by omega, dispatch]
  rw [hnum', if_neg (by omega), if_neg (by omega), if_neg (by omega), if_neg (by omega),
    if_neg (by omega)]
  rfl

theorem handled_fault (s : Kernel) (n : Fin 20) (r : UserRegs) (env : Env) :
    handled s (.fault n r env) =
      if n.val = 8 then .error (.panic "double fault exception")
      else if n.val = 14 then (·, env.info) <$> faultPage env (trap s (.fault n r env)) s.image
      else if n.val ≠ 15 then (·, env.info) <$> faultGeneric (trap s (.fault n r env)) s.image
      else .ok (trap s (.fault n r env), env.info) := by
  have hlt := n.isLt
  have hnum : ((trap s (.fault n r env)).img s.image).num.toNat = n.val := trap_num s _
  unfold handled handle
  dsimp only
  rw [show s.active.getD idleImage = s.image from rfl, hnum, if_neg (by omega), dispatch]
  rw [hnum, if_neg (by omega), if_neg (by omega)]
  simp only [show n.val ≤ 19 by omega, true_and]
  rfl

/-- **A handler that returns performs the effect of its action**, and the table
stays well formed. -/
theorem handled_effect {s s' : Kernel} {i : Input} {info : TInfo} (hw : TableWf s)
    (h : handled s i = .ok (s', info)) :
    Effect s.image s.toSched (i.act s) s'.toSched ∧ TableWf s' := by
  have hwt : TableWf (trap s i) := hw.keep ⟨fun _ => rfl, rfl⟩ (Keeps.refl _)
  cases i with
  | call r env =>
    rw [handled_call] at h
    have heff := kcall_effect hwt h
    rw [trap_img] at heff
    exact heff
  | irq n r env =>
    by_cases hn : n.val = 0
    · rw [handled_tick s hn] at h
      cases h
      have hmm := irqReset_mm (trap s (.irq n r env)) 0
      have hwr : TableWf (irqReset (trap s (.irq n r env)) 0) := by
        refine hwt.keep ?_ (Keeps.of_eq hmm)
        rw [irqReset_toSched]
        exact ⟨fun _ => rfl, rfl⟩
      simp only [Input.act, hn, if_true]
      exact timer_effect hwr
    · rw [handled_irq s hn] at h
      cases h
      have he : n.val < EV_COUNT := by
        have := n.isLt
        simp only [EV_COUNT]
        omega
      have heff : Effect s.image s.toSched (.irq n)
        (eventSend (trap s (.irq n r env)) n).toSched := by
        rw [eventSend_send he]
        exact .irq (by omega) n.isLt
      have hmm : (eventSend (trap s (.irq n r env)) n.val).mm = s.mm := eventSend_mm _ _
      simp only [Input.act, hn, if_false]
      exact ⟨heff, heff.tableWf hw (by simp) (by simp)
        (Keeps.of_eq hmm)⟩
  | fault n r env =>
    rw [handled_fault] at h
    split at h
    · cases h
    · split at h
      case isTrue h14 =>
        obtain ⟨s₁, h₁, h⟩ := map_eq_ok.mp h
        cases h
        simp only [Input.act, h14, show ¬14 = 15 by omega, if_false]
        have heff := faultPage_effect hwt h₁
        exact heff
      case isFalse =>
        split at h
        case isTrue h15 =>
          obtain ⟨s₁, h₁, h⟩ := map_eq_ok.mp h
          cases h
          simp only [Input.act, h15, if_false]
          have heff := faultGeneric_effect hwt h₁
          exact heff
        case isFalse h15 =>
          cases h
          simp only [Input.act, not_not.mp h15, if_true]
          exact ⟨.other, hwt⟩

/-! ### Picking a thread -/

/-- The rest of `int_handler`: an active thread goes on; otherwise the head of
the run queue is taken and runs. -/
inductive Picks (k : Sched) : Option Ptr → Sched → Prop
  | same {c : Ptr} (active : k.active = some c) : Picks k (some c) k
  | idle (active : k.active = none) (empty : k.schedHead = none) : Picks k none k
  | next {t : Ptr} {r : ℤ} {k' : Sched} (active : k.active = none) (head : k.schedHead = some t)
      (remv : scheduleRemv k t = .ok (r, k')) :
      Picks k (some t) ({ k' with active := some t }.setState t .running)

theorem Picks.table {k k' : Sched} {o : Option Ptr} (h : Picks k o k') : k'.table = k.table := by
  cases h with
  | same => rfl
  | idle => rfl
  | next active head remv =>
    obtain ⟨n, hd, tl, rfl⟩ := scheduleRemv_withRun remv
    rfl

theorem threadLoad_toSched (s : Kernel) (t : Ptr) :
    (threadLoad s t).toSched = { s.toSched with active := some t } ∧
      SameHeap s.mm (threadLoad s t).mm := by
  obtain hf | ⟨p, hf⟩ := Option.eq_none_or_eq_some (s.img t).fxdata <;>
    by_cases hp : (s.img t).pctx.toInt ≠ 0 ∧ (s.img t).pctx.toInt ≠ s.mm.activePctx <;>
    simp only [threadLoad, hf, fpuLoad, hp, ne_eq, not_false_eq_true, and_self, if_true, if_false]
  · exact ⟨trivial, pctxLoad_heap _ _⟩
  · exact ⟨trivial, SameHeap.refl _⟩
  · exact ⟨trivial, pctxLoad_heap _ _⟩
  · exact ⟨trivial, SameHeap.refl _⟩

theorem schedule_picks {s s' : Kernel} {o : Option Ptr} (hw : TableWf s)
    (h : schedule s = .ok (o, s')) : Picks s.toSched o s'.toSched ∧ TableWf s' := by
  unfold schedule at h
  cases ha : s.active with
  | some c =>
    rw [ha] at h
    cases h
    exact ⟨.same ha, hw⟩
  | none =>
    rw [ha] at h
    dsimp only at h
    cases hn : scheduleNext s.toSched with
    | none =>
      rw [hn] at h
      cases h
      exact ⟨.idle ha hn, hw⟩
    | some t =>
      rw [hn] at h
      obtain ⟨⟨r, k⟩, hk, h⟩ := bind_eq_ok.mp h
      cases h
      obtain ⟨hs, hm⟩ := threadLoad_toSched { s with toSched := k } t
      have hsched : ((threadLoad { s with toSched := k } t).setState t .running).toSched =
          { k with active := some t }.setState t .running := by
        rw [Kernel.setState, Kernel.onSched, hs]
      refine ⟨?_, hw.keep ?_ (Keeps.same hm)⟩
      · rw [hsched]
        exact .next ha hn hk
      · rw [hsched]
        obtain ⟨n, hd, tl, rfl⟩ := scheduleRemv_withRun hk
        exact setState_ids { s.withRun n hd tl with active := some t } t _

/-- One entry is a handler followed by the choice of a thread. -/
theorem step_cases {s s' : Kernel} {i : Input} {o : Option Ptr} {info : TInfo}
    (h : step s i = .ok (o, s', info)) :
    ∃ s₁, handled s i = .ok (s₁, info) ∧ schedule s₁ = .ok (o, s') := by
  obtain ⟨⟨s₁, info₁⟩, h₁, h⟩ := bind_eq_ok.mp h
  obtain ⟨⟨o₁, s₂⟩, h₂, h⟩ := bind_eq_ok.mp h
  cases h
  exact ⟨s₁, h₁, h₂⟩

/-! ### Runs of the kernel -/

/-- The states `init` hands to the first thread. -/
def Init (s : Kernel) : Prop :=
  ∃ m entry stack eflags, BootMem m ∧ bootstrap m entry stack eflags = .ok s

/-- The kernel after one entry. -/
def Kernel.next (s : Kernel) (i : Input) : Except Stop Kernel := (·.2.1) <$> step s i

/-- The states reached by entries that can arrive and meet `ok`. -/
def KernelReach (ok : Kernel → Input → Prop) : Kernel → Prop :=
  Reachable Kernel.next (fun s i => i.Enabled s.toSched ∧ ok s i) Init

/-- The scheduler when `init` returns: one thread, and it runs. -/
theorem Init.cases {s : Kernel} (h : Init s) : TableWf s ∧ ∃ p, ∃ i : ℕ, s.toSched =
    { tcb := Function.update (fun _ => Tcb.zero) p { Tcb.zero with id := i, state := .running }
      active := some p
      table := Function.update (fun _ => none) i (some p)
      schedHead := none
      schedTail := none
      evqueue := fun _ => ⟨none, none⟩
      irqstate := fun _ => 0
      ends := fun _ => ⟨none, none⟩ } := by
  obtain ⟨m, entry, stack, eflags, hm, h⟩ := h
  have hnone : ∀ j q, (Kernel.bss m).table j ≠ some q := fun j q hq => by
    simp [Kernel.bss] at hq
  have hbss : TableWf (Kernel.bss m) := ⟨hm.heapWf, fun j q hq => absurd hq (hnone j q),
    fun j q hq => absurd hq (hnone j q), fun j q hq => absurd hq (hnone j q)⟩
  obtain ⟨⟨id, s₁⟩, h₁, h⟩ := bind_eq_ok.mp h
  obtain ⟨⟨o, s₂⟩, h₂, h₁⟩ := bind_eq_ok.mp h₁
  obtain ⟨p, hfresh, hwf, hown, hkeep, ⟨-, hfull, -⟩ | ⟨i, hi, rfl, hslot, hs₂⟩⟩ :=
    threadAlloc_cases hbss h₂
  · exact absurd rfl (hfull 0 (by decide))
  · cases h₁
    have hid : (s₁.tcb p).id = i := by rw [hs₂]; simp
    have hget : threadGet s₁.toSched i = some p := by
      rw [threadGet_natCast hi, hs₂]
      simp
    simp only [hid, hget] at h
    have hs' := Except.ok.inj h
    obtain ⟨hload, hmem⟩ := threadLoad_toSched (s₁.updImg p fun im =>
      { im with
        useresp := stack, esp := p + 36, ss := 0x21, ds := 0x21
        cs := 0x19, eflags := eflags ||| 0x1200, eip := entry }) p
    have hsched : s.toSched = { s₁.toSched with active := some p }.setState p .running := by
      rw [← hs', Kernel.setState, Kernel.onSched, hload]
      rfl
    have hsame : SameHeap s₁.mm s.mm := by
      rw [← hs']
      exact hmem
    have htab : s.table = Function.update (fun _ => none) i (some p) := by
      rw [hsched, hs₂]
      rfl
    have hone : ∀ j q, s.table j = some q → j = i ∧ q = p := by
      intro j q hq
      rw [htab] at hq
      by_cases hj : j = i
      · subst hj
        rw [Function.update_self, Option.some.injEq] at hq
        exact ⟨rfl, hq.symm⟩
      · rw [Function.update_of_ne hj] at hq
        cases hq
    refine ⟨⟨hwf.same hsame, fun j q hq => ?_, fun j q hq => ?_, fun j q hq => ?_⟩, p, i, ?_⟩
    · obtain ⟨rfl, rfl⟩ := hone j q hq
      rw [hsched, hs₂]
      simp [Sched.setState, Sched.upd]
    · obtain ⟨rfl, rfl⟩ := hone j q hq
      exact hi
    · obtain ⟨rfl, rfl⟩ := hone j q hq
      exact hown.same hsame
    · rw [hsched, hs₂]
      simp only [Sched.setState, Sched.upd, Function.update_idem, Function.update_self]
      rfl

/-- One entry: the effect of its action, then the choice of a thread. -/
theorem next_cases {s s' : Kernel} {i : Input} (hw : TableWf s) (h : s.next i = .ok s') :
    ∃ k o, Effect s.image s.toSched (i.act s) k ∧ Picks k o s'.toSched ∧ TableWf s' := by
  obtain ⟨⟨o, s₂, info⟩, hs, rfl⟩ := map_eq_ok.mp h
  obtain ⟨s₁, h₁, h₂⟩ := step_cases hs
  obtain ⟨heff, hw₁⟩ := handled_effect hw h₁
  obtain ⟨hpick, hw₂⟩ := schedule_picks hw₁ h₂
  exact ⟨s₁.toSched, o, heff, hpick, hw₂⟩

theorem KernelReach.tableWf {ok : Kernel → Input → Prop} {s : Kernel} (h : KernelReach ok s) :
    TableWf s := by
  refine Reachable.invariant TableWf (fun s hs => hs.cases.1) (fun s i s' _ hw _ hs => ?_) h
  obtain ⟨-, -, -, -, hw'⟩ := next_cases hw hs
  exact hw'

/-! ### Runs on concrete inputs -/

/-- Boot on `flatMem` and run the inputs, refusing those that do not meet `ok`. -/
def bootRun (ok : Kernel → Input → Prop) [∀ s i, Decidable (ok s i)] (is : List Input) :
    Option Kernel :=
  (bootstrap flatMem 0 0 0).toOption.bind
    (replay Kernel.next (fun s i => i.Enabled s.toSched ∧ ok s i) is)

theorem bootRun_reach {ok : Kernel → Input → Prop} [∀ s i, Decidable (ok s i)] {is : List Input}
    {s : Kernel} (h : bootRun ok is = some s) : KernelReach ok s := by
  obtain ⟨s₀, h₀, h⟩ := Option.bind_eq_some_iff.mp h
  exact Reachable.of_replay
    (.start ⟨flatMem, 0, 0, 0, .empty rfl fun _ => rfl, toOption_eq_some.mp h₀⟩) h

/-- A state that a run reaches and that passes a test. -/
theorem exists_bootRun (ok : Kernel → Input → Prop) [∀ s i, Decidable (ok s i)]
    (is : List Input) (f : Kernel → Bool) (h : (bootRun ok is).any f = true) :
    ∃ s, KernelReach ok s ∧ f s = true := by
  obtain ⟨s, hs, hf⟩ := (Option.any_eq_true _ _).mp h
  exact ⟨s, bootRun_reach hs, hf⟩

/-- A kernel call with its number and first argument. -/
def callOf (eax ebx : U32) : Input := .call ⟨0, 0, 0, 0, ebx, 0, 0, eax, 0, 0, 0⟩ noEnv

/-- `SETSTATE` with `TF_DEAD`. -/
def killOf (ebx : U32) : Input :=
  .call ⟨0, 0, 0, 0, ebx, 0, 0, 0x08, 0, 0, 0⟩
    { noEnv with info := { noEnv.info with flags := TF_DEAD } }

def irqOf (n : Fin 16) : Input := .irq n ⟨0, 0, 0, 0, 0, 0, 0, 0, 0, 0, 0⟩ noEnv

end Pinion
