/-
Dead threads.

`SETSTATE` with `TF_DEAD` marks a thread and reports it.  The flag stands beside the
state, and none of the operations that schedule a thread reads it: a dead thread
rests because it is paused and on no queue, as long as nobody resumes it.

* `Kernel.Dead` — the flag is set;
* `handled_dead` — only `SETSTATE` sets it, by the `t_info` it stores;
* `DeadOk` — the actions that let dead threads rest: `RESUME` names no dead thread,
  and `SETSTATE` kills no thread that is blocked in `GETDEAD` or `GETFAULT`;
* `Input.KillsMarked` — `SETSTATE` stores the flag only where it has killed: it reads the
  `t_info` again in the paging context that it has loaded;
* `DeadInv`, `Effect.dead_rested` — the invariant and its step lemma;
* `dead_never_runs` — along every run of such actions no dead thread is queued,
  waits or runs.
-/
import Pinion.PauseResume
import Pinion.Images

open LinkedQueue Runs

namespace Pinion

/-- `TF_DEAD` is set. -/
def Kernel.Dead (s : Kernel) (p : Ptr) : Prop := (s.img p).flags &&& TF_DEAD ≠ 0

instance (s : Kernel) (p : Ptr) : Decidable (s.Dead p) := inferInstanceAs (Decidable (_ ≠ _))

/-! ### Who sets the flag -/

theorem dead_of_attrs {s s' : Kernel} {p : Ptr} (h : (s'.img p).attrs = (s.img p).attrs) :
    s'.Dead p ↔ s.Dead p := by
  have hflags : (s'.img p).flags &&& TF_DEAD = (s.img p).flags &&& TF_DEAD :=
    congrArg (fun a => a.2.2) h
  rw [Kernel.Dead, Kernel.Dead, hflags]

section Flag

variable {env : Env} {s s' : Kernel} {c p : Ptr}

/-- `SETSTATE` sets the flag of its target if it stores a `t_info` that has it. -/
theorem setstate_dead (h : kcallSetstate env s c = .ok s') (hp : s'.Dead p) :
    s.Dead p ∨ ∃ src, Stores env s c p src ∧ src.flags &&& TF_DEAD ≠ 0 := by
  rcases setstate_cases h with ⟨v, -, rfl, -⟩ | ⟨t, src, s₁, hstores, rfl, h₁⟩
  · exact Or.inl ((dead_of_attrs (setEax_attrs s c p v)).mp hp)
  · rw [dead_of_attrs (setEax_attrs s₁ c p 0)] at hp
    obtain ⟨hother, htarget⟩ := setstateBegin_img env.info src s t
    -- the copy of the registers leaves the flags alone
    have hflags : (s₁.img p).flags = ((setstateBegin env.info src s t).img p).flags := by
      rcases h₁ with ⟨-, hcopy⟩ | ⟨-, rfl⟩
      · exact (setstateCopy_attrs hcopy p).2
      · rfl
    have hdead : (setstateBegin env.info src s t).Dead p := by
      rw [Kernel.Dead, ← hflags]
      exact hp
    by_cases hpt : p = t
    · subst hpt
      refine Or.inr ⟨src, hstores, ?_⟩
      have hbit : ((setstateBegin env.info src s p).img p).flags &&& TF_DEAD =
          src.flags &&& TF_DEAD := congrArg (fun a => a.2.2) htarget
      rw [← hbit]
      exact hdead
    · exact Or.inl ((dead_of_attrs (hother p hpt)).mp hdead)

theorem reap_flags {info : TInfo} (h : kcallReap env s c = .ok (s', info)) (p : Ptr) :
    (s'.img p).flags = (s.img p).flags := by
  have heax : ∀ v, ((s.setEax c v).img p).flags = (s.img p).flags := by
    intro v
    by_cases hpc : p = c
    · simp only [Kernel.setEax, Kernel.updImg, hpc, Function.update_self]
    · simp only [Kernel.setEax, Kernel.updImg, Function.update_of_ne hpc]
  unfold kcallReap at h
  split at h
  · cases h
  · rename_i t _
    split at h
    · cases h
      exact heax _
    · cases h
      by_cases hpt : p = t
      · subst hpt
        simp only [threadKill, Function.update_self]
        exact heax 0
      · simp only [threadKill, Function.update_of_ne hpt]
        exact heax 0

theorem spawn_dead (hw : TableWf s) (h : kcallSpawn env s c = .ok s') (hp : s'.Dead p) :
    s.Dead p := by
  obtain ⟨t, -, -, -, -, -, -, -, hzero, hattrs, -⟩ := spawn_img hw h
  by_cases hpt : p = t
  · subst hpt
    have hbit : (s'.img p).flags &&& TF_DEAD = 0 := congrArg (fun a => a.2.2) hzero
    exact absurd hbit hp
  · exact (dead_of_attrs (hattrs p hpt)).mp hp

end Flag

theorem kcall_dead {env : Env} {s s' : Kernel} {c p : Ptr} {info : TInfo} (hw : TableWf s)
    (hsys : (s.img c).flags &&& TF_USER = 0) (h : kcall env s c = .ok (s', info))
    (hp : s'.Dead p) : s.Dead p ∨ Call.ofEax (s.img c).eax = .setstate ∧
      ∃ src, Stores env s c p src ∧ src.flags &&& TF_DEAD ≠ 0 := by
  have htouch := kcall_touched hw hsys rfl h
  unfold kcall at h
  rw [if_neg (not_not.mpr hsys), kernelCall] at h
  by_cases hset : Call.ofEax (s.img c).eax = .setstate
  · rw [hset] at h
    obtain ⟨s₁, h₁, h⟩ := map_eq_ok.mp h
    cases h
    exact (setstate_dead h₁ hp).imp_right fun hsrc => ⟨hset, hsrc⟩
  left
  by_cases hreap : Call.ofEax (s.img c).eax = .reap
  · rw [hreap] at h
    rwa [Kernel.Dead, reap_flags h] at hp
  by_cases hspawn : Call.ofEax (s.img c).eax = .spawn
  · rw [hspawn] at h
    obtain ⟨s₁, h₁, h⟩ := map_eq_ok.mp h
    cases h
    exact spawn_dead hw h₁ hp
  -- the other calls write registers only
  refine (dead_of_attrs (htouch.attrs p ?_)).mp hp
  rintro (⟨hc, -⟩ | hx | ⟨hx, -⟩)
  · exact hset hc
  · exact (callAct_frees (Or.inl hx)).elim hreap hspawn
  · exact (callAct_frees (p := p) (Or.inr hx)).elim hreap hspawn

/-- **Only `SETSTATE` sets the flag**, by a `t_info` that has it. -/
theorem handled_dead {s s' : Kernel} {i : Input} {info : TInfo} {p : Ptr} (hw : TableWf s)
    (h : handled s i = .ok (s', info)) (hp : s'.Dead p) :
    s.Dead p ∨ ∃ src, (p, src) ∈ i.stores s ∧ src.flags &&& TF_DEAD ≠ 0 := by
  by_cases hx : i.Rewrites s p
  case neg => exact Or.inl ((dead_of_attrs ((handled_touched hw h).attrs p hx)).mp hp)
  case pos =>
    cases i with
    | irq n r env =>
      simp only [Input.Rewrites, Input.SetsState, Input.act] at hx
      split at hx <;> simp at hx
    | fault n r env =>
      simp only [Input.Rewrites, Input.SetsState, Input.act] at hx
      split at hx <;> simp at hx
    | call r env =>
      have hwt : TableWf (trap s (.call r env)) := hw.keep ⟨fun _ => rfl, rfl⟩ (Keeps.refl _)
      have himg := trap_img s (.call r env)
      have htrap : (trap s (.call r env)).Dead p ↔ s.Dead p :=
        dead_of_attrs ((trap_touched s (.call r env) (W := noThread) (X := noThread)).attrs p id)
      rw [handled_call] at h
      rw [← htrap]
      by_cases hu : (s.img s.image).flags &&& TF_USER = 0
      · have hk := kcall_dead hwt (by rw [himg]; exact hu) h hp
        refine hk.imp_right fun hset => ?_
        obtain ⟨hcall, src, hsrc, hflag⟩ := hset
        rw [himg] at hcall
        exact ⟨src, hsrc.of_trap hu hcall, hflag⟩
      · -- a system call from user mode
        unfold kcall at h
        rw [if_pos (by rw [himg]; exact hu)] at h
        cases h
        have henter : Touched s.image noThread noThread (trap s (.call r env))
            ((trap s (.call r env)).updImg s.image syscallEnter) :=
          (Touched.of_img rfl).updImg (Or.inl rfl) fun _ => enter_attrs
        exact Or.inl ((dead_of_attrs (henter.attrs p id)).mp hp)

/-! ### One entry -/

/-- The actions that let dead threads rest. -/
def DeadOk (s : Kernel) : Act → Prop
  | .resume t => ¬s.Dead t
  | .rewait t => ¬s.Dead t
  | .kill t => Linked s.toSched .reaper t = false ∧ Linked s.toSched .debug t = false
  | _ => True

instance (s : Kernel) : ∀ a, Decidable (DeadOk s a)
  | .resume _ => inferInstanceAs (Decidable (¬_))
  | .rewait _ => inferInstanceAs (Decidable (¬_))
  | .kill _ => inferInstanceAs (Decidable (_ ∧ _))
  | .other | .spawn | .reap _ | .yield | .pause _ | .request _ | .wait _ _ | .reset _ | .fault
  | .irq _ | .tick _ => isTrue trivial

/-- `SETSTATE` stores `TF_DEAD` only where it has read it before, and killed the target. -/
def Input.KillsMarked (s : Kernel) (i : Input) : Prop :=
  ∀ x ∈ i.stores s, x.2.flags &&& TF_DEAD ≠ 0 → i.env.info.flags &&& TF_DEAD ≠ 0

instance (s : Kernel) (i : Input) : Decidable (i.KillsMarked s) :=
  inferInstanceAs (Decidable (∀ x ∈ i.stores s, _ → _))

theorem killsMarked_of_call {s : Kernel} {r : UserRegs} {env : Env}
    (h : Call.ofEax r.eax ≠ .setstate) : Input.KillsMarked s (.call r env) := by
  intro x hx
  rw [stores_of_call h] at hx
  cases hx

/-- The step condition of a run of the kernel. -/
def StepDeadOk (s : Kernel) (i : Input) : Prop :=
  StepBlockOk s i ∧ DeadOk s (i.act s) ∧ i.KillsMarked s

instance (s : Kernel) (i : Input) : Decidable (StepDeadOk s i) :=
  inferInstanceAs (Decidable (_ ∧ _ ∧ _))

/-- A `SETSTATE` that has read the flag kills its target. -/
theorem act_of_stores {s : Kernel} {i : Input} {t : Ptr} {src : TInfo}
    (h : (t, src) ∈ i.stores s) (hd : i.env.info.flags &&& TF_DEAD ≠ 0) : i.act s = .kill t := by
  cases i with
  | irq n r env => cases h
  | fault n r env => cases h
  | call r env =>
    rw [Option.mem_def, Input.stores] at h
    split at h
    case isFalse => cases h
    case isTrue hsys =>
      obtain ⟨u, hu, h⟩ := Option.bind_eq_some_iff.mp h
      split at h
      case isFalse => cases h
      case isTrue hset =>
        obtain ⟨src', -, hx⟩ := Option.map_eq_some_iff.mp h
        obtain ⟨rfl, -⟩ := Prod.mk.inj hx
        rw [Input.act, if_neg (not_not.mpr hsys.1), hsys.2]
        simp only [callAct, hu]
        exact if_pos ⟨hset, hd⟩

/-- The queues are sound, and every dead thread is paused and blocked nowhere. -/
structure DeadInv (s : Kernel) (q : Lists) : Prop where
  sound : Sound s.toSched q
  rested : ∀ t, Live s.toSched t → s.Dead t → Rested s.toSched q t

/-- A thread that is blocked nowhere rests after it is killed. -/
theorem kill_rested {k : Sched} {q : Lists} {t : Ptr} (hs : Sound k q)
    (hst : (k.tcb t).state = .paused ∨ (k.tcb t).state = .pausedw ∨ (k.tcb t).state = .running)
    (hoff : ∀ v, t ∉ q.waiters v) :
    ((k.kill t).tcb t).state = .paused ∨ ((k.kill t).tcb t).state = .pausedw := by
  -- the reaper that is woken is another thread
  have hwait : ∀ w, (k.ends .reaper).tail = some w → t ≠ w := by
    rintro w hw rfl
    exact hoff .dead (List.mem_of_head? ((hs.links.waiters .dead).first_eq.symm.trans hw))
  unfold Sched.kill
  split
  · left
    rw [(SameAt.report (k.release.setState t .paused) .dead t hwait).1, setState_state, if_pos rfl]
  · rename_i hr
    rw [(SameAt.report k .dead t hwait).1]
    exact hst.imp_right fun h => h.resolve_right hr

/-- **One handler keeps the dead at rest.** -/
theorem handled_rested {s s' : Kernel} {i : Input} {info : TInfo} {q : Lists} (hw : TableWf s)
    (hinv : DeadInv s q) (hen : i.Enabled s.toSched) (hok : StepDeadOk s i)
    (h : handled s i = .ok (s', info)) : ∃ q', DeadInv s' q' := by
  have hs := hinv.sound
  have hen' := Input.enabled_cases hen
  have heff := (handled_effect hw h).1
  obtain ⟨q', hq', hjoin⟩ := heff.sound hs hw.idsOk hen' hok.1
  refine ⟨q', hq', fun t hlive' hdead' => ?_⟩
  -- a dead thread was in the table before
  have hlive : Live s.toSched t := by
    obtain ⟨j, hj⟩ := hlive'
    rcases handled_new hw h hj with hold | hzero
    · exact ⟨j, hold⟩
    · have hbit : (s'.img t).flags &&& TF_DEAD = 0 := congrArg (fun a => a.2.2) hzero
      exact absurd hbit hdead'
  rcases handled_dead hw h hdead' with hdead | ⟨src, hsrc, hflag⟩
  · -- it was dead already, and nobody resumes it
    have hrest := hinv.rested t hlive hdead
    have hsame := heff.rested hs hw.idsOk hen' hlive hrest
      (fun ha => absurd hdead (by have := hok.2.1; rwa [ha] at this))
      (fun ha => absurd hdead (by have := hok.2.1; rwa [ha] at this))
    refine ⟨?_, fun v hv => ?_⟩
    · rw [hsame.1]
      exact hrest.state
    · rcases hjoin v t hv with hv | ⟨⟨v', hv'⟩, rfl⟩
      · exact hrest.off v hv
      · have hact : s.active = some s.image := by
          rcases hen' with hact | ⟨n, hn⟩ | ⟨f, hf⟩
          · exact hact
          · rw [hv'] at hn
            cases hn
          · rw [hv'] at hf
            cases hf
        have hrun := (hs.placed s.image).active hact
        exact hrest.ne (p := s.image) (by simp [hrun]) (by simp [hrun]) rfl
  · -- it is killed by this entry
    have hkill := act_of_stores hsrc (hok.2.2 (t, src) hsrc hflag)
    have hlinked := hok.2.1
    rw [hkill] at heff hlinked hjoin
    have hoff := hs.notBlocked hlinked
    generalize hk : s'.toSched = k' at heff
    cases heff with
    | kill live state =>
      refine ⟨?_, fun v hv => ?_⟩
      · exact kill_rested hs state hoff
      · rcases hjoin v t hv with hv | ⟨⟨v', hv'⟩, -⟩
        · exact hoff v hv
        · cases hv'

theorem schedule_rested {s s' : Kernel} {o : Option Ptr} {q : Lists} (hw : TableWf s)
    (hinv : DeadInv s q) (h : schedule s = .ok (o, s')) : ∃ q', DeadInv s' q' := by
  have hpick := (schedule_picks hw h).1
  obtain ⟨q', hq', hwaiters⟩ := hpick.sound hinv.sound
  refine ⟨q', hq', fun t hlive hdead => ?_⟩
  rw [Kernel.Dead, schedule_img h] at hdead
  have hrest := hinv.rested t ((Live.congr hpick.table t).mp hlive) hdead
  refine ⟨?_, fun v => ?_⟩
  · rw [(hpick.rested hinv.sound hrest).1]
    exact hrest.state
  · rw [hwaiters]
    exact hrest.off v

/-! ### Runs -/

/-- The thread could run: it is queued, it waits, or it runs. -/
def Sched.Scheduled (k : Sched) (p : Ptr) : Prop :=
  (k.tcb p).state = .queued ∨ (k.tcb p).state = .waiting ∨ (k.tcb p).state = .running

theorem DeadInv.not_scheduled {s : Kernel} {q : Lists} {t : Ptr} (h : DeadInv s q)
    (hlive : Live s.toSched t) (hdead : s.Dead t) : ¬s.toSched.Scheduled t := by
  rintro (hst | hst | hst) <;>
    exact (h.rested t hlive hdead).ne (p := t) (by simp [hst]) (by simp [hst]) rfl

theorem KernelReach.deadInv {s : Kernel} (h : KernelReach StepDeadOk s) : ∃ q, DeadInv s q := by
  refine Reachable.invariant (fun s => ∃ q, DeadInv s q) ?_ ?_ h
  · intro s hi
    obtain ⟨q, hq⟩ := hi.sound
    refine ⟨q, hq, fun t _ hdead => ?_⟩
    have hbit : (s.img t).flags &&& TF_DEAD = 0 := congrArg (fun a => a.2.2) (hi.attrs t)
    exact absurd hbit hdead
  · rintro s i s' hreach ⟨q, hq⟩ ⟨hen, hok⟩ hstep
    have hw : TableWf s := KernelReach.tableWf hreach
    obtain ⟨⟨o, s₂, info⟩, hs, rfl⟩ := map_eq_ok.mp hstep
    obtain ⟨s₁, h₁, h₂⟩ := step_cases hs
    obtain ⟨q₁, hq₁⟩ := handled_rested hw hq hen hok h₁
    exact schedule_rested (handled_effect hw h₁).2 hq₁ h₂

/-- **A dead thread never runs again**: along every run of allowed actions, when a
handler ends and when `int_handler` returns, no thread of the table that has `TF_DEAD`
set is queued, waits or runs. -/
theorem dead_never_runs {s : Kernel} (h : KernelReach StepDeadOk s) {t : Ptr} :
    (Live s.toSched t → s.Dead t → ¬s.toSched.Scheduled t) ∧
    ∀ i, i.Enabled s.toSched → StepDeadOk s i → ∀ s₁ info, handled s i = .ok (s₁, info) →
      Live s₁.toSched t → s₁.Dead t → ¬s₁.toSched.Scheduled t := by
  obtain ⟨q, hq⟩ := h.deadInv
  refine ⟨hq.not_scheduled, fun i hen hok s₁ info hs => ?_⟩
  obtain ⟨q₁, hq₁⟩ := handled_rested h.tableWf hq hen hok hs
  exact hq₁.not_scheduled

/-- Thread 0 pauses and kills thread 1, which stays paused. -/
theorem dead_never_runs_killed : ∃ s t, KernelReach StepDeadOk s ∧ Live s.toSched t ∧ s.Dead t ∧
    ¬s.toSched.Scheduled t := by
  obtain ⟨s, hs, hf⟩ := exists_bootRun StepDeadOk [callOf 0x02 0, callOf 0x05 1, killOf 1]
    (fun s => (s.table 1).any fun t => decide (s.Dead t)) (by decide +kernel)
  obtain ⟨t, ht, hdead⟩ := Option.any_eq_true _ _ |>.mp hf
  have hdead := of_decide_eq_true hdead
  exact ⟨s, t, hs, ⟨1, ht⟩, hdead, (dead_never_runs hs).1 ⟨1, ht⟩ hdead⟩

/-- Thread 0 pauses, kills and resumes thread 1: it is dead and on the run queue. -/
theorem dead_never_runs_fails : ∃ s t, KernelReach (fun _ _ => True) s ∧ Live s.toSched t ∧
    s.Dead t ∧ s.toSched.Scheduled t := by
  obtain ⟨s, hs, hf⟩ := exists_bootRun (fun _ _ => True)
    [callOf 0x02 0, callOf 0x05 1, killOf 1, callOf 0x06 1]
    (fun s => (s.table 1).any fun t => decide (s.Dead t ∧ (s.tcb t).state = .queued))
    (by decide +kernel)
  obtain ⟨t, ht, hf⟩ := Option.any_eq_true _ _ |>.mp hf
  obtain ⟨hdead, hst⟩ := of_decide_eq_true hf
  exact ⟨s, t, hs, ⟨1, ht⟩, hdead, Or.inl hst⟩

end Pinion
