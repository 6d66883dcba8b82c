/-
Exit status.

`__t_exit` and `__t_kill` hand a status to `SETSTATE` in `regs.eax`, and `__t_reap`
reads it from the image of the dead thread.  `SETSTATE` returns 0 in the `eax` of its
caller after it has copied the registers; when a thread exits, caller and target are
the same image, and the status is overwritten.

* `userCall_next`, `userCall_system` — a wrapper is one entry of a run;
* `Spares`, `SpareRun` — the entries between the death of a thread and its `REAP`;
* `handled_spared` — they leave the image of a dead thread alone;
* `exit_status` — after a kill the reaper finds the status, after an exit it finds 0.
-/
import Pinion.Dead
import Pinion.Kill

open LinkedQueue Runs

namespace Pinion

/-! ### Wrappers as entries of a run -/

section Calls

variable {c t : Ptr} {r : UserRegs} {env : Env} {v : U32} {info : TInfo} {s s' : Kernel}

theorem userCall_next (h : userCall c r env s = some (v, info, s')) :
    s.active = some c ∧ s.next (.call r env) = .ok s' ∧ s'.active = some c ∧
      v = (s'.img c).eax ∧ step s (.call r env) = .ok (some c, s', info) := by
  unfold userCall at h
  split at h
  · rename_i hact
    obtain ⟨⟨o, s₂, info₂⟩, hx, h⟩ := Option.bind_eq_some_iff.mp h
    dsimp only at h
    split at h
    · rename_i ho
      cases h
      have hstep : step s (.call r env) = .ok (o, s', info) := toOption_eq_some.mp hx
      rw [ho] at hstep
      obtain ⟨s₁, -, hsched⟩ := step_cases hstep
      refine ⟨hact, map_eq_ok.mpr ⟨_, hstep, rfl⟩, ?_, rfl, hstep⟩
      rcases schedule_cases hsched with ⟨rfl, ho⟩ | ⟨p, n, k, -, -, -, ho, rfl⟩
      · exact ho.symm
      · cases ho
        rfl
    · cases h
  · cases h

/-- A call from user mode comes back with its number in `eax`. -/
theorem userCall_system (h : userCall c r env s = some (v, info, s')) (hv : v ≠ r.eax) :
    SystemThread c s := by
  obtain ⟨hact, -, -, hret, hstep⟩ := userCall_next h
  have himage : s.image = c := by rw [Sched.image, hact, Option.getD_some]
  refine ⟨hact, ?_⟩
  by_contra hu
  obtain ⟨s₁, h₁, h₂⟩ := step_cases hstep
  have himg := trap_img s (.call r env)
  rw [himage] at himg
  rw [handled_call, himage, kcall, if_pos (by rw [himg]; exact hu)] at h₁
  cases h₁
  apply hv
  rw [hret, schedule_img h₂]
  simp only [Kernel.updImg, Function.update_self, himg]
  rfl

theorem SystemThread.enabled (hs : SystemThread c s) (r : UserRegs) (env : Env) :
    Input.Enabled s.toSched (.call r env) := by
  show s.active ≠ none
  rw [hs.active]
  simp

theorem act_system (hs : SystemThread c s) (r : UserRegs) (env : Env) :
    Input.act s (.call r env) =
      callAct s.toSched c r.ebx env.info.flags (Call.ofEax r.eax) := by
  have himage : s.image = c := by rw [Sched.image, hs.active, Option.getD_some]
  rw [Input.act, himage, if_neg (not_not.mpr hs.mode)]

end Calls

/-! ### Between death and `REAP` -/

/-- Any entry but a `SETSTATE` on `t` and its `REAP`. -/
def Spares (t : Ptr) (s : Kernel) (i : Input) : Prop := ¬i.SetsState s t ∧ i.act s ≠ .reap t

/-- A dead thread is woken by no action. -/
theorem DeadInv.not_woken {s : Kernel} {q : Lists} {t : Ptr} (h : DeadInv s q)
    (hrest : Rested s.toSched q t) (a : Act) : ¬s.toSched.wakes a t := by
  have hwait : ∀ v : Side, (s.ends v.waiters).tail ≠ some t := fun v hv =>
    hrest.off v (List.mem_of_head? ((h.sound.links.waiters v).first_eq.symm.trans hv))
  have hfront : ∀ e, (s.evqueue e).frontThread ≠ some t := by
    intro e he
    have hst := h.sound.front_waiting he
    exact hrest.ne (p := t) (by simp [hst]) (by simp [hst]) rfl
  cases a with
  | kill => exact hwait .dead
  | fault => exact hwait .fault
  | irq n => exact hfront n
  | tick fired =>
    rintro ⟨e, -, he⟩
    exact hfront e he
  | _ => exact id

/-- **What other threads do leaves the image of a dead thread alone.** -/
theorem handled_spared {s s' : Kernel} {i : Input} {info : TInfo} {q : Lists} {t : Ptr}
    (hw : TableWf s) (hinv : DeadInv s q) (hlive : Live s.toSched t) (hdead : s.Dead t)
    (hsp : Spares t s i) (h : handled s i = .ok (s', info)) : s'.img t = s.img t := by
  have hrest := hinv.rested t hlive hdead
  obtain ⟨j, hj⟩ := hlive
  refine (handled_touched hw h).same t ?_ (hinv.not_woken hrest _) ?_
  · -- the image an entry works on belongs to a running thread, or lies below the heap
    intro himage
    cases hact : s.active with
    | none =>
      have hidle : t = idleImage := by rw [himage, Sched.image, hact, Option.getD_none]
      have hbase := (hw.owned j t hj).base
      rw [hidle] at hbase
      exact absurd hbase (by decide)
    | some c =>
      have htc : t = c := by rw [himage, Sched.image, hact, Option.getD_some]
      have hrun := (hinv.sound.placed t).active (by rw [hact, htc])
      exact hrest.ne (p := t) (by simp [hrun]) (by simp [hrun]) rfl
  · rintro (hset | hreap | ⟨-, hfresh⟩)
    · exact hsp.1 hset
    · exact hsp.2 hreap
    · exact hfresh j hj

/-- The states of a run that goes on from `s₁` without a `SETSTATE` on `t` and before
its `REAP`. -/
def SpareRun (t : Ptr) (s₁ : Kernel) : Kernel → Prop :=
  Reachable Kernel.next (fun s i => (i.Enabled s.toSched ∧ StepDeadOk s i) ∧ Spares t s i)
    fun s => s = s₁

/-- Along such a run a dead thread keeps its slot and its image. -/
theorem SpareRun.image {t : Ptr} {s₁ s : Kernel} {j : ℕ} (h : SpareRun t s₁ s)
    (hreach : KernelReach StepDeadOk s₁) (hj : s₁.table j = some t) (hdead : s₁.Dead t) :
    KernelReach StepDeadOk s ∧ s.table j = some t ∧ s.img t = s₁.img t := by
  refine Reachable.invariant
    (fun s => KernelReach StepDeadOk s ∧ s.table j = some t ∧ s.img t = s₁.img t) ?_ ?_ h
  · rintro s rfl
    exact ⟨hreach, hj, rfl⟩
  · rintro s i s' - ⟨hs, hslot, himg⟩ ⟨hok, hsp⟩ hstep
    refine ⟨.next hs hok hstep, ?_⟩
    have hw : TableWf s := KernelReach.tableWf hs
    obtain ⟨q, hq⟩ := hs.deadInv
    obtain ⟨⟨o, s₂, info⟩, hx, rfl⟩ := map_eq_ok.mp hstep
    obtain ⟨s₃, h₃, h₄⟩ := step_cases hx
    have hd : s.Dead t := by
      rw [Kernel.Dead, himg]
      exact hdead
    refine ⟨?_, ?_⟩
    · rw [(schedule_picks (handled_effect hw h₃).2 h₄).1.table]
      exact (handled_effect hw h₃).1.table_keep hsp.2 hslot
    · rw [schedule_img h₄, handled_spared hw hq ⟨j, hslot⟩ hd hsp h₃]
      exact himg

/-! ### Dying -/

/-- The state after a `SETSTATE` with `TF_DEAD`: the run goes on, and the thread is
dead with `eax` as the status the reaper will read. -/
structure DeadWith (t : Ptr) (j : ℕ) (eax : U32) (s : Kernel) : Prop where
  reach : KernelReach StepDeadOk s
  slot : s.table j = some t
  dead : s.Dead t
  status : (s.img t).eax = eax

/-- A `REAP` that returns 0 tells the status. -/
theorem DeadWith.reaped {t c : Ptr} {j : ℕ} {eax thread info : U32} {s₁ s s' : Kernel}
    {r : UserRegs} {env : Env} {x : TInfo} (h : DeadWith t j eax s₁) (hrun : SpareRun t s₁ s)
    (hj : thread.toInt = j) (hs : SystemThread c s) (hinfo : info ≠ 0)
    (hreap : tReap c r env thread info s = some (0, x, s')) : x.regs.eax = eax := by
  obtain ⟨hreach, hslot, himg⟩ := hrun.image h.reach h.slot h.dead
  have hw : TableWf s := KernelReach.tableWf hreach
  obtain ⟨q, hq⟩ := hreach.deadInv
  have hdead : s.Dead t := by
    rw [Kernel.Dead, himg]
    exact h.dead
  have hrest := hq.rested t ⟨j, hslot⟩ hdead
  have hget : threadGet s.toSched thread.toInt = some t := by
    rw [hj, threadGet_natCast (hw.bound j t hslot)]
    exact hslot
  by_cases hst : (s.tcb t).state = .paused
  · have htc : t ≠ c := by
      have hrunning := (hq.sound.placed c).active hs.active
      exact hrest.ne (by simp [hrunning]) (by simp [hrunning])
    obtain ⟨s'', hcall, -⟩ := tReap_paused r env info hs hget htc hst
    rw [hreap, Option.some.injEq, Prod.mk.injEq, Prod.mk.injEq, if_pos hinfo] at hcall
    have hregs : (saveInfo s env.info t).regs.eax = (s.img t).eax := by
      simp only [saveInfo, hst]
      rfl
    rw [hcall.2.1, hregs, himg]
    exact h.status
  · obtain ⟨y, s'', hcall⟩ := tReap_refused r env info hs hget hst
    rw [hreap, Option.some.injEq, Prod.mk.injEq] at hcall
    exact absurd hcall.1 (by decide)

/-- **`SETSTATE` with `TF_DEAD`** on a thread that is blocked nowhere: the thread is
dead, with the status in `eax` unless the caller's return value lies there. -/
theorem setstate_dies {c t : Ptr} {j : ℕ} {s s' : Kernel} {r : UserRegs} {env : Env}
    {o : Option Ptr} {info : TInfo} (hreach : KernelReach StepDeadOk s) (hs : SystemThread c s)
    (hj : s.table j = some t) (heax : Call.ofEax r.eax = .setstate)
    (hnamed : s.toSched.named c r.ebx = some t) (hdead : env.info.flags &&& TF_DEAD ≠ 0)
    (hpctx : env.info.pctx = (s.img t).pctx)
    (hset : Settable (s.tcb t).state)
    (hoff : Linked s.toSched .reaper t = false ∧ Linked s.toSched .debug t = false)
    (hstep : step s (.call r env) = .ok (o, s', info)) :
    DeadWith t j (if t = c then 0 else env.info.regs.eax) s' := by
  have hw : TableWf s := KernelReach.tableWf hreach
  have hact : Input.act s (.call r env) = .kill t := by
    rw [act_system hs, heax]
    simp only [callAct, hnamed]
    exact if_pos ⟨hset, hdead⟩
  have hok : StepDeadOk s (.call r env) := by
    refine ⟨?_, ?_, fun _ _ _ => hdead⟩
    · rw [StepBlockOk, hact]
      trivial
    · rw [hact]
      exact hoff
  have hen := hs.enabled r env
  obtain ⟨s₁, h₁, h₂⟩ := step_cases hstep
  obtain ⟨q, hq⟩ := hreach.deadInv
  obtain ⟨q₁, hq₁⟩ := handled_rested hw hq hen hok h₁
  have hslot : s₁.table j = some t :=
    (handled_effect hw h₁).1.table_keep (by rw [hact]; simp) hj
  have hslot' : s'.table j = some t := by
    rw [(schedule_picks (handled_effect hw h₁).2 h₂).1.table]
    exact hslot
  -- what the handler writes to the image of the thread
  obtain ⟨hmode, hcall⟩ := kcall_system hs r env heax
  rw [handled_system hs, kcall, if_neg (not_not.mpr hmode), kernelCall, hcall] at h₁
  obtain ⟨s₂, hset₂, h₁⟩ := map_eq_ok.mp h₁
  cases h₁
  have htrap : (trap s (.call r env)).toSched.named c
    ((trap s (.call r env)).img c).ebx = some t := by
    rw [(trap_regs hs r env).2.1]
    exact hnamed
  rcases setstate_cases hset₂ with ⟨v, -, -, hrefused⟩ | ⟨t', src, s₃, ⟨ht', -, hsrc⟩, rfl, h₃⟩
  · exact absurd hset (hrefused t htrap)
  · rw [htrap, Option.some.injEq] at ht'
    subst ht'
    -- the target keeps its context, so the `t_info` is read once
    rw [trap_stored, Env.stored_keep hpctx.symm] at hsrc
    cases hsrc
    obtain ⟨-, htarget⟩ := setstateBegin_img env.info env.info (trap s (.call r env)) t
    have hflags : ((s₃.setEax c 0).img t).flags &&& TF_DEAD ≠ 0 := by
      have heq : ((s₃.setEax c 0).img t).flags &&& TF_DEAD = (s₃.img t).flags &&& TF_DEAD :=
        congrArg (fun a => a.2.2) (setEax_attrs s₃ c t 0)
      have hbit :
          ((setstateBegin env.info env.info (trap s (.call r env)) t).img t).flags &&& TF_DEAD =
          env.info.flags &&& TF_DEAD := congrArg (fun a => a.2.2) htarget
      rw [heq]
      rcases h₃ with ⟨-, hcopy⟩ | ⟨-, rfl⟩
      · rw [(setstateCopy_attrs hcopy t).2, hbit]
        exact hdead
      · rw [hbit]
        exact hdead
    refine ⟨.next hreach ⟨hen, hok⟩ (map_eq_ok.mpr ⟨_, hstep, rfl⟩), hslot', ?_, ?_⟩
    · rw [Kernel.Dead, schedule_img h₂]
      exact hflags
    · rw [schedule_img h₂]
      by_cases htc : t = c
      · rw [if_pos htc, htc, setEax_eax]
      · -- a dead thread does not run, so its registers were copied
        have hrest := hq₁.rested t ⟨j, hslot⟩ hflags
        rw [if_neg htc]
        simp only [Kernel.setEax, Kernel.updImg, Function.update_of_ne htc]
        rcases h₃ with ⟨-, hcopy⟩ | ⟨hrun, rfl⟩
        · obtain ⟨-, p, -, -, himg⟩ := setstateCopy_img hcopy
          rw [himg, Function.update_self]
          rfl
        · rcases hrest.state with hst | hst <;> cases hrun.symm.trans hst

/-! ### The status the reaper reads -/

/-- A thread that was blocked nowhere is blocked nowhere after an entry that is no
request. -/
theorem next_notBlocked {s s' : Kernel} {i : Input} {t : Ptr} {q : Lists} (hw : TableWf s)
    (hq : Sound s.toSched q) (hen : i.Enabled s.toSched) (hok : StepBlockOk s i)
    (hreq : ∀ v, i.act s ≠ .request v) (hoff : ∀ v, t ∉ q.waiters v) (h : s.next i = .ok s') :
    ∃ q', Sound s'.toSched q' ∧ ∀ v, t ∉ q'.waiters v := by
  obtain ⟨k, o, heff, hpick, -⟩ := next_cases hw h
  obtain ⟨q₁, hq₁, hjoin⟩ := heff.sound hq hw.idsOk (Input.enabled_cases hen) hok
  obtain ⟨q', hq', hwaiters⟩ := hpick.sound hq₁
  refine ⟨q', hq', fun v hv => ?_⟩
  rw [hwaiters] at hv
  rcases hjoin v t hv with hv | ⟨⟨v', hv'⟩, -⟩
  · exact hoff v hv
  · exact hreq v' hv'

theorem Sound.linked_false {k : Sched} {q : Lists} {t : Ptr} (h : Sound k q)
    (hoff : ∀ v, t ∉ q.waiters v) : Linked k .reaper t = false ∧ Linked k .debug t = false := by
  refine ⟨?_, ?_⟩
  · rw [Bool.eq_false_iff]
    exact fun hl => hoff .dead ((h.links.waiters .dead).linked_iff.mp hl)
  · rw [Bool.eq_false_iff]
    exact fun hl => hoff .fault ((h.links.waiters .fault).linked_iff.mp hl)

section Status

variable {c t : Ptr} {j : ℕ} {thread status state : U32} {r : UserRegs} {env : Env} {s s₁ : Kernel}

/-- A call of the running thread that does nothing to the scheduler goes on with the
run. -/
theorem KernelReach.call_other {v : U32} {info : TInfo} (h : KernelReach StepDeadOk s)
    (hs : SystemThread c s) (hact : Input.act s (.call r env) = .other)
    (hmark : Input.KillsMarked s (.call r env))
    (hcall : userCall c r env s = some (v, info, s₁)) : KernelReach StepDeadOk s₁ := by
  obtain ⟨-, hnext, -⟩ := userCall_next hcall
  refine .next h ⟨hs.enabled r env, ?_, ?_, hmark⟩ hnext
  · rw [StepBlockOk, hact]
    trivial
  · rw [hact]
    trivial

/-- `GETSTATE` that returns 0 returns the context of its target. -/
theorem tGetstate_pctx {x : TInfo} (hs : SystemThread c s)
    (hnamed : s.toSched.named c thread = some t)
    (hget : tGetstate c r env thread state s = some (0, x, s₁)) :
    x.pctx = (s₁.img t).pctx := by
  set u := stubRegs r 0x07 thread state
  obtain ⟨-, -, -, hret, -⟩ := userCall_next hget
  obtain ⟨s₂, hk, hsched⟩ := userCall_cases hs hget
  obtain ⟨hmode, hcall⟩ := kcall_system hs u env (rfl : _ = Call.getstate)
  rw [kcall, if_neg (not_not.mpr hmode), kernelCall, hcall, Except.ok.injEq] at hk
  have htarget : targetOrSelf (trap s (.call u env)) c = some t := by
    rw [targetOrSelf, (trap_regs hs u env).2.1]
    exact hnamed
  rw [schedule_img hsched] at hret ⊢
  rw [kcallGetstate, htarget] at hk
  dsimp only at hk
  split at hk
  · obtain ⟨rfl, -⟩ := Prod.mk.inj hk
    rw [setEax_eax] at hret
    exact absurd hret.symm (by decide)
  · obtain ⟨rfl, rfl⟩ := Prod.mk.inj hk
    exact (congrArg (·.1) (setEax_attrs (trap s (.call u env)) c t 0)).symm

/-- `__t_exit` leaves 0 in the image of the thread. -/
theorem tExit_dies (h : KernelReach StepDeadOk s) (hj : s.table j = some t)
    (hs : SystemThread t s) (hexit : tExit t r env status state s = some s₁) :
    DeadWith t j 0 s₁ := by
  obtain ⟨x, s₂, hget, hret⟩ := tGetstate_self r env state hs
  have hreach : KernelReach StepDeadOk s₂ := h.call_other hs (by rw [act_system hs]; rfl)
    (killsMarked_of_call (show Call.ofEax 0x07 ≠ _ by decide)) hget
  have hs₂ : SystemThread t s₂ := hret.system hs hs.active
  rw [tExit, hget, Option.bind_some, if_neg (not_not.mpr rfl), Option.map_eq_some_iff] at hexit
  obtain ⟨⟨o, s', info⟩, hx, rfl⟩ := hexit
  -- the thread runs, so it is blocked nowhere
  obtain ⟨q, hq⟩ := hreach.deadInv
  have hrun := (hq.sound.placed t).active hs₂.active
  have hoff := hq.sound.linked_false (hq.sound.off_running hrun).waiters
  have hself : s₂.toSched.named t (-1) = some t := if_pos rfl
  have hpctx : x.pctx = (s₂.img t).pctx := tGetstate_pctx hs (if_pos rfl) hget
  have hdies := setstate_dies hreach hs₂ (by rw [hret.sched]; exact hj) rfl hself
    (killInfo_dead status x) hpctx (Or.inr (Or.inr hrun)) hoff (toOption_eq_some.mp hx)
  rwa [if_pos rfl] at hdies

theorem callAct_pause (k : Sched) (c : Ptr) (ebx : U32) (f : U8) :
    callAct k c ebx f .pause = .other ∨ ∃ p, callAct k c ebx f .pause = .pause p := by
  cases ht : k.named c ebx with
  | none => exact Or.inl (by simp only [callAct, ht]; rfl)
  | some p =>
    simp only [callAct, ht, Option.map_some, Option.getD_some, pauseAct]
    cases (k.tcb p).state with
    | running | queued | waiting => exact Or.inr ⟨p, rfl⟩
    | free | paused | pausedw => exact Or.inl rfl

/-- A kill that returns 0 went through its three calls. -/
theorem tKill_cases (hkill : tKill c r env thread status state s = some (0, s₁)) :
    ∃ x s₂ y s₃ z, tPause c r env thread s = some (0, x, s₂) ∧
      tGetstate c r env thread state s₂ = some (0, y, s₃) ∧
      tSetstate c r env thread state (killInfo status y) s₃ = some (0, z, s₁) := by
  rw [tKill, Option.bind_eq_some_iff] at hkill
  obtain ⟨⟨v, x, s₂⟩, hpause, hkill⟩ := hkill
  dsimp only at hkill
  split at hkill
  case isTrue hv =>
    cases hkill
    exact absurd rfl hv
  case isFalse hv =>
    rw [Option.bind_eq_some_iff] at hkill
    obtain ⟨⟨w, y, s₃⟩, hget, hkill⟩ := hkill
    dsimp only at hkill
    split at hkill
    case isTrue hw =>
      cases hkill
      exact absurd rfl hw
    case isFalse hw =>
      rw [Option.bind_eq_some_iff] at hkill
      obtain ⟨⟨u, z, s₄⟩, hset, hkill⟩ := hkill
      dsimp only at hkill
      split at hkill
      case isTrue hu =>
        cases hkill
        exact absurd rfl hu
      case isFalse hu =>
        cases hkill
        rw [not_not] at hv hw hu
        subst hv hw hu
        exact ⟨x, s₂, y, s₃, z, hpause, hget, hset⟩

/-- `PAUSE` that returns 0 found a thread that was not paused. -/
theorem tPause_zero {x : TInfo} {s₂ : Kernel} (hs : SystemThread c s)
    (ht : threadGet s.toSched thread.toInt = some t)
    (hpause : tPause c r env thread s = some (0, x, s₂)) : (s.tcb t).state ≠ .paused := by
  intro hst
  obtain ⟨s', h⟩ := tPause_refused r env hs (threadGet_named ht) ht (by simp [hst]) (by simp [hst])
    (by simp [hst])
  rw [hpause, Option.some.injEq, Prod.mk.injEq] at h
  exact absurd h.1 (by decide)

/-- `SETSTATE` that returns 0 accepted its target. -/
theorem tSetstate_settable {info z : TInfo} (hs : SystemThread c s)
    (hnamed : s.toSched.named c thread = some t)
    (hset : tSetstate c r env thread state info s = some (0, z, s₁)) :
    Settable (s.tcb t).state := by
  set e := { env with info := info } with he
  set u := stubRegs r 0x08 thread state
  obtain ⟨-, -, -, hret, -⟩ := userCall_next hset
  obtain ⟨s₂, hk, hsched⟩ := userCall_cases hs hset
  obtain ⟨hmode, hcall⟩ := kcall_system hs u e (rfl : _ = Call.setstate)
  rw [kcall, if_neg (not_not.mpr hmode), kernelCall, hcall] at hk
  obtain ⟨s₃, h₃, hk⟩ := map_eq_ok.mp hk
  cases hk
  rcases setstate_cases h₃ with ⟨v, hv, rfl, -⟩ | ⟨t', -, -, ⟨ht', hst, -⟩, -⟩
  · rw [schedule_img hsched, setEax_eax] at hret
    exact absurd hret.symm hv
  · rw [(trap_regs hs u e).2.1] at ht'
    have htt : some t = some t' := hnamed.symm.trans ht'
    cases htt
    exact hst

/-- An entry that does not reap the thread keeps its slot. -/
theorem next_slot {i : Input} (hw : TableWf s) (h : s.next i = .ok s₁) (ha : i.act s ≠ .reap t)
    (hj : s.table j = some t) : s₁.table j = some t := by
  obtain ⟨k, o, heff, hpick, -⟩ := next_cases hw h
  rw [hpick.table]
  exact heff.table_keep ha hj

/-- `__t_kill` leaves the status there. -/
theorem tKill_dies (h : KernelReach StepDeadOk s) (ht : threadGet s.toSched thread.toInt = some t)
    (hs : SystemThread c s) (htc : t ≠ c)
    (hok : StepBlockOk s (.call (stubRegs r 0x05 thread 0) env))
    (hkill : tKill c r env thread status state s = some (0, s₁)) :
    DeadWith t thread.toInt.toNat status s₁ := by
  have hw : TableWf s := KernelReach.tableWf h
  obtain ⟨x, s₂, y, s₃, z, hpause, hget, hset⟩ := tKill_cases hkill
  obtain ⟨-, hnext, -⟩ := userCall_next hpause
  have hen := hs.enabled (stubRegs r 0x05 thread 0) env
  have hact : Input.act s (.call (stubRegs r 0x05 thread 0) env) = .other ∨
      ∃ p, Input.act s (.call (stubRegs r 0x05 thread 0) env) = .pause p := by
    rw [act_system hs]
    exact callAct_pause _ _ _ _
  -- the thread was not paused, so it was blocked nowhere, and is not afterwards
  obtain ⟨q, hq⟩ := h.deadInv
  have hoff : ∀ v, t ∉ q.waiters v := fun v hv =>
    tPause_zero hs ht hpause ((hq.sound.placed t).waiters v hv).1
  obtain ⟨q₂, hq₂, hoff₂⟩ := next_notBlocked hw hq.sound hen hok
    (fun v hv => by rcases hact with ha | ⟨p, ha⟩ <;> cases ha.symm.trans hv) hoff hnext
  have hdead : DeadOk s (Input.act s (.call (stubRegs r 0x05 thread 0) env)) := by
    rcases hact with ha | ⟨p, ha⟩ <;> rw [ha] <;> trivial
  have hreach₂ : KernelReach StepDeadOk s₂ :=
    .next h ⟨hen, hok, hdead, killsMarked_of_call (show Call.ofEax 0x05 ≠ _ by decide)⟩ hnext
  -- `GETSTATE` and `SETSTATE` return 0, so the caller is still in system mode
  have hs₂ : SystemThread c s₂ := userCall_system hget (show (0 : U32) ≠ 0x07 by decide)
  have hact₂ : Input.act s₂ (.call (stubRegs r 0x07 thread state) env) = .other := by
    rw [act_system hs₂]
    rfl
  have hreach₃ := hreach₂.call_other hs₂ hact₂
    (killsMarked_of_call (show Call.ofEax 0x07 ≠ _ by decide)) hget
  have hs₃ : SystemThread c s₃ := userCall_system hset (show (0 : U32) ≠ 0x08 by decide)
  obtain ⟨-, hnext₂, -⟩ := userCall_next hget
  obtain ⟨q₃, hq₃, hoff₃⟩ := next_notBlocked (KernelReach.tableWf hreach₂) hq₂ (hs₂.enabled _ _)
    (by rw [StepBlockOk, hact₂]; trivial) (by rw [hact₂]; simp) hoff₂ hnext₂
  -- the thread is still in its slot
  obtain ⟨hpos, hlt, hj⟩ := threadGet_bound ht
  have hj₂ : s₂.table thread.toInt.toNat = some t := next_slot hw hnext
    (fun ha' => by rcases hact with ha | ⟨p, ha⟩ <;> cases ha.symm.trans ha') hj
  have hj₃ : s₃.table thread.toInt.toNat = some t :=
    next_slot (KernelReach.tableWf hreach₂) hnext₂ (by rw [hact₂]; simp) hj₂
  have hnamed : s₃.toSched.named c thread = some t := by
    rw [Sched.named, if_neg (threadGet_named ht), threadGet, if_neg (by omega)]
    exact hj₃
  obtain ⟨-, -, -, -, hstep⟩ := userCall_next hset
  have hpctx : y.pctx = (s₃.img t).pctx := by
    refine tGetstate_pctx hs₂ ?_ hget
    rw [Sched.named, if_neg (threadGet_named ht), threadGet, if_neg (by omega)]
    exact hj₂
  have hdies := setstate_dies hreach₃ hs₃ hj₃ rfl hnamed (killInfo_dead status y) hpctx
    (tSetstate_settable hs₃ hnamed hset) (hq₃.linked_false hoff₃) hstep
  rw [if_neg htc] at hdies
  exact hdies

/-- **The status the reaper reads.**  In a run that resumes no dead thread and kills
no blocked one, whatever the other threads do between the death of `t` and the
`__t_reap` that returns 0: after `__t_exit` the reaper finds the status exactly when
it is 0, and after a `__t_kill` that returned 0 it finds the status. -/
theorem exit_status {s₂ s₃ : Kernel} {c' : Ptr} {r' : UserRegs} {env' : Env} {info : U32}
    {x : TInfo} (h : KernelReach StepDeadOk s)
    (ht : threadGet s.toSched thread.toInt = some t) (hrun : SpareRun t s₁ s₂)
    (hs' : SystemThread c' s₂) (hinfo : info ≠ 0)
    (hreap : tReap c' r' env' thread info s₂ = some (0, x, s₃)) :
    (SystemThread t s → tExit t r env status state s = some s₁ →
      (x.regs.eax = status ↔ status = 0)) ∧
    (SystemThread c s → t ≠ c → StepBlockOk s (.call (stubRegs r 0x05 thread 0) env) →
      tKill c r env thread status state s = some (0, s₁) → x.regs.eax = status) := by
  obtain ⟨hpos, -, hj⟩ := threadGet_bound ht
  have hnat : thread.toInt = (thread.toInt.toNat : ℕ) := (Int.toNat_of_nonneg hpos).symm
  refine ⟨fun hs hexit => ?_, fun hs htc hok hkill => ?_⟩
  · have heax := (tExit_dies h hj hs hexit).reaped hrun hnat hs' hinfo hreap
    rw [heax]
    exact eq_comm
  · exact (tKill_dies h ht hs htc hok hkill).reaped hrun hnat hs' hinfo hreap

end Status

/-- The registers of a thread that runs nothing in particular. -/
def idleRegs : UserRegs := ⟨0, 0, 0, 0, 0, 0, 0, 0, 0, 0, 0⟩

/-- Thread 0 kills thread 1 with status 7 and reaps it; or thread 1 exits with
status 0, and thread 0 reaps it. -/
theorem exit_status_reaped :
    (∃ s s₁ s₃ c x, KernelReach StepDeadOk s ∧ tKill c idleRegs noEnv 1 7 0 s = some (0, s₁) ∧
      tReap c idleRegs noEnv 1 1 s₁ = some (0, x, s₃) ∧ x.regs.eax = 7) ∧
    ∃ s s₁ s₃ t c x, KernelReach StepDeadOk s ∧ tExit t idleRegs noEnv 0 0 s = some s₁ ∧
      tReap c idleRegs noEnv 1 1 s₁ = some (0, x, s₃) ∧ x.regs.eax = 0 := by
  refine ⟨?_, ?_⟩
  · obtain ⟨s, hs, hf⟩ := exists_bootRun StepDeadOk [callOf 0x02 0]
      (fun s => s.active.any fun c => (threadGet s.toSched 1).any fun t =>
        decide ((s.img c).flags &&& TF_USER = 0) && decide (t ≠ c) &&
        decide (StepBlockOk s (.call (stubRegs idleRegs 0x05 1 0) noEnv)) &&
        (tKill c idleRegs noEnv 1 7 0 s).any fun (y : U32 × Kernel) => decide (y.1 = 0) &&
          decide (y.2.active = some c) && decide ((y.2.img c).flags &&& TF_USER = 0) &&
          (tReap c idleRegs noEnv 1 1 y.2).any fun (z : U32 × TInfo × Kernel) => decide (z.1 = 0))
      (by decide +kernel)
    simp only [Bool.and_eq_true, decide_eq_true_eq, Option.any_eq_true] at hf
    obtain ⟨c, hact, t, ht, ⟨⟨hmode, htc⟩, hok⟩, ⟨v, s₁⟩, hkill, ⟨⟨hv, hact'⟩, hmode'⟩,
      ⟨w, x, s₃⟩, hreap, hw⟩ := hf
    subst hv hw
    have hget : threadGet s.toSched (1 : U32).toInt = some t := ht
    refine ⟨s, s₁, s₃, c, x, hs, hkill, hreap, ?_⟩
    exact (exit_status (r := idleRegs) hs hget (.start rfl) ⟨hact', hmode'⟩ (by decide)
      hreap).2 ⟨hact, hmode⟩ htc hok hkill
  · obtain ⟨s, hs, hf⟩ := exists_bootRun StepDeadOk [callOf 0x02 0, irqOf 0]
      (fun s => (threadGet s.toSched 1).any fun t => decide (s.active = some t) &&
        decide ((s.img t).flags &&& TF_USER = 0) &&
        (tExit t idleRegs noEnv 0 0 s).any fun s₁ => s₁.active.any fun c =>
          decide ((s₁.img c).flags &&& TF_USER = 0) &&
          (tReap c idleRegs noEnv 1 1 s₁).any fun y => decide (y.1 = 0)) (by decide +kernel)
    simp only [Bool.and_eq_true, decide_eq_true_eq, Option.any_eq_true] at hf
    obtain ⟨t, ht, ⟨hact, hmode⟩, s₁, hexit, c, hc, hmode', ⟨v, x, s₃⟩, hreap, hv⟩ := hf
    subst hv
    have hget : threadGet s.toSched (1 : U32).toInt = some t := ht
    refine ⟨s, s₁, s₃, t, c, x, hs, hexit, hreap, ?_⟩
    exact ((exit_status (c := c) (r := idleRegs) (t := t) hs hget (.start rfl) ⟨hc, hmode'⟩
      (by decide) hreap).1 ⟨hact, hmode⟩ hexit).mpr rfl

/-- Thread 1 exits with status 7, and thread 0 reaps it: it finds 0. -/
theorem exit_status_fails : ∃ s s₁ s₃ t c x, KernelReach (fun _ _ => True) s ∧
    threadGet s.toSched 1 = some t ∧ SystemThread t s ∧
    tExit t idleRegs noEnv 7 0 s = some s₁ ∧ SystemThread c s₁ ∧
    tReap c idleRegs noEnv 1 1 s₁ = some (0, x, s₃) ∧ x.regs.eax ≠ 7 := by
  obtain ⟨s, hs, hf⟩ := exists_bootRun (fun _ _ => True) [callOf 0x02 0, irqOf 0]
    (fun s => (threadGet s.toSched 1).any fun t => decide (s.active = some t) &&
      decide ((s.img t).flags &&& TF_USER = 0) &&
      (tExit t idleRegs noEnv 7 0 s).any fun s₁ => s₁.active.any fun c =>
        decide ((s₁.img c).flags &&& TF_USER = 0) &&
        (tReap c idleRegs noEnv 1 1 s₁).any fun y =>
          decide (y.1 = 0) && decide (y.2.1.regs.eax ≠ 7))
    (by decide +kernel)
  simp only [Bool.and_eq_true, decide_eq_true_eq, Option.any_eq_true] at hf
  obtain ⟨t, ht, ⟨hact, hmode⟩, s₁, hexit, c, hc, hmode', ⟨v, x, s₃⟩, hreap, hv, hx⟩ := hf
  subst hv
  exact ⟨s, s₁, s₃, t, c, x, hs, ht, ⟨hact, hmode⟩, hexit, ⟨hc, hmode'⟩, hreap, hx⟩

end Pinion
