/-
Leaving the processor and coming back.

A thread leaves the processor with its registers in its image, and what it finds when it is resumed
is what the others have left of the image.  A preempted thread waits for nothing, so nobody wakes it
and no return value is written to it: it gets all of its registers back.  After a kernel call or a
fault it gets all but `eax` and `ebx`, where the kernel returns values.

* `Unblocked` — the thread is queued or paused, and blocked on no wait queue;
* `Effect.unblocked`, `next_unblocked` — nobody but a `SETSTATE` or a `REAP` touches such a thread;
* `Excursion` — the runs of the machine from where a thread left the processor;
* `preempted_registers`, `entered_registers` — what it finds when it is resumed.
-/
import Pinion.TrapRuns
import Pinion.PauseResume

open Asm LinkedQueue Runs

namespace Pinion

/-! ### Threads that wait for nothing -/

structure Unblocked (k : Sched) (q : Lists) (t : Ptr) : Prop where
  state : (k.tcb t).state = .queued ∨ (k.tcb t).state = .paused
  off : ∀ v, t ∉ q.waiters v

section Unblocked

variable {k k' : Sched} {q q' : Lists} {t : Ptr} {a : Act} {o : Option Ptr}

theorem Unblocked.ne (h : Unblocked k q t) {p : Ptr} (hp : (k.tcb p).state ≠ .queued)
    (hp' : (k.tcb p).state ≠ .paused) : t ≠ p := by
  rintro rfl
  exact h.state.elim hp hp'

/-- A queued thread is blocked nowhere. -/
theorem Sound.unblocked_of_queued (h : Sound k q) (ht : (k.tcb t).state = .queued) :
    Unblocked k q t := by
  refine ⟨Or.inl ht, fun v hv => ?_⟩
  rw [((h.placed t).waiters v hv).1] at ht
  cases ht

/-- **Others leave such a thread queued or paused.** -/
theorem Effect.unblocked (h : Effect k.image k a k') (hs : Sound k q) (hid : IdsOk k)
    (hen : k.active = some k.image ∨ (∃ n, a = .irq n) ∨ ∃ f, a = .tick f)
    (hlive : Live k t) (ht : Unblocked k q t) (hkill : a ≠ .kill t) :
    (k'.tcb t).state = .queued ∨ (k'.tcb t).state = .paused := by
  have hsame : ∀ {k₁}, SameAt t k k₁ → (k₁.tcb t).state = .queued ∨ (k₁.tcb t).state = .paused := by
    intro k₁ h₁
    rw [h₁.1]
    exact ht.state
  have hwait : ∀ (v : Side) w, (k.ends v.waiters).tail = some w → t ≠ w := by
    rintro v w hw rfl
    exact ht.off v (List.mem_of_head? ((hs.links.waiters v).first_eq.symm.trans hw))
  have hcall : (∀ n, a ≠ .irq n) → (∀ f, a ≠ .tick f) → t ≠ k.image := by
    intro hi hf
    rcases hen with hact | ⟨n, hn⟩ | ⟨f, hf'⟩
    · have hrun := (hs.placed _).active hact
      exact ht.ne (by simp [hrun]) (by simp [hrun])
    · exact absurd hn (hi n)
    · exact absurd hf' (hf f)
  cases h with
  | other => exact ht.state
  | spawn fresh slot bound =>
    rename_i p i
    have hp : t ≠ p := by
      rintro rfl
      obtain ⟨j, hj⟩ := hlive
      exact fresh j hj
    rw [spawned_eq]
    exact hsame ⟨by simp [hp], by simp [hp]⟩
  | spawnFull fresh full =>
    rename_i p
    have hp : t ≠ p := by
      rintro rfl
      obtain ⟨j, hj⟩ := hlive
      exact fresh j hj
    exact hsame ⟨by simp [hp], by simp [hp]⟩
  | reap => exact ht.state
  | yield => exact hsame (SameAt.makeReady k.release (hcall (by simp) (by simp)))
  | pauseRunning state =>
    exact hsame (SameAt.setState k.release _ (ht.ne (by simp [state]) (by simp [state])))
  | pauseQueued live state remv =>
    rename_i p _ _
    -- the thread itself may be paused
    obtain ⟨n, hd, tl, rfl⟩ := scheduleRemv_withRun remv
    by_cases hp : t = p
    · subst hp
      exact Or.inr (by rw [setState_state, if_pos rfl])
    · exact hsame (SameAt.setState (k.withRun n hd tl) _ hp)
  | pauseWaiting state remv =>
    obtain ⟨n, ev, rfl⟩ := eventRemv_eq remv
    exact hsame (SameAt.setState { k with tcb := fun p => { k.tcb p with next := n p }, evqueue := ev }
      _ (ht.ne (by simp [state]) (by simp [state])))
  | resume live state =>
    rename_i p _
    -- and resumed
    by_cases hp : t = p
    · subst hp
      exact Or.inl (by rw [makeReady_state, if_pos rfl])
    · exact hsame (SameAt.makeReady k hp)
  | rewait live state =>
    rename_i p _ _ _ _
    have hp := ht.ne (p := p) (by simp [state]) (by simp [state])
    exact hsame ((SameAt.waitOn k _ hp).trans (SameAt.setState _ _ hp))
  | rewaitBad state =>
    exact hsame (SameAt.setState k _ (ht.ne (by simp [state]) (by simp [state])))
  | kill =>
    rename_i p _ _
    unfold Sched.kill
    split
    · rename_i hr
      have hp := ht.ne (p := p) (by simp [hr]) (by simp [hr])
      exact hsame ((SameAt.setState k.release .paused hp).trans (SameAt.report _ _ _ (hwait .dead)))
    · exact hsame (SameAt.report _ _ _ (hwait .dead))
  | request =>
    rename_i v
    unfold Sched.request
    cases (k.ends v.items).tail with
    | none =>
      have hp := hcall (by simp) (by simp)
      exact hsame ((SameAt.setState k.release .paused hp).trans (SameAt.insert t _ _ _))
    | some d => exact ht.state
  | wait live bound =>
    have hact : k.active = some k.image := by
      rcases hen with hact | ⟨n, hn⟩ | ⟨f, hf⟩
      · exact hact
      · cases hn
      · cases hf
    obtain ⟨i, hi⟩ := (hs.placed _).live ((hs.placed _).active hact)
    rw [hid i _ hi, Option.some.injEq] at live
    rw [← live]
    exact hsame (SameAt.waitOn k _ (hcall (by simp) (by simp)))
  | reset => exact ht.state
  | fault =>
    have hp := hcall (by simp) (by simp)
    exact hsame ((SameAt.setState k.release .paused hp).trans (SameAt.report _ _ _ (hwait .fault)))
  | irq =>
    refine hsame (SameAt.send k _ fun w hw => ?_)
    have hst := hs.front_waiting hw
    exact ht.ne (by simp [hst]) (by simp [hst])
  | tick =>
    rename_i fired _ _
    have hwaiting : (k.tcb t).state ≠ .waiting := by
      rcases ht.state with hst | hst <;> simp [hst]
    have hsends := hs.sends_same fired hwaiting
    unfold Sched.tick
    dsimp only
    split
    · rename_i hr
      refine hsame (hsends.trans (SameAt.makeReady (Sched.release _) ?_))
      rintro rfl
      rw [hsends.1] at hr
      exact ht.ne (p := k.image) (by simp [hr]) (by simp [hr]) rfl
    · exact hsame hsends

/-- The scheduler leaves it, or takes it. -/
theorem Picks.unblocked (h : Picks k o k') (ht : Unblocked k q t) (hw : q'.waiters = q.waiters) :
    k'.active = some t ∨ Unblocked k' q' t := by
  have hoff : ∀ v, t ∉ q'.waiters v := by
    rw [hw]
    exact ht.off
  cases h with
  | same => exact Or.inr ⟨ht.state, hoff⟩
  | idle => exact Or.inr ⟨ht.state, hoff⟩
  | next active head remv =>
    rename_i p _ _
    obtain ⟨n, hd, tl, rfl⟩ := scheduleRemv_withRun remv
    by_cases hp : t = p
    · exact Or.inl (by rw [hp]; rfl)
    · refine Or.inr ⟨?_, hoff⟩
      rw [(SameAt.setState { k.withRun n hd tl with active := some p } .running hp).1]
      exact ht.state

/-- An active thread goes on. -/
theorem Picks.active_keep (h : Picks k o k') (ht : k.active = some t) : k'.active = some t := by
  cases h with
  | same => exact ht
  | idle active => exact absurd (ht.symm.trans active) (by simp)
  | next active => exact absurd (ht.symm.trans active) (by simp)

end Unblocked

/-! ### Entries of others -/

section Entries

variable {s s' : Kernel} {i : Input} {q : Lists} {t : Ptr} {j : ℕ}

/-- Nobody wakes a thread that waits for nothing. -/
theorem Unblocked.not_woken (h : Unblocked s.toSched q t) (hq : Sound s.toSched q) (a : Act) :
    ¬s.toSched.wakes a t := by
  have hwait : ∀ v : Side, (s.ends v.waiters).tail ≠ some t := fun v hv =>
    h.off v (List.mem_of_head? ((hq.links.waiters v).first_eq.symm.trans hv))
  have hfront : ∀ e, (s.evqueue e).frontThread ≠ some t := by
    intro e he
    have hst := hq.front_waiting he
    exact h.ne (by simp [hst]) (by simp [hst]) rfl
  cases a with
  | kill => exact hwait .dead
  | fault => exact hwait .fault
  | irq n => exact hfront n
  | tick fired =>
    rintro ⟨e, -, he⟩
    exact hfront e he
  | _ => exact id

/-- A kill is a `SETSTATE`. -/
theorem callAct_kill {k : Sched} {c p : Ptr} {ebx : U32} {f : U8} {call : Call}
    (h : callAct k c ebx f call = .kill p) : call = .setstate ∧ k.named c ebx = some p := by
  cases call
  case setstate =>
    refine ⟨rfl, ?_⟩
    simp only [callAct] at h
    cases hn : k.named c ebx with
    | none =>
      rw [hn] at h
      cases h
    | some q =>
      rw [hn] at h
      dsimp only at h
      split at h
      · cases h
        rfl
      · cases h
  case pause =>
    cases ht : k.named c ebx with
    | none => simp [callAct, ht] at h
    | some q => cases hst : (k.tcb q).state <;> simp [callAct, ht, pauseAct, hst] at h
  case resume =>
    cases ht : threadGet k ebx.toInt with
    | none => simp [callAct, ht] at h
    | some q => cases hst : (k.tcb q).state <;> simp [callAct, ht, resumeAct, hst] at h
  all_goals
    simp only [callAct] at h
    repeat' split at h
    all_goals simp at h

theorem Input.act_kill (h : i.act s = .kill t) : i.SetsState s t := by
  cases i with
  | call r env =>
    simp only [Input.act] at h
    split at h
    · cases h
    · rename_i hu
      exact ⟨not_not.mp hu, callAct_kill h⟩
  | irq n r env =>
    simp only [Input.act] at h
    split at h <;> cases h
  | fault n r env =>
    simp only [Input.act] at h
    split at h <;> cases h

/-- **An entry of another thread** leaves the image of a thread that waits for nothing, if it names
it in no `SETSTATE` and no `REAP`. -/
theorem next_unblocked (hw : TableWf s) (hq : Sound s.toSched q) (hen : i.Enabled s.toSched)
    (hok : StepBlockOk s i) (hact : s.active ≠ some t) (hj : s.table j = some t)
    (ht : Unblocked s.toSched q t) (hset : ¬i.SetsState s t) (hreap : i.act s ≠ .reap t)
    (h : s.next i = .ok s') :
    s'.img t = s.img t ∧ s'.table j = some t ∧
      ∃ q', Sound s'.toSched q' ∧ (s'.active = some t ∨ Unblocked s'.toSched q' t) := by
  have himage : t ≠ s.image := by
    rintro rfl
    obtain ⟨c, hc⟩ := Option.ne_none_iff_exists'.mp (hw.image_active hj)
    apply hact
    rw [Sched.image, hc, Option.getD_some]
  obtain ⟨⟨o, s₁, info⟩, hx, rfl⟩ := map_eq_ok.mp h
  obtain ⟨s₂, h₂, h₁⟩ := step_cases hx
  obtain ⟨heff, hw₂⟩ := handled_effect hw h₂
  obtain ⟨hpick, -⟩ := schedule_picks hw₂ h₁
  have hcases := Input.enabled_cases hen
  obtain ⟨q₂, hq₂, hjoin⟩ := heff.sound hq hw.idsOk hcases hok
  obtain ⟨q₁, hq₁, hwaiters⟩ := hpick.sound hq₂
  have hst := heff.unblocked hq hw.idsOk hcases ⟨j, hj⟩ ht fun hk => hset (Input.act_kill hk)
  have ht₂ : Unblocked s₂.toSched q₂ t := by
    refine ⟨hst, fun v hv => ?_⟩
    rcases hjoin v t hv with hv | ⟨-, hc⟩
    · exact ht.off v hv
    · exact himage hc
  refine ⟨?_, ?_, q₁, hq₁, hpick.unblocked ht₂ hwaiters⟩
  · rw [schedule_img h₁]
    refine (handled_touched hw h₂).same t himage (ht.not_woken hq _) ?_
    rintro (hs | hr | ⟨-, hfresh⟩)
    · exact hset hs
    · exact hreap hr
    · exact hfresh j hj
  · rw [hpick.table]
    exact heff.table_keep hreap hj

end Entries

/-! ### Leaving the processor -/

/-- The registers and selectors of an image. -/
def Image.context (i : Image) : UserRegs × U32 × U32 := (i.regs, i.cs, i.ss)

section Leave

variable {s s' : Kernel} {q : Lists} {t : Ptr} {j : ℕ}

/-- Everything but the image of `t`. -/
def Scope.off (t : Ptr) : Scope := ⟨fun p _ _ => p ≠ t, True, True, True, True⟩

theorem Writes.img_off (h : Writes (.off t) s s') : s'.img t = s.img t :=
  h.keep (π := id) fun _ _ hne => absurd rfl hne

/-- The interrupted thread has its registers in its image after an IRQ. -/
theorem irq_context {n : Fin 16} {r : UserRegs} {env : Env} {info : TInfo} (hq : Sound s.toSched q)
    (hact : s.active = some t) (h : handled s (.irq n r env) = .ok (s', info)) :
    (s'.img t).context = (r, (s.img t).cs, (s.img t).ss) := by
  have himage : s.image = t := by rw [Sched.image, hact, Option.getD_some]
  have hstart : ((trap s (.irq n r env)).img t).context = (r, (s.img t).cs, (s.img t).ss) := by
    have himg := trap_img s (.irq n r env)
    rw [himage] at himg
    rw [himg]
    rfl
  have hfront : ∀ e, (s.evqueue e).frontThread ≠ some t := by
    intro e he
    have hst := hq.front_waiting he
    rw [(hq.placed t).active hact] at hst
    cases hst
  by_cases hn : n.val = 0
  · rw [handled_tick s hn] at h
    cases h
    set s₁ := irqReset (trap s (.irq n r env)) 0 with hs₁
    have himg₁ : s₁.img = (trap s (.irq n r env)).img := irqReset_img _ 0
    have hsched : s₁.toSched = s.toSched := irqReset_toSched _ 0
    have hsends := sends_writes (σ := .off t) (timersFired (s₁.tick + 1) s₁.pitFreq) timersFired_lt
      (List.nodup_range.filter _) (s := { s₁ with tick := s₁.tick + 1 }) (by
        rintro p ⟨e, -, he⟩ i i' - rfl
        exact hfront e (by rw [← hsched]; exact he)) (.inl trivial)
    have hsame := hsends.img_off
    rw [himage]
    unfold timerHandler
    dsimp only
    split
    · rw [Kernel.onSched, threadSave_img, updImg_self, hsame, himg₁]
      exact hstart
    · rw [updImg_self, hsame, himg₁]
      exact hstart
  · rw [handled_irq s hn] at h
    cases h
    have hsend : Writes (.off t) (trap s (.irq n r env)) (eventSend (trap s (.irq n r env)) n) := by
      refine eventSend_writes (fun p hp i i' _ => ?_) (.inl trivial) fun _ => trivial
      rintro rfl
      exact hfront n hp
    rw [hsend.img_off]
    exact hstart

/-- It stays on the processor, or it is queued. -/
theorem irq_unblocked {k : Sched} {i : Input} (hq : Sound s.toSched q) (hact : s.active = some t)
    (hirq : (∃ n, i.act s = .irq n) ∨ ∃ f, i.act s = .tick f)
    (h : Effect s.image s.toSched (i.act s) k) :
    k.active = some t ∨ (k.tcb t).state = .queued := by
  have himage : s.image = t := by rw [Sched.image, hact, Option.getD_some]
  have hrun := (hq.placed t).active hact
  have hwaiting : (s.tcb t).state ≠ .waiting := by
    rw [hrun]
    decide
  rcases hirq with ⟨n, hn⟩ | ⟨f, hf⟩
  · rw [hn] at h
    cases h with
    | irq => exact Or.inl ((hq.send_active n).trans hact)
  · rw [hf] at h
    cases h with
    | tick =>
      have hsame := hq.sends_same f hwaiting
      rw [himage]
      unfold Sched.tick
      dsimp only
      rw [if_pos (hsame.1.trans hrun), makeReady_state, if_pos rfl]
      exact Or.inr rfl

/-- **An IRQ** leaves the interrupted thread with its registers, on the processor or queued. -/
theorem next_irq {n : Fin 16} {r : UserRegs} {env : Env} (hw : TableWf s) (hq : Sound s.toSched q)
    (hok : StepBlockOk s (.irq n r env)) (hact : s.active = some t) (hj : s.table j = some t)
    (h : s.next (.irq n r env) = .ok s') :
    (s'.img t).context = (r, (s.img t).cs, (s.img t).ss) ∧ s'.table j = some t ∧
      ∃ q', Sound s'.toSched q' ∧ (s'.active = some t ∨ Unblocked s'.toSched q' t) := by
  obtain ⟨⟨o, s₁, info⟩, hx, rfl⟩ := map_eq_ok.mp h
  obtain ⟨s₂, h₂, h₁⟩ := step_cases hx
  obtain ⟨heff, hw₂⟩ := handled_effect hw h₂
  obtain ⟨hpick, -⟩ := schedule_picks hw₂ h₁
  have hirq : (∃ m, Input.act s (.irq n r env) = .irq m) ∨
      ∃ f, Input.act s (.irq n r env) = .tick f := by
    by_cases hn : n.val = 0
    · exact Or.inr ⟨_, by rw [Input.act, if_pos hn]⟩
    · exact Or.inl ⟨_, by rw [Input.act, if_neg hn]⟩
  obtain ⟨q₂, hq₂, -⟩ := heff.sound hq hw.idsOk (Or.inr hirq) hok
  obtain ⟨q₁, hq₁, hwaiters⟩ := hpick.sound hq₂
  refine ⟨?_, ?_, q₁, hq₁, ?_⟩
  · rw [schedule_img h₁]
    exact irq_context hq hact h₂
  · rw [hpick.table]
    refine heff.table_keep (fun hr => ?_) hj
    rcases hirq with ⟨m, hm⟩ | ⟨f, hf⟩
    · rw [hm] at hr
      cases hr
    · rw [hf] at hr
      cases hr
  · rcases irq_unblocked hq hact hirq heff with hact₂ | hst
    · exact Or.inl (hpick.active_keep hact₂)
    · exact hpick.unblocked (hq₂.unblocked_of_queued hst) hwaiters

end Leave

/-! ### Coming back -/

/-- The runs of the machine from where thread `t` left the processor, with the registers of `m₀`, by
an entry that meets `out`; up to where it is active again, without a `SETSTATE` or a `REAP` on it.
-/
inductive Excursion (kstack back : U32) (out : Kernel → Input → Prop) (t : Ptr) (m₀ : Machine) :
    Kernel → Machine → Prop
  | leave {s s' : Kernel} {m' : Machine} {i : Input} : MachineRun StepBlockOk kstack back s m₀ →
      s.active = some t → out s i → StepBlockOk s i → Entry kstack back s m₀ i s' m' →
      Excursion kstack back out t m₀ s' m'
  | compute {s : Kernel} {m m' : Machine} : Excursion kstack back out t m₀ s m →
      s.active ≠ some t → Computes s m m' → Excursion kstack back out t m₀ s m'
  | enter {s s' : Kernel} {m m' : Machine} {i : Input} : Excursion kstack back out t m₀ s m →
      s.active ≠ some t → ¬i.SetsState s t → i.act s ≠ .reap t → StepBlockOk s i →
      Entry kstack back s m i s' m' → Excursion kstack back out t m₀ s' m'

/-- An IRQ. -/
def IsIrq (_ : Kernel) (i : Input) : Prop := ∃ n r env, i = .irq n r env

/-- Any entry that changes no mode and is no `SETSTATE` of the thread on itself. -/
def IsPlain (s : Kernel) (i : Input) : Prop :=
  ¬i.Switches s ∧ ∀ t, s.active = some t → ¬i.SetsState s t

section Back

variable {kstack back : U32} {out : Kernel → Input → Prop} {t : Ptr} {m₀ m m' : Machine}
  {s s' : Kernel} {i : Input}

theorem Excursion.run (h : Excursion kstack back out t m₀ s m) :
    MachineRun StepBlockOk kstack back s m := by
  induction h with
  | leave hrun _ _ hok hentry => exact hrun.enter hok hentry
  | compute _ _ hc ih => exact ih.compute hc
  | enter _ _ _ _ hok hentry ih => exact ih.enter hok hentry

/-- A thread that is resumed gets the registers of its image. -/
theorem Entry.regs (h : Entry kstack back s m i s' m')
    (hrun : MachineRun StepBlockOk kstack back s' m') (ht : s'.active = some t) :
    cpuRegs m' = (s'.img t).regs := by
  obtain ⟨_, _, m₂, -, -, hserved, hflat, hres⟩ := h.entry
  obtain ⟨-, ⟨L, hA⟩, hlive⟩ := hrun.reach.grounds
  rw [if_neg (by rw [ht]; exact Option.some_ne_none t)] at hres
  obtain ⟨m₁, h₁, hregs, -⟩ := hserved.resume hA hrun.trapInv.loadable hflat ht (hlive t ht)
  obtain rfl : m₁ = m' := Option.some.inj (h₁.symm.trans hres)
  exact hregs

/-- The thread is back when it is active. -/
theorem Excursion.regs (h : Excursion kstack back out t m₀ s m) (ht : s.active = some t) :
    cpuRegs m = (s.img t).regs := by
  have hrun := h.run
  cases h with
  | leave _ _ _ _ hentry => exact hentry.regs hrun ht
  | compute _ hact => exact absurd ht hact
  | enter _ _ _ _ _ hentry => exact hentry.regs hrun ht

/-- The selectors of the processor are those of the image. -/
theorem MachineRun.selectors (h : MachineRun StepBlockOk kstack back s m) (ht : s.active = some t) :
    (m.seg .cs).setWidth 32 = (s.img t).cs ∧ (m.seg .ss).setWidth 32 = (s.img t).ss := by
  obtain ⟨hcs, hss, -⟩ := h.trapInv.synced.thread t ht
  exact ⟨hcs, hss⟩

theorem selector_inj {v w : Selector} (h : (v.setWidth 32 : U32) = w.setWidth 32) : v = w := by
  rw [← setWidth_selector v, h, setWidth_selector]

/-- While a preempted thread is away its image is as it left it. -/
theorem Excursion.context (h : Excursion kstack back IsIrq t m₀ s m) :
    (s.img t).context = (cpuRegs m₀, (m₀.seg .cs).setWidth 32, (m₀.seg .ss).setWidth 32) ∧
      (∃ j, s.table j = some t) ∧
      ∃ q, Sound s.toSched q ∧ (s.active = some t ∨ Unblocked s.toSched q t) := by
  induction h with
  | leave hrun hact hirq hok hentry =>
    obtain ⟨n, r, env, rfl⟩ := hirq
    obtain ⟨hw, -, hlive⟩ := hrun.reach.grounds
    obtain ⟨q, hq⟩ := hrun.reach.sound
    obtain ⟨j, hj⟩ := hlive t hact
    obtain ⟨hcs, hss⟩ := hrun.selectors hact
    obtain ⟨_, _, _, hfrom, -⟩ := hentry.entry
    have hregs : r = cpuRegs m₀ := hfrom.2.1 (by rw [hact]; exact Option.some_ne_none t)
    obtain ⟨hctx, hj', hq'⟩ := next_irq hw hq hok hact hj hentry.next
    rw [hctx, hregs, hcs, hss]
    exact ⟨rfl, ⟨j, hj'⟩, hq'⟩
  | compute _ _ _ ih => exact ih
  | enter hex hact hset hreap hok hentry ih =>
    obtain ⟨hctx, ⟨j, hj⟩, q, hq, hstate⟩ := ih
    obtain ⟨_, _, _, hfrom, -⟩ := hentry.entry
    obtain ⟨himg, hj', hq'⟩ := next_unblocked hex.run.reach.tableWf hq hfrom.1 hok hact hj
      (hstate.resolve_left hact) hset hreap hentry.next
    rw [himg]
    exact ⟨hctx, ⟨j, hj'⟩, hq'⟩

/-- **A preempted thread gets all of its registers back.**  Whatever the IRQ does, and whatever
other threads do until the thread is resumed, it finds the general registers, the flags, the
instruction and the stack pointer, and the selectors as they were, if no `SETSTATE` and no `REAP`
named it. -/
theorem preempted_registers (h : Excursion kstack back IsIrq t m₀ s m) (ht : s.active = some t) :
    cpuRegs m = cpuRegs m₀ ∧ m.seg .cs = m₀.seg .cs ∧ m.seg .ss = m₀.seg .ss := by
  obtain ⟨hctx, -⟩ := h.context
  simp only [Image.context, Prod.mk.injEq] at hctx
  obtain ⟨hregs, hcs, hss⟩ := hctx
  obtain ⟨hcs', hss'⟩ := h.run.selectors ht
  exact ⟨(h.regs ht).trans hregs, selector_inj (hcs'.trans hcs), selector_inj (hss'.trans hss)⟩

/-! ### A run of two threads -/

/-- The active thread may have anything in its general registers. -/
def withRegs (m : Machine) (r : UserRegs) : Machine where
  reg := fun
    | .eax => r.eax | .ecx => r.ecx | .edx => r.edx | .ebx => r.ebx
    | .esp => r.esp | .ebp => r.ebp | .esi => r.esi | .edi => r.edi
  seg := m.seg
  eip := r.eip
  eflags := r.eflags
  mem := m.mem

theorem cpuRegs_withRegs {r : UserRegs} (h : r.ds = (m.seg .ds).setWidth 32) :
    cpuRegs (withRegs m r) = r := by
  unfold cpuRegs withRegs
  rw [← h]

theorem TrapInv.withRegs (h : TrapInv s m) (ht : s.active = some t) (r : UserRegs) :
    Computes s m (withRegs m r) := by
  obtain ⟨-, -, hds⟩ := h.synced.thread t ht
  exact ⟨by rw [ht]; exact Option.some_ne_none t, h.synced.holds, rfl, rfl, hds⟩

/-- The machine enters the kernel with the registers of the input, and is back with those of the
next thread. -/
theorem MachineRun.takes (h : MachineRun StepBlockOk kstack back s m) (hk : KernelStack kstack)
    (hfrom : i.From s m none) (hok : StepBlockOk s i) (hnext : s.next i = .ok s') (hflat : s'.Flat)
    (ht : s'.active = some t) :
    ∃ m', Entry kstack back s m i s' m' ∧ cpuRegs m' = (s'.img t).regs := by
  obtain ⟨hw, ⟨L, hA⟩, -⟩ := KernelReach.grounds (.next h.reach ⟨hfrom.1, hok⟩ hnext)
  obtain ⟨m₂, hserved⟩ := exists_served hw hA ht
  obtain ⟨m', -, hregs, hentry, -⟩ := h.leaves hk hfrom hok hnext hserved hflat ht
  exact ⟨m', hentry, hregs⟩

/-- A thread spawns another one. -/
def spawnInput (s : Kernel) (t : Ptr) : Input := .call { (s.img t).regs with eax := 2 } noEnv

/-- The clock interrupts a thread that has put `b` in `ebx`. -/
def tickInput (s : Kernel) (t : Ptr) (b : U32) : Input :=
  .irq 0 { (s.img t).regs with ebx := b } noEnv

/-- The first thread spawns a second one, and a tick takes each of them off the processor. -/
structure Turns where
  first : Ptr
  second : Ptr
  booted : Kernel
  spawned : Kernel
  away : Kernel
  back : Kernel

def turns : Option Turns := do
  let booted ← (bootstrap flatMem 0 0 0).toOption
  let first ← booted.active
  let spawned ← (booted.next (spawnInput booted first)).toOption
  let away ← (spawned.next (tickInput spawned first 5)).toOption
  let second ← away.active
  let back ← (away.next (tickInput away second 7)).toOption
  return { first, second, booted, spawned, away, back }

def Turns.Ok (r : Turns) : Prop :=
  r.second ≠ r.first ∧ r.spawned.active = some r.first ∧ r.back.active = some r.first ∧
    StepBlockOk r.booted (spawnInput r.booted r.first) ∧
    (r.spawned.img r.first).eflags.getLsbD 17 = false ∧
    (r.away.img r.second).eflags.getLsbD 17 = false ∧
    (r.back.img r.first).eflags.getLsbD 17 = false

instance (r : Turns) : Decidable r.Ok :=
  inferInstanceAs (Decidable (_ ∧ _ ∧ _ ∧ _ ∧ _ ∧ _ ∧ _))

theorem turns_ok : turns.any (fun r => decide r.Ok) = true := by decide +kernel

theorem exists_turns : ∃ r : Turns, r.Ok ∧ bootstrap flatMem 0 0 0 = .ok r.booted ∧
    r.booted.active = some r.first ∧
    r.booted.next (spawnInput r.booted r.first) = .ok r.spawned ∧
    r.spawned.next (tickInput r.spawned r.first 5) = .ok r.away ∧
    r.away.active = some r.second ∧
    r.away.next (tickInput r.away r.second 7) = .ok r.back := by
  obtain ⟨r, hr, hok⟩ := (Option.any_eq_true _ _).mp turns_ok
  simp only [turns, Option.bind_eq_bind, Option.bind_eq_some_iff, toOption_eq_some] at hr
  obtain ⟨booted, hboot, first, hfirst, spawned, hspawn, away, haway, second, hsecond, back, hback,
    hr⟩ := hr
  cases hr
  exact ⟨_, of_decide_eq_true hok, hboot, hfirst, hspawn, haway, hsecond, hback⟩

theorem flat_of_active (ht : s.active = some t) (h : (s.img t).eflags.getLsbD 17 = false) :
    s.Flat := by
  intro u hu
  obtain rfl : t = u := Option.some.inj (ht.symm.trans hu)
  exact h

/-- A thread is preempted, another one runs and has other values in its registers, and when that is
preempted the first one is resumed. -/
theorem exists_excursion (out : Kernel → Input → Prop) (hout : ∀ s r env, out s (.irq 0 r env)) :
    ∃ m₀ s₁ m₁ s₂ m₂ t u, Excursion 0xF0100000 0 out t m₀ s₁ m₁ ∧ s₁.active = some u ∧ u ≠ t ∧
      m₁.reg .ebx ≠ m₀.reg .ebx ∧ Excursion 0xF0100000 0 out t m₀ s₂ m₂ ∧ s₂.active = some t := by
  obtain ⟨r, ⟨hne, hspawned, hback, hok, hflat₁, hflat₂, hflat₃⟩, hboot, hfirst, hspawn, htick,
    haway, htick'⟩ := exists_turns
  obtain ⟨s, m, t, hrun, hboot', ht, hregs, -⟩ := exists_machineRun
  obtain rfl : s = r.booted := Except.ok.inj (hboot'.symm.trans hboot)
  obtain rfl : t = r.first := Option.some.inj (ht.symm.trans hfirst)
  -- an interrupt finds what the thread computed
  have hfrom : ∀ {s : Kernel} {m : Machine} {t : Ptr} {i : Input}, cpuRegs m = (s.img t).regs →
      s.active = some t → i.regs.ds = (s.img t).regs.ds → Agrees i.num none →
      (∀ n r env, i ≠ .fault n r env) → i.From s (withRegs m i.regs) none := by
    intro s m t i hm ht hds hagree hi
    refine ⟨?_, fun _ => (cpuRegs_withRegs (hds.trans (congrArg UserRegs.ds hm).symm)).symm, hagree⟩
    cases i with
    | call r env =>
      show s.active ≠ none
      rw [ht]
      exact Option.some_ne_none t
    | irq n r env => trivial
    | fault n r env => exact absurd rfl (hi n r env)
  have hrun₀ := hrun.compute (hrun.trapInv.withRegs ht (spawnInput r.booted r.first).regs)
  obtain ⟨n₁, hentry₁, hregs₁⟩ := hrun₀.takes kernelStack_low
    (hfrom hregs ht rfl (show Agrees 0x81 none by decide) fun _ _ _ h => by cases h) hok hspawn
    (flat_of_active hspawned hflat₁) hspawned
  have hrun₁ := hrun₀.enter hok hentry₁
  -- the first thread is preempted
  set m₀ := withRegs n₁ (tickInput r.spawned r.first 5).regs with hm₀
  have hrun₂ := hrun₁.compute (hrun₁.trapInv.withRegs hspawned (tickInput r.spawned r.first 5).regs)
  obtain ⟨n₂, hentry₂, hregs₂⟩ := hrun₂.takes kernelStack_low
    (hfrom hregs₁ hspawned rfl (show Agrees 32 none by decide) fun _ _ _ h => by cases h) trivial
    htick (flat_of_active haway hflat₂) haway
  have hleave : Excursion 0xF0100000 0 out r.first m₀ r.away n₂ :=
    .leave hrun₂ hspawned (hout _ _ _) trivial hentry₂
  -- the second one computes, until it is preempted as well
  have hnot : r.away.active ≠ some r.first := by
    rw [haway]
    exact fun h => hne (Option.some.inj h)
  have hcomp : Excursion 0xF0100000 0 out r.first m₀ r.away _ :=
    hleave.compute hnot (hleave.run.trapInv.withRegs haway (tickInput r.away r.second 7).regs)
  obtain ⟨n₃, hentry₃, -⟩ := hcomp.run.takes kernelStack_low
    (hfrom hregs₂ haway rfl (show Agrees 32 none by decide) fun _ _ _ h => by cases h) trivial
    htick' (flat_of_active hback hflat₃) hback
  refine ⟨m₀, _, _, _, n₃, _, _, hcomp, haway, hne, ?_, ?_, hback⟩
  · show (7 : U32) ≠ 5
    decide
  · exact hcomp.enter (i := tickInput r.away r.second 7) hnot id (fun h => by cases h) trivial
      hentry₃

theorem preempted_registers_tick : ∃ m₀ s₁ m₁ s₂ m₂ t u,
    Excursion 0xF0100000 0 IsIrq t m₀ s₁ m₁ ∧ s₁.active = some u ∧ u ≠ t ∧
      m₁.reg .ebx ≠ m₀.reg .ebx ∧
    Excursion 0xF0100000 0 IsIrq t m₀ s₂ m₂ ∧ s₂.active = some t ∧ cpuRegs m₂ = cpuRegs m₀ := by
  obtain ⟨m₀, s₁, m₁, s₂, m₂, t, u, h₁, hu, hne, hebx, h₂, ht⟩ :=
    exists_excursion IsIrq fun _ r env => ⟨0, r, env, rfl⟩
  exact ⟨m₀, s₁, m₁, s₂, m₂, t, u, h₁, hu, hne, hebx, h₂, ht, (preempted_registers h₂ ht).1⟩

/-! ### Calls and faults -/

/-- The registers but for those of return values. -/
def UserRegs.saved (r : UserRegs) : UserRegs := { r with eax := 0, ebx := 0 }

/-- The part of an image that no entry writes but on purpose. -/
def Image.savedContext (i : Image) : UserRegs × U32 × U32 := (i.regs.saved, i.cs, i.ss)

theorem savedContext_calm : Calm Image.savedContext :=
  ⟨fun _ _ => rfl, fun _ _ => rfl, fun _ _ => rfl, fun _ _ => rfl, fun _ _ => rfl, fun _ _ => rfl⟩

/-- What one entry makes of it: it starts from the image after the trap. -/
theorem handled_saved_context {info : TInfo} {j : ℕ} (hw : TableWf s) (hj : s.table j = some t)
    (hswitch : s.active = some t → ¬i.Switches s) (hset : ¬i.SetsState s t)
    (h : handled s i = .ok (s', info)) :
    (s'.img t).savedContext = ((trap s i).img t).savedContext := by
  have hwt : TableWf (trap s i) := hw.keep ⟨fun _ => rfl, rfl⟩ (Keeps.refl _)
  have himage : t = s.image → s.active = some t := by
    rintro rfl
    obtain ⟨c, hc⟩ := Option.ne_none_iff_exists'.mp (hw.image_active hj)
    rw [Sched.image, hc, Option.getD_some]
  by_cases hi : ∃ r env, i = .call r env
  · obtain ⟨r, env, rfl⟩ := hi
    rw [handled_call] at h
    have himg := trap_img s (.call r env)
    by_cases hu : (s.img s.image).flags &&& TF_USER = 0
    · refine kcall_keep savedContext_calm hwt (by rw [himg]; exact hu) h ?_
      rw [himg]
      refine ⟨fun hc ht => ?_, fun hc ht => hset ⟨hu, hc, ht⟩, fun _ => ⟨j, hj⟩⟩
      exact hswitch (himage ht) (Or.inr hc)
    · -- a system call of another thread
      unfold kcall at h
      rw [if_pos (by rw [himg]; exact hu)] at h
      cases h
      have hne : t ≠ s.image := fun ht => hswitch (himage ht) (Or.inl hu)
      rw [updImg_ne _ _ hne]
  · exact handled_keep savedContext_calm (fun r env he => hi ⟨r, env, he⟩) h t

/-- While a thread is away that part of its image is as it left it. -/
theorem Excursion.savedContext (h : Excursion kstack back IsPlain t m₀ s m) :
    (s.img t).savedContext =
      ((cpuRegs m₀).saved, (m₀.seg .cs).setWidth 32, (m₀.seg .ss).setWidth 32) ∧
      ∃ j, s.table j = some t := by
  induction h with
  | leave hrun hact hplain hok hentry =>
    rename_i s s' m' i
    obtain ⟨hw, -, hlive⟩ := hrun.reach.grounds
    obtain ⟨j, hj⟩ := hlive t hact
    obtain ⟨hcs, hss⟩ := hrun.selectors hact
    obtain ⟨_, _, _, hfrom, -⟩ := hentry.entry
    have himage : s.image = t := by rw [Sched.image, hact, Option.getD_some]
    obtain ⟨⟨o, s₁, info⟩, hx, rfl⟩ := map_eq_ok.mp hentry.next
    obtain ⟨s₂, h₂, h₁⟩ := step_cases hx
    obtain ⟨heff, hw₂⟩ := handled_effect hw h₂
    have hkeep := handled_saved_context hw hj (fun _ => hplain.1) (hplain.2 t hact) h₂
    have htrap := trap_img s i
    rw [himage, hfrom.2.1 (by rw [hact]; exact Option.some_ne_none t)] at htrap
    refine ⟨?_, j, ?_⟩
    · rw [schedule_img h₁, hkeep, htrap, hcs, hss]
      rfl
    · -- a thread that runs is not reaped
      rw [(schedule_picks hw₂ h₁).1.table]
      refine heff.table_keep (fun hr => ?_) hj
      obtain ⟨q, hq⟩ := hrun.reach.sound
      have hstate := (hq.placed t).active hact
      rw [hr] at heff
      generalize s₂.toSched = k at heff
      cases heff with
      | reap live state =>
        rw [hstate] at state
        cases state
  | compute _ _ _ ih => exact ih
  | enter hex hact hset hreap hok hentry ih =>
    rename_i s s' m m' i
    obtain ⟨hctx, j, hj⟩ := ih
    have hw := hex.run.reach.tableWf
    obtain ⟨⟨o, s₁, info⟩, hx, rfl⟩ := map_eq_ok.mp hentry.next
    obtain ⟨s₂, h₂, h₁⟩ := step_cases hx
    obtain ⟨heff, hw₂⟩ := handled_effect hw h₂
    have hkeep := handled_saved_context hw hj (fun ht => absurd ht hact) hset h₂
    have hne : t ≠ s.image := by
      rintro rfl
      obtain ⟨c, hc⟩ := Option.ne_none_iff_exists'.mp (hw.image_active hj)
      apply hact
      rw [Sched.image, hc, Option.getD_some]
    refine ⟨?_, j, ?_⟩
    · rw [schedule_img h₁, hkeep, trap_img_ne i hne]
      exact hctx
    · rw [(schedule_picks hw₂ h₁).1.table]
      exact heff.table_keep hreap hj

/-- **After any other entry a thread gets all registers back but `eax` and `ebx`**: after every
kernel call that blocks or does not, after a fault that a debugger lets it resume from, and after
every interrupt, whatever other threads do meanwhile. -/
theorem entered_registers (h : Excursion kstack back IsPlain t m₀ s m) (ht : s.active = some t) :
    (cpuRegs m).saved = (cpuRegs m₀).saved ∧ m.seg .cs = m₀.seg .cs ∧ m.seg .ss = m₀.seg .ss := by
  obtain ⟨hctx, -⟩ := h.savedContext
  simp only [Image.savedContext, Prod.mk.injEq] at hctx
  obtain ⟨hregs, hcs, hss⟩ := hctx
  obtain ⟨hcs', hss'⟩ := h.run.selectors ht
  rw [h.regs ht]
  exact ⟨hregs, selector_inj (hcs'.trans hcs), selector_inj (hss'.trans hss)⟩

theorem entered_registers_tick : ∃ m₀ s₁ m₁ s₂ m₂ t u,
    Excursion 0xF0100000 0 IsPlain t m₀ s₁ m₁ ∧ s₁.active = some u ∧ u ≠ t ∧
      m₁.reg .ebx ≠ m₀.reg .ebx ∧
    Excursion 0xF0100000 0 IsPlain t m₀ s₂ m₂ ∧ s₂.active = some t ∧
      (cpuRegs m₂).saved = (cpuRegs m₀).saved := by
  obtain ⟨m₀, s₁, m₁, s₂, m₂, t, u, h₁, hu, hne, hebx, h₂, ht⟩ :=
    exists_excursion IsPlain fun _ _ _ => ⟨id, fun _ _ => id⟩
  exact ⟨m₀, s₁, m₁, s₂, m₂, t, u, h₁, hu, hne, hebx, h₂, ht, (entered_registers h₂ ht).1⟩

end Back

end Pinion
