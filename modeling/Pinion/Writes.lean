/-
What the kernel writes.

A handler writes variables of the scheduler, fields of some images, the FPU areas, memory and the
devices.  Every operation of the kernel has one lemma that says which of them; whatever it leaves
alone follows.

* `Scope` — what a piece of the kernel may write;
* `Write`, `Writes` — one write, and any number of them;
* `Writes.keep`, `Writes.mm`, `Writes.devices`, `Writes.intStack` — what they leave alone;
* `kcallPause_writes`, `faultPage_writes`, … — one lemma per operation;
* `kcall_writes`, `handled_writes` — a kernel call, and the other entries.
-/
import Pinion.Active

open Runs

namespace Pinion

/-! ### Scopes -/

/-- The latches `irqstate`, `_irq_mask`, the 8259 pair and the timer. -/
structure Devices where
  irqstate : ℕ → ℤ
  irqMask : U16
  pic : Pic
  tick : U32
  pitFreq : U32

def Kernel.devices (s : Kernel) : Devices := ⟨s.irqstate, s.irqMask, s.pic, s.tick, s.pitFreq⟩

def Kernel.setDevices (s : Kernel) (d : Devices) : Kernel :=
  { s with
    irqstate := d.irqstate, irqMask := d.irqMask, pic := d.pic, tick := d.tick
    pitFreq := d.pitFreq }

/-- Only return values, a counter and the record of a fault differ. -/
def Image.Counted (i i' : Image) : Prop :=
  ∃ eax ebx tick fault addr,
    i' = { i with eax := eax, ebx := ebx, tick := tick, fault := fault, faultAddr := addr }

/-- What a piece of the kernel may write. -/
structure Scope where
  /-- How it may change the image of a thread. -/
  image : Ptr → Image → Image → Prop
  /-- It may save a thread that is not the active one. -/
  anyone : Prop
  /-- It may write FPU areas other than by a save. -/
  areas : Prop
  memory : Prop
  devices : Prop

/-- It may set the return values, the counter and the fault record of `p`. -/
def Scope.Counts (σ : Scope) (p : Ptr) : Prop := ∀ i i', i.Counted i' → σ.image p i i'

theorem Image.Counted.keep {α : Type} {π : Image → α} {i i' : Image} (h : i.Counted i')
    (hπ : ∀ eax ebx tick fault addr, π { i with
      eax := eax, ebx := ebx, tick := tick, fault := fault, faultAddr := addr } = π i) :
    π i' = π i := by
  obtain ⟨eax, ebx, tick, fault, addr, rfl⟩ := h
  exact hπ _ _ _ _ _

/-- Images are only counted in. -/
def Scope.counting : Scope := ⟨fun _ => Image.Counted, True, True, True, True⟩

/-- Images and areas are written at will. -/
def Scope.any (memory devices : Prop) : Scope := ⟨fun _ _ _ => True, True, True, memory, devices⟩

theorem any_counts {memory devices : Prop} (p : Ptr) : (Scope.any memory devices).Counts p :=
  fun _ _ _ => trivial

theorem counting_counts (p : Ptr) : Scope.counting.Counts p := fun _ _ h => h

/-- One write.  Saving the FPU takes the processor from the active thread. -/
inductive Write (σ : Scope) (s : Kernel) : Kernel → Prop
  | sched (k : Sched) : k.active = s.active → k.irqstate = s.irqstate →
      Write σ s { s with toSched := k }
  | save (t : Ptr) : σ.anyone ∨ s.active = some t → Write σ s (threadSave s t)
  | image (p : Ptr) (f : Image → Image) : σ.image p (s.img p) (f (s.img p)) →
      Write σ s (s.updImg p f)
  | areas (fx : Ptr → FxArea) : σ.areas → Write σ s { s with fx := fx }
  | memory (m : Mem) : σ.memory → Write σ s { s with mm := m }
  | devices (d : Devices) : σ.devices → Write σ s (s.setDevices d)

/-- Any number of writes. -/
def Writes (σ : Scope) : Kernel → Kernel → Prop := Relation.ReflTransGen (Write σ)

theorem updImg_self (s : Kernel) (p : Ptr) (f : Image → Image) :
    (s.updImg p f).img p = f (s.img p) := by simp [Kernel.updImg]

theorem updImg_ne (s : Kernel) {p q : Ptr} (f : Image → Image) (h : q ≠ p) :
    (s.updImg p f).img q = s.img q := by simp [Kernel.updImg, h]

section Writes

variable {σ : Scope} {s s' s'' : Kernel}

theorem Writes.refl (s : Kernel) : Writes σ s s := Relation.ReflTransGen.refl

theorem Writes.trans (h : Writes σ s s') (h' : Writes σ s' s'') : Writes σ s s'' :=
  Relation.ReflTransGen.trans h h'

/-- What no write breaks, a handler does not break. -/
theorem Writes.minimal {R : Kernel → Kernel → Prop} (hrefl : ∀ s, R s s)
    (htrans : ∀ {s₁ s₂ s₃}, R s₁ s₂ → R s₂ s₃ → R s₁ s₃)
    (hwrite : ∀ {s s'}, Write σ s s' → R s s') (h : Writes σ s s') : R s s' := by
  induction h with
  | refl => exact hrefl s
  | tail _ hw ih => exact htrans ih (hwrite hw)

theorem Writes.onSched (h : Writes σ s s') {f : Sched → Sched}
    (ha : (f s'.toSched).active = s'.active) (hi : (f s'.toSched).irqstate = s'.irqstate) :
    Writes σ s (s'.onSched f) := .tail h (.sched _ ha hi)

theorem Writes.setState (h : Writes σ s s') (t : Ptr) (st : TState) :
    Writes σ s (s'.setState t st) := h.onSched rfl rfl

theorem Writes.ready (h : Writes σ s s') (t : Ptr) : Writes σ s (s'.onSched (makeReady · t)) := by
  refine h.onSched (makeReady_active _ t) ?_
  rw [makeReady_eq]

theorem Writes.save (h : Writes σ s s') {t : Ptr} (ht : σ.anyone ∨ s'.active = some t) :
    Writes σ s (threadSave s' t) := .tail h (.save t ht)

theorem Writes.updImg (h : Writes σ s s') {p : Ptr} {f : Image → Image}
    (hf : σ.image p (s'.img p) (f (s'.img p))) : Writes σ s (s'.updImg p f) :=
  .tail h (.image p f hf)

theorem Writes.setEax (h : Writes σ s s') {p : Ptr} (hp : σ.Counts p) (v : U32) :
    Writes σ s (s'.setEax p v) := h.updImg (hp _ _ ⟨v, _, _, _, _, rfl⟩)

theorem Writes.areas (h : Writes σ s s') (hx : σ.areas) (fx : Ptr → FxArea) :
    Writes σ s { s' with fx := fx } := .tail h (.areas fx hx)

theorem Writes.memory (h : Writes σ s s') (hm : σ.memory) (m : Mem) :
    Writes σ s { s' with mm := m } := .tail h (.memory m hm)

theorem Writes.devices_eq (h : Writes σ s s') (hd : σ.devices)
    (hs : s'' = s'.setDevices s''.devices) : Writes σ s s'' := by
  rw [hs]
  exact .tail h (.devices _ hd)

/-! ### What they leave alone -/

/-- A part of the image of `p` that no allowed change writes. -/
theorem Writes.keep {α : Type} {π : Image → α} {p : Ptr}
    (hσ : ∀ i i', σ.image p i i' → π i' = π i) (h : Writes σ s s') :
    π (s'.img p) = π (s.img p) := by
  refine h.minimal (R := fun s s' => π (s'.img p) = π (s.img p)) (fun _ => rfl)
    (fun h₁ h₂ => h₂.trans h₁) fun {s s'} hw => ?_
  cases hw with
  | sched | areas | memory | devices => rfl
  | save t => rw [threadSave_img]
  | image q f hf =>
    by_cases hp : p = q
    · subst hp
      rw [updImg_self]
      exact hσ _ _ hf
    · rw [updImg_ne s f hp]

theorem Writes.mm (hσ : ¬σ.memory) (h : Writes σ s s') : s'.mm = s.mm := by
  refine h.minimal (R := fun s s' => s'.mm = s.mm) (fun _ => rfl) (fun h₁ h₂ => h₂.trans h₁)
    fun {s s'} hw => ?_
  cases hw with
  | sched | image | areas | devices => rfl
  | save t => exact threadSave_mm s t
  | memory _ hm => exact absurd hm hσ

theorem threadSave_devices (s : Kernel) (t : Ptr) : (threadSave s t).devices = s.devices := by
  unfold threadSave
  cases (s.img t).fxdata <;> rfl

theorem Writes.devices (hσ : ¬σ.devices) (h : Writes σ s s') : s'.devices = s.devices := by
  refine h.minimal (R := fun s s' => s'.devices = s.devices) (fun _ => rfl)
    (fun h₁ h₂ => h₂.trans h₁) fun {s s'} hw => ?_
  cases hw with
  | image | areas | memory => rfl
  | sched k _ hi => simp only [Kernel.devices, hi]
  | save t => exact threadSave_devices s t
  | devices _ hd => exact absurd hd hσ

theorem Writes.intStack (h : Writes σ s s') : s'.intStack = s.intStack := by
  refine h.minimal (R := fun s s' => s'.intStack = s.intStack) (fun _ => rfl)
    (fun h₁ h₂ => h₂.trans h₁) fun {s s'} hw => ?_
  cases hw with
  | sched | image | areas | memory | devices => rfl
  | save t =>
    unfold threadSave
    cases (s.img t).fxdata <;> rfl

/-! ### Events and the rendezvous -/

/-- The threads an action wakes by writing their `eax`. -/
def Sched.wakes (k : Sched) : Act → Ptr → Prop
  | .kill _, p => (k.ends .reaper).tail = some p
  | .fault, p => (k.ends .debug).tail = some p
  | .irq n, p => (k.evqueue n).frontThread = some p
  | .tick fired, p => ∃ e ∈ fired, (k.evqueue e).frontThread = some p
  | _, _ => False

theorem writeMask_writes (hd : σ.devices) (s : Kernel) (n : ℕ) : Writes σ s (writeMask s n) := by
  refine (Writes.refl s).devices_eq hd ?_
  unfold writeMask
  split <;> rfl

theorem irqMask_writes (hd : σ.devices) (s : Kernel) (n : ℕ) : Writes σ s (irqMask s n) :=
  ((Writes.refl s).devices_eq hd rfl).trans (writeMask_writes hd _ n)

theorem irqUnmask_writes (hd : σ.devices) (s : Kernel) (n : ℕ) : Writes σ s (irqUnmask s n) :=
  ((Writes.refl s).devices_eq hd rfl).trans (writeMask_writes hd _ n)

theorem irqReset_writes (hd : σ.devices) (s : Kernel) (n : ℕ) : Writes σ s (irqReset s n) := by
  refine (Writes.refl s).devices_eq hd ?_
  unfold irqReset
  split
  · rfl
  · dsimp only
    split <;> rfl

/-- The thread that is woken may be caught in `TS_RUNNING`. -/
theorem eventWake_writes {e : ℕ} (hw : ∀ p, (s.evqueue e).frontThread = some p → σ.Counts p)
    (hr : σ.anyone ∨ Running s.toSched) : Writes σ s (eventWake s e) := by
  unfold eventWake
  cases hf : (s.evqueue e).frontThread with
  | none => exact .refl s
  | some t =>
    dsimp only
    refine Writes.ready ?_ t
    generalize (if (s.tcb t).nextEvqueue = none then none else (s.evqueue e).backThread) = back
    have hpop : Writes σ s (s.onSched (·.setEvqueue e ⟨(s.tcb t).nextEvqueue, back⟩)) :=
      (Writes.refl s).onSched rfl rfl
    have hset := (hpop.setEax (hw t hf) (BitVec.ofNat 32 e)).onSched
      (f := (·.upd t fun b => { b with event := -1 })) rfl rfl
    split
    · -- it is caught running, so it is the active thread that is saved
      rename_i hst
      refine hset.save (hr.imp_right fun hr => (hr t).mp ?_)
      simpa [Kernel.onSched, Kernel.setEax, Kernel.updImg, Sched.setEvqueue, Sched.upd] using hst
    · exact hset

theorem eventSend_writes {e : ℕ} (hw : ∀ p, (s.evqueue e).frontThread = some p → σ.Counts p)
    (hr : σ.anyone ∨ Running s.toSched) (hd : e < 240 → σ.devices) :
    Writes σ s (eventSend s e) := by
  unfold eventSend
  split
  · exact .refl s
  · dsimp only
    split
    · rename_i he
      have hmask := ((eventWake_writes hw hr).trans (irqMask_writes (hd he) _ e)).trans
        (irqReset_writes (hd he) _ e)
      exact hmask.devices_eq (hd he) rfl
    · exact eventWake_writes hw hr

theorem rdvInsert_irqstate (q : Rdv) (k : Sched) (t : Ptr) :
    (rdvInsert q k t).irqstate = k.irqstate := by
  unfold rdvInsert
  split <;> rfl

theorem push_writes (v : Side) {t : Ptr}
    (hw : ∀ p, (s.ends v.waiters).tail = some p → σ.Counts p) : Writes σ s (v.push s t) := by
  rw [v.push_eq, rdvPush]
  cases hf : (s.ends v.waiters).tail with
  | none => exact (Writes.refl s).onSched (rdvInsert_active _ _ t) (rdvInsert_irqstate _ _ t)
  | some w =>
    refine Writes.ready (Writes.setEax ?_ (hw w hf) _) w
    exact (Writes.refl s).onSched rfl rfl

/-! ### Kernel calls -/

variable {env : Env} {c : Ptr}

theorem kcallYield_writes (hs : σ.anyone ∨ s.active = some c) : Writes σ s (kcallYield s c) :=
  ((Writes.refl s).save hs).ready c

theorem kcallPause_writes (hc : σ.Counts c) (hr : σ.anyone ∨ Running s.toSched)
    (h : kcallPause s c = .ok s') : Writes σ s s' := by
  unfold kcallPause at h
  split at h
  · cases h
    exact (Writes.refl s).setEax hc _
  · rename_i t _
    split at h
    · rename_i hst
      cases h
      have hsave := (Writes.refl s).save (hr.imp_right fun hr => (hr t).mp hst)
      exact (hsave.setState t _).setEax hc _
    · obtain ⟨⟨r, k⟩, hk, h⟩ := bind_eq_ok.mp h
      cases h
      obtain ⟨n, hd, tl, rfl⟩ := scheduleRemv_withRun hk
      have hremv : Writes σ s (s.onSched (·.withRun n hd tl)) := (Writes.refl s).onSched rfl rfl
      exact (hremv.setState t _).setEax hc _
    · obtain ⟨⟨r, k⟩, hk, h⟩ := bind_eq_ok.mp h
      cases h
      obtain ⟨n, ev, rfl⟩ := eventRemv_eq hk
      refine Writes.setEax (Writes.setState ?_ t _) hc _
      exact .tail (Writes.refl s) (.sched _ rfl rfl)
    · cases h
      exact (Writes.refl s).setEax hc _

/-- `event_wait` saves the thread it is given. -/
theorem eventWait_writes {id e r : ℤ} (hself : σ.anyone ∨ ∀ t, threadGet s.toSched id = some t →
      0 ≤ e → e < EV_COUNT → s.active = some t)
    (h : eventWait env s id e = .ok (r, s')) : Writes σ s s' := by
  unfold eventWait at h
  split at h
  · cases h
    exact .refl s
  · rename_i t ht
    split at h
    · obtain ⟨v, -, h⟩ := bind_eq_ok.mp h
      cases h
      exact .refl s
    · split at h
      · cases h
        exact .refl s
      · have hact := hself.imp_right fun hself => hself t ht (by omega) (by omega)
        split at h
        · cases h
          exact ((Writes.refl s).save hact).ready t
        · cases h
          have hpush : Writes σ s (s.onSched (evqueuePush · e.toNat t)) := by
            refine (Writes.refl s).onSched ?_ ?_ <;> rw [evqueuePush_eq]
          refine (hpush.save ?_).setState t _
          rw [Kernel.onSched, evqueuePush_eq]
          exact hact

theorem kcallResume_writes {f : U8} (hc : σ.Counts c)
    (hok : σ.anyone ∨ RunOk s.toSched c (callAct s.toSched c (s.img c).ebx f .resume))
    (h : kcallResume env s c = .ok s') : Writes σ s s' := by
  unfold kcallResume at h
  split at h
  · cases h
    exact (Writes.refl s).setEax hc _
  · rename_i t ht
    split at h
    · cases h
      exact ((Writes.refl s).ready t).setEax hc _
    · rename_i hst
      obtain ⟨⟨r, s₁⟩, h₁, h⟩ := bind_eq_ok.mp h
      cases h
      have hact : callAct s.toSched c (s.img c).ebx f .resume = .rewait t := by
        simp only [callAct, ht, Option.map_some, resumeAct, hst, Option.getD_some]
      rw [hact] at hok
      refine ((eventWait_writes (hok.imp_right ?_) h₁).setState t _).setEax hc _
      intro hok u _ h₀ hb
      -- an event out of range blocks nobody
      rcases hok with hneg | hbig
      · exact absurd h₀ (not_le.mpr hneg)
      · exact absurd hb (not_lt.mpr hbig)
    · cases h
      exact (Writes.refl s).setEax hc _

theorem kcallWait_writes {f : U8} (hc : σ.Counts c)
    (hok : σ.anyone ∨ s.active = some c ∧
      RunOk s.toSched c (callAct s.toSched c (s.img c).ebx f .wait))
    (h : kcallWait env s c = .ok s') : Writes σ s s' := by
  obtain ⟨⟨r, s₁⟩, h₁, h⟩ := bind_eq_ok.mp h
  cases h
  refine Writes.setEax (eventWait_writes (hok.imp_right ?_) h₁) hc _
  rintro ⟨hact, hok⟩ t ht h₀ hb
  have hwait : callAct s.toSched c (s.img c).ebx f .wait = .wait t (s.img c).ebx.toInt.toNat := by
    simp only [callAct, ht, h₀, hb, and_self, if_true]
  rw [hwait] at hok
  rw [hact, show t = c from hok]

theorem Side.pull_active (v : Side) (k : Sched) : (v.pull k).2.active = k.active := by
  cases v <;> simp only [Side.pull, deadPull, faultPull] <;> split <;> rfl

theorem Side.pull_irqstate (v : Side) (k : Sched) : (v.pull k).2.irqstate = k.irqstate := by
  cases v <;> simp only [Side.pull, deadPull, faultPull] <;> split <;> rfl

/-- `GETDEAD` and `GETFAULT`: the caller gets the oldest item, or waits for one. -/
theorem request_writes (v : Side) (hc : σ.Counts c) (hs : σ.anyone ∨ s.active = some c)
    (h : s' = match (s.ends v.items).tail with
      | some d => { s with toSched := (v.pull s.toSched).2 }.setEax c (BitVec.ofInt 32 (s.tcb d).id)
      | none => v.wait ((threadSave s c).setState c .paused) c) : Writes σ s s' := by
  cases hi : (s.ends v.items).tail with
  | some d =>
    rw [hi] at h
    have hpull : Writes σ s { s with toSched := (v.pull s.toSched).2 } :=
      (Writes.refl s).onSched (f := fun k => (v.pull k).2) (v.pull_active _) (v.pull_irqstate _)
    rw [h]
    exact hpull.setEax hc _
  | none =>
    rw [hi] at h
    rw [h, wait_paused hi c]
    exact (((Writes.refl s).save hs).setState c _).onSched (rdvInsert_active _ _ c)
      (rdvInsert_irqstate _ _ c)

theorem kcallGetstate_writes (hc : σ.Counts c) : Writes σ s (kcallGetstate env s c).1 := by
  unfold kcallGetstate
  split
  · exact (Writes.refl s).setEax hc _
  · split
    · exact (Writes.refl s).setEax hc _
    · exact (Writes.refl s).setEax hc _

theorem kcallReset_writes (hc : σ.Counts c) (hd : σ.devices) : Writes σ s (kcallReset s c) := by
  unfold kcallReset
  dsimp only
  refine Writes.setEax ?_ hc _
  split
  · exact ((Writes.refl s).devices_eq hd rfl).trans (irqUnmask_writes hd _ _)
  · exact .refl s

/-- The paging calls return values in `eax` and `ebx`. -/
theorem pagingCall_counted {call : Call} {m m' : Mem} {i i' : Image}
    (h : pagingCall call m i = .ok (i', m')) : i.Counted i' := by
  cases call
  case newpctx | freepctx | newframe =>
    obtain ⟨⟨r, m₁⟩, -, h⟩ := bind_eq_ok.mp h
    cases h
    exact ⟨_, _, _, _, _, rfl⟩
  case setframe | setflags =>
    obtain ⟨e, -, h⟩ := bind_eq_ok.mp h
    obtain ⟨m₁, -, h⟩ := bind_eq_ok.mp h
    cases h
    exact ⟨_, _, _, _, _, rfl⟩
  case getframe | getflags | freeframe =>
    obtain ⟨e, -, h⟩ := bind_eq_ok.mp h
    cases h
    exact ⟨_, _, _, _, _, rfl⟩
  all_goals
    cases h
    exact ⟨_, _, _, _, _, rfl⟩

/-! ### `SETSTATE` -/

theorem setstateKill_writes {t : Ptr} (hw : ∀ p, (s.ends .reaper).tail = some p → σ.Counts p)
    (hr : σ.anyone ∨ Running s.toSched) : Writes σ s (setstateKill s t) := by
  unfold setstateKill
  dsimp only
  split
  · rename_i hst
    have hsave := ((Writes.refl s).save (hr.imp_right fun hr => (hr t).mp hst)).setState t .paused
    refine hsave.trans (push_writes .dead fun p hp => hw p ?_)
    rw [Kernel.setState, Kernel.onSched, threadSave_toSched] at hp
    exact hp
  · exact push_writes .dead hw

/-- `SETSTATE` on a thread that may be set, up to its second read of `src`. -/
def setstateOpen (src : TInfo) (s : Kernel) (t : Ptr) : Kernel :=
  setstateLoad src (if src.flags &&& TF_DEAD ≠ 0 then setstateKill s t else s) t

/-- `SETSTATE` up to the copy of the registers: it kills and loads a context by `src`, and
stores from `src'`. -/
def setstateBegin (src src' : TInfo) (s : Kernel) (t : Ptr) : Kernel :=
  (setstateOpen src s t).updImg t (setstateAttrs src')

/-- The `t_info` that `SETSTATE` on `t` stores: the caller's, unless the call loads another
context. -/
def Env.stored (env : Env) (s : Kernel) (t : Ptr) : Except Stop TInfo :=
  env.reread s.mm (setstateLoad env.info s t).mm

/-- As long as CR3 keeps its value both reads of `src` are one. -/
theorem Env.stored_same (h : (setstateLoad env.info s t).mm.cr3 = s.mm.cr3) :
    env.stored s t = .ok env.info := by
  rw [Env.stored, Env.reread, if_pos h]

theorem Env.stored_congr (hm : s'.mm = s.mm) (hp : (s'.img t).pctx = (s.img t).pctx) :
    env.stored s' t = env.stored s t := by
  have hload : (setstateLoad env.info s' t).mm = (setstateLoad env.info s t).mm := by
    simp only [setstateLoad, hp, hm]
    split
    · rfl
    · exact hm
  rw [Env.stored, Env.stored, hm, hload]

/-- A target that keeps its context keeps the caller's. -/
theorem Env.stored_keep (h : (s.img t).pctx = env.info.pctx) :
    env.stored s t = .ok env.info := by
  refine Env.stored_same ?_
  rw [setstateLoad, if_neg (not_not.mpr h)]

/-- The context is loaded in the memory before the kill, and for the target as it was. -/
theorem setstateOpen_mm (src : TInfo) (s : Kernel) (t : Ptr) :
    (setstateOpen src s t).mm = (setstateLoad src s t).mm := by
  unfold setstateOpen
  split
  · have hkill : Writes .counting s (setstateKill s t) :=
      setstateKill_writes (fun _ _ => counting_counts _) (.inl trivial)
    have hpctx : ((setstateKill s t).img t).pctx = (s.img t).pctx :=
      hkill.keep (π := Image.pctx) fun i i' (hi : i.Counted i') => hi.keep fun _ _ _ _ _ => rfl
    have hmm := (setstateKill_kill s t).2
    simp only [setstateLoad, hpctx, hmm]
    split
    · rfl
    · exact hmm
  · rfl

theorem setstateBegin_toSched {src : TInfo} (src' : TInfo) (s : Kernel) (u : Ptr)
    (h : src.flags &&& TF_DEAD = 0) : (setstateBegin src src' s u).toSched = s.toSched := by
  unfold setstateBegin setstateOpen setstateLoad
  rw [if_neg (not_not.mpr h)]
  split <;> rfl

/-- The states in which `SETSTATE` accepts its target. -/
def Settable (st : TState) : Prop := st = .paused ∨ st = .pausedw ∨ st = .running

instance (st : TState) : Decidable (Settable st) := inferInstanceAs (Decidable (_ ∨ _ ∨ _))

/-- The `SETSTATE` of `c` is accepted on `t` and stores `src`. -/
structure Stores (env : Env) (s : Kernel) (c t : Ptr) (src : TInfo) : Prop where
  named : s.toSched.named c (s.img c).ebx = some t
  settable : Settable (s.tcb t).state
  stored : env.stored s t = .ok src

/-- `SETSTATE` on a thread it accepts. -/
theorem kcallSetstate_eq (ht : s.toSched.named c (s.img c).ebx = some t)
    (hst : Settable (s.tcb t).state) :
    kcallSetstate env s c = env.stored s t >>= fun src =>
      if ((setstateBegin env.info src s t).tcb t).state ≠ .running then
        setstateCopy src (setstateBegin env.info src s t) t >>= fun s₁ => .ok (s₁.setEax c 0)
      else .ok ((setstateBegin env.info src s t).setEax c 0) := by
  have htarget : targetOrSelf s c = some t := ht
  have hset : (s.tcb t).state = .paused ∨ (s.tcb t).state = .pausedw ∨
      (s.tcb t).state = .running := hst
  unfold kcallSetstate
  rw [htarget]
  dsimp only
  have hread : env.stored s t = env.reread s.mm (setstateOpen env.info s t).mm := by
    rw [Env.stored, setstateOpen_mm]
  rw [if_pos hset, hread]
  change env.reread s.mm (setstateOpen env.info s t).mm >>= _ = _
  cases env.reread s.mm (setstateOpen env.info s t).mm with
  | error e => rfl
  | ok src =>
    change (if ((setstateBegin env.info src s t).tcb t).state ≠ .running then _ else _) =
      if ((setstateBegin env.info src s t).tcb t).state ≠ .running then _ else _
    split
    · rfl
    · rfl

theorem Stores.kcallSetstate_eq {src : TInfo} (h : Stores env s c t src) :
    kcallSetstate env s c = if ((setstateBegin env.info src s t).tcb t).state ≠ .running then
        setstateCopy src (setstateBegin env.info src s t) t >>= fun s₁ => .ok (s₁.setEax c 0)
      else .ok ((setstateBegin env.info src s t).setEax c 0) := by
  rw [Pinion.kcallSetstate_eq h.named h.settable, h.stored]
  rfl

/-- A `SETSTATE` that returns was refused, or set the attributes of its target and,
unless the target runs, its registers. -/
theorem setstate_cases (h : kcallSetstate env s c = .ok s') :
    (∃ v, v ≠ 0 ∧ s' = s.setEax c v ∧
      ∀ t, s.toSched.named c (s.img c).ebx = some t → ¬Settable (s.tcb t).state) ∨
    ∃ t src s₁, Stores env s c t src ∧ s' = s₁.setEax c 0 ∧
      (((setstateBegin env.info src s t).tcb t).state ≠ .running ∧
          setstateCopy src (setstateBegin env.info src s t) t = .ok s₁ ∨
        ((setstateBegin env.info src s t).tcb t).state = .running ∧
          s₁ = setstateBegin env.info src s t) := by
  have hnamed : targetOrSelf s c = s.toSched.named c (s.img c).ebx := rfl
  have h₀ := h
  unfold kcallSetstate at h
  rw [hnamed] at h
  cases ht : s.toSched.named c (s.img c).ebx with
  | none =>
    rw [ht] at h
    cases h
    exact Or.inl ⟨_, by decide, rfl, fun t ht => by cases ht⟩
  | some t =>
    rw [ht] at h
    dsimp only at h
    split at h
    case isFalse hst =>
      cases h
      refine Or.inl ⟨_, by decide, rfl, fun t' ht' => ?_⟩
      cases ht'
      exact hst
    case isTrue hst =>
      -- what is stored was read after the context was loaded
      rw [kcallSetstate_eq ht hst] at h₀
      obtain ⟨src, hstored, hset⟩ := bind_eq_ok.mp h₀
      split at hset
      · rename_i hr
        obtain ⟨s₁, h₁, h₂⟩ := bind_eq_ok.mp hset
        cases h₂
        exact Or.inr ⟨t, src, s₁, ⟨ht, hst, hstored⟩, rfl, Or.inl ⟨hr, h₁⟩⟩
      · rename_i hr
        cases hset
        exact Or.inr ⟨t, src, _, ⟨ht, hst, hstored⟩, rfl, Or.inr ⟨not_not.mp hr, rfl⟩⟩

/-- The threads that are woken, the kill, and the switch to the context. -/
theorem setstateOpen_writes {src : TInfo} {t : Ptr}
    (hw : src.flags &&& TF_DEAD ≠ 0 → ∀ p, (s.ends .reaper).tail = some p → σ.Counts p)
    (hr : σ.anyone ∨ Running s.toSched) (hm : σ.memory) : Writes σ s (setstateOpen src s t) := by
  have hkill : Writes σ s (if src.flags &&& TF_DEAD ≠ 0 then setstateKill s t else s) := by
    split
    · rename_i hd
      exact setstateKill_writes (hw hd) hr
    · exact .refl s
  unfold setstateOpen setstateLoad
  generalize (if src.flags &&& TF_DEAD ≠ 0 then setstateKill s t else s) = s₁ at hkill ⊢
  split
  · exact hkill.memory hm _
  · exact hkill

/-- What the register part of `SETSTATE` writes: the registers of the target, and the
FPU area it has or gets. -/
theorem setstateCopy_img {src : TInfo} {t : Ptr} (h : setstateCopy src s t = .ok s') :
    s'.fpu = s.fpu ∧ ∃ q, ((s.img t).fxdata = some q ∧ s'.mm = s.mm ∨
        (s.img t).fxdata = none ∧ heapAlloc s.mm 512 = .ok (some q, s'.mm)) ∧
      s'.fx = Function.update s.fx q src.regs.fxdata ∧
      s'.img = Function.update s.img t
        { setstateRegs src.regs (s.img t) with fxdata := some q } := by
  have himg : (s.updImg t (setstateRegs src.regs)).img t = setstateRegs src.regs (s.img t) := by
    simp only [Kernel.updImg, Function.update_self]
  unfold setstateCopy at h
  dsimp only at h
  rw [himg] at h
  cases hfx : (s.img t).fxdata with
  | some q =>
    rw [show (setstateRegs src.regs (s.img t)).fxdata = some q from hfx] at h
    cases h
    refine ⟨rfl, q, Or.inl ⟨rfl, rfl⟩, rfl, ?_⟩
    simp only [Kernel.updImg, setstateRegs, ← hfx]
  | none =>
    rw [show (setstateRegs src.regs (s.img t)).fxdata = none from hfx] at h
    obtain ⟨⟨o, m⟩, hm, h⟩ := bind_eq_ok.mp h
    cases o with
    | none => cases h
    | some q =>
      cases h
      refine ⟨rfl, q, Or.inr ⟨rfl, hm⟩, rfl, ?_⟩
      simp only [Kernel.updImg, Function.update_self, Function.update_idem]

theorem setstateCopy_writes {src : TInfo} {t : Ptr} (ht : ∀ i i', σ.image t i i') (hm : σ.memory)
    (hx : σ.areas) (h : setstateCopy src s t = .ok s') : Writes σ s s' := by
  have hregs : Writes σ s (s.updImg t (setstateRegs src.regs)) := (Writes.refl s).updImg (ht _ _)
  unfold setstateCopy at h
  dsimp only at h
  split at h
  · cases h
    exact hregs.areas hx _
  · obtain ⟨⟨o, m⟩, -, h⟩ := bind_eq_ok.mp h
    cases o with
    | none => cases h
    | some q =>
      cases h
      exact ((hregs.memory hm m).areas hx _).updImg (ht _ _)

/-- A reaper is woken, and the target is written. -/
theorem kcallSetstate_writes (hc : σ.Counts c)
    (hw : ∀ p, s.toSched.wakes (callAct s.toSched c (s.img c).ebx env.info.flags .setstate) p →
      σ.Counts p)
    (ht : ∀ t, s.toSched.named c (s.img c).ebx = some t → ∀ i i', σ.image t i i')
    (hr : σ.anyone ∨ Running s.toSched) (hm : σ.memory) (hx : σ.areas)
    (h : kcallSetstate env s c = .ok s') : Writes σ s s' := by
  rcases setstate_cases h with ⟨v, -, rfl, -⟩ | ⟨t, src, s₁, hstores, rfl, h₁⟩
  · exact (Writes.refl s).setEax hc v
  · refine Writes.setEax ?_ hc 0
    have hopen : Writes σ s (setstateOpen env.info s t) := by
      -- the first read decides on the kill, as it does for the action
      refine setstateOpen_writes (fun hd p hp => hw p ?_) hr hm
      have hkill : callAct s.toSched c (s.img c).ebx env.info.flags .setstate = .kill t := by
        simp only [callAct, hstores.named]
        exact if_pos ⟨hstores.settable, hd⟩
      rw [hkill]
      exact hp
    have hbegin : Writes σ s (setstateBegin env.info src s t) :=
      hopen.updImg (ht t hstores.named _ _)
    rcases h₁ with ⟨-, hcopy⟩ | ⟨-, rfl⟩
    · exact hbegin.trans (setstateCopy_writes (ht t hstores.named) hm hx hcopy)
    · exact hbegin

/-! ### `SPAWN` and `REAP` -/

/-- A new thread is found under its number. -/
theorem threadAlloc_writes {o : Option Ptr} (hm : σ.memory) (hx : σ.areas)
    (hnew : ∀ p m, heapAlloc s.mm sizeofThread = .ok (some p, m) → ∀ i i', σ.image p i i')
    (h : threadAlloc s = .ok (o, s')) : Writes σ s s' ∧ ∀ t, o = some t →
      threadGet s'.toSched (s'.tcb t).id = some t ∧ ∀ i i', σ.image t i i' := by
  unfold threadAlloc at h
  obtain ⟨⟨ob, m⟩, hp, h⟩ := bind_eq_ok.mp h
  cases ob with
  | none => cases h
  | some p =>
    obtain ⟨⟨q, m'⟩, -, h⟩ := bind_eq_ok.mp h
    dsimp only at h
    -- two blocks from the heap, then `memclr` of the structure
    have hclear : ∀ fx, Writes σ s { s with
        mm := m', fx := fx
        tcb := Function.update s.tcb p Tcb.zero
        img := Function.update s.img p Image.zero } := fun fx =>
      ((((Writes.refl s).memory hm m').areas hx fx).onSched
        (f := fun k => { k with tcb := Function.update k.tcb p Tcb.zero }) rfl rfl).updImg
          (f := fun _ => Image.zero) (hnew p m hp _ _)
    split at h
    · cases h
      exact ⟨hclear _, fun t ht => by cases ht⟩
    · rename_i i hi
      cases h
      refine ⟨(hclear _).onSched rfl rfl, ?_⟩
      rintro t ht
      cases ht
      have hlt : i < THREAD_COUNT := List.mem_range.mp (List.mem_of_find?_eq_some hi)
      refine ⟨?_, hnew p m hp⟩
      simp only [Kernel.onSched, Sched.upd, Function.update_self]
      rw [threadGet_natCast hlt]
      simp

theorem kcallSpawn_writes (hc : σ.Counts c) (hm : σ.memory) (hx : σ.areas)
    (hnew : ∀ p m, heapAlloc s.mm sizeofThread = .ok (some p, m) → ∀ i i', σ.image p i i')
    (h : kcallSpawn env s c = .ok s') : Writes σ s s' := by
  obtain ⟨⟨id, s₁⟩, h₁, h⟩ := bind_eq_ok.mp h
  obtain ⟨⟨o, s₂⟩, h₂, h₁⟩ := bind_eq_ok.mp h₁
  obtain ⟨hwrites, hget⟩ := threadAlloc_writes hm hx hnew h₂
  cases o with
  | none =>
    cases h₁
    cases h
    exact hwrites.setEax hc _
  | some t =>
    cases h₁
    obtain ⟨hid, himage⟩ := hget t rfl
    dsimp only at h
    split at h
    · cases h
      exact hwrites.setEax hc _
    · rw [hid] at h
      cases h
      have hset := (hwrites.updImg (f := spawnImage (s₁.img c) env.info t) (himage _ _)).setState t
        .queued
      refine Writes.setEax (hset.onSched ?_ ?_) hc _
      · rw [schedulePush_eq]
        rfl
      · rw [schedulePush_eq]
        rfl

theorem kcallReap_writes {info : TInfo} (hc : σ.Counts c) (hm : σ.memory)
    (ht : ∀ t, threadGet s.toSched (s.img c).ebx.toInt = some t → (s.tcb t).state = .paused →
      ∀ i, σ.image t i { i with fxdata := none })
    (h : kcallReap env s c = .ok (s', info)) : Writes σ s s' := by
  unfold kcallReap at h
  split at h
  · cases h
  · rename_i t hget
    split at h
    · cases h
      exact (Writes.refl s).setEax hc _
    · rename_i hst
      cases h
      -- the slot is emptied, then the structure goes back to the heap
      have hslot := ((Writes.refl s).setEax hc 0).onSched (f := fun k =>
        { k with table := Function.update k.table (k.tcb t).id.toNat none }) rfl rfl
      have hfree := hslot.updImg (f := fun i => { i with fxdata := none })
        (ht t hget (not_not.mp hst) _)
      exact hfree.memory hm _

/-! ### Faults and the timer -/

theorem faultPush_writes {s₁ : Kernel} (hs : Writes σ s s₁) (hends : s₁.ends = s.ends)
    (hw : ∀ p, s.toSched.wakes .fault p → σ.Counts p) : Writes σ s (faultPush s₁ c) := by
  refine hs.trans (push_writes .fault fun p hp => hw p ?_)
  rw [hends] at hp
  exact hp

theorem faultPage_writes (hc : σ.Counts c) (hs : σ.anyone ∨ s.active = some c)
    (hw : ∀ p, s.toSched.wakes .fault p → σ.Counts p) (h : faultPage env s c = .ok s') :
    Writes σ s s' := by
  unfold faultPage at h
  split at h
  · cases h
  · cases h
    refine faultPush_writes (Writes.setState (Writes.updImg ((Writes.refl s).save hs) ?_) c _) ?_ hw
    · exact hc _ _ ⟨_, _, _, _, _, rfl⟩
    · rw [Kernel.setState, Kernel.onSched, Kernel.updImg, threadSave_toSched]
      rfl

theorem faultGeneric_writes (hc : σ.Counts c) (hs : σ.anyone ∨ s.active = some c)
    (hw : ∀ p, s.toSched.wakes .fault p → σ.Counts p) (h : faultGeneric s c = .ok s') :
    Writes σ s s' := by
  unfold faultGeneric at h
  split at h
  · cases h
  · cases h
    refine faultPush_writes (Writes.updImg (((Writes.refl s).save hs).setState c _) ?_) ?_ hw
    · exact hc _ _ ⟨_, _, _, _, _, rfl⟩
    · rw [Kernel.updImg, Kernel.setState, Kernel.onSched, threadSave_toSched]
      rfl

/-- Sending one event moves no other event's queue. -/
theorem send_evqueue_ne (k : Sched) {e e' : ℕ} (hne : e' ≠ e) :
    (k.send e).evqueue e' = k.evqueue e' := by
  unfold Sched.send Sched.wake
  cases (k.evqueue e).frontThread with
  | none => rfl
  | some t =>
    dsimp only
    rw [makeReady_eq]
    simp only [evqueuePop, Sched.upd, Sched.setEvqueue, Function.update_of_ne hne]

/-- The virtual timers are no lines of the controller. -/
theorem sends_writes (fired : List ℕ) (hf : ∀ i ∈ fired, i < 16) (hd : fired.Nodup) :
    ∀ {s : Kernel}, (∀ p, s.toSched.wakes (.tick (fired.map evVtimer)) p → σ.Counts p) →
      (σ.anyone ∨ Running s.toSched) →
      Writes σ s (fired.foldl (fun s i => eventSend s (evVtimer i)) s) := by
  induction fired with
  | nil => exact fun _ _ => .refl _
  | cons i l ih =>
    intro s hw hr
    obtain ⟨hil, hd'⟩ := List.nodup_cons.mp hd
    have hi' := hf i List.mem_cons_self
    have hi : evVtimer i < EV_COUNT := by
      simp only [evVtimer, EV_COUNT]
      omega
    have hsend : Writes σ s (eventSend s (evVtimer i)) := by
      refine eventSend_writes (fun p hp => hw p ⟨evVtimer i, by simp, hp⟩) hr fun hlt => ?_
      simp only [evVtimer] at hlt
      omega
    refine hsend.trans (ih (fun j hj => hf j (List.mem_cons_of_mem i hj)) hd' (fun p hp => ?_) ?_)
    · -- the events are distinct, so the later fronts are those of the start
      obtain ⟨e, he, hfront⟩ := hp
      obtain ⟨j, hj, rfl⟩ := List.mem_map.mp he
      have hne : evVtimer j ≠ evVtimer i := by
        have hj' := hf j (List.mem_cons_of_mem i hj)
        have hji : j ≠ i := by
          rintro rfl
          exact hil hj
        simp only [evVtimer]
        omega
      rw [eventSend_send hi, send_evqueue_ne _ hne] at hfront
      exact hw p ⟨evVtimer j, List.mem_map_of_mem (List.mem_cons_of_mem i hj), hfront⟩
    · rw [eventSend_send hi]
      exact hr.imp_right fun hr => (hr.send _).1

theorem timerHandler_writes (hc : σ.Counts c)
    (hw : ∀ p, s.toSched.wakes (.tick ((timersFired (s.tick + 1) s.pitFreq).map evVtimer)) p →
      σ.Counts p)
    (hr : σ.anyone ∨ Running s.toSched) (hd : σ.devices) : Writes σ s (timerHandler s c) := by
  unfold timerHandler
  dsimp only
  have hstart : Writes σ s { s with tick := s.tick + 1 } := (Writes.refl s).devices_eq hd rfl
  have hsends := hstart.trans (sends_writes (timersFired (s.tick + 1) s.pitFreq) timersFired_lt
    (List.nodup_range.filter _) (s := { s with tick := s.tick + 1 }) hw hr)
  have htick := hsends.updImg (p := c) (f := fun i => { i with tick := i.tick + 1 })
    (hc _ _ ⟨_, _, _, _, _, rfl⟩)
  split
  · -- sending leaves every thread where it should run, the interrupted one included
    rename_i hst
    refine (htick.save (hr.imp_right fun hr => ?_)).ready c
    have hr' := (Running.sends ((timersFired (s.tick + 1) s.pitFreq).map evVtimer) hr).1
    have hsched := (sends_toSched (timersFired (s.tick + 1) s.pitFreq) timersFired_lt
      { s with tick := s.tick + 1 }).1
    rw [← hsched] at hr'
    exact (hr' c).mp hst
  · exact htick

/-! ### One call -/

/-- The calls that reach the heap. -/
def Call.Heap (c : Call) : Prop := c = .spawn ∨ c = .reap ∨ c = .setstate

instance (c : Call) : Decidable c.Heap := inferInstanceAs (Decidable (_ ∨ _ ∨ _))

/-- The calls of the paging code. -/
def Call.Paging : Call → Prop
  | .newpctx | .freepctx | .setframe | .setflags | .getframe | .getflags | .newframe
  | .freeframe | .takeframe | .unimplemented => True
  | _ => False

/-- How a kernel call changes the image of `p`: the caller and the woken threads get return values,
`REAP` drops the area of its target, `SYSRET` switches the caller, `SETSTATE` writes its target and
`SPAWN` the block it gets from the heap. -/
inductive CallChange (s : Kernel) (c : Ptr) (call : Call) (f : U8) (p : Ptr) (i i' : Image) : Prop
  | counted : p = c ∨ s.toSched.wakes (callAct s.toSched c (s.img c).ebx f call) p →
      i.Counted i' → CallChange s c call f p i i'
  | freed : call = .reap → threadGet s.toSched (s.img c).ebx.toInt = some p →
      (s.tcb p).state = .paused → i' = { i with fxdata := none } → CallChange s c call f p i i'
  | sysret : call = .sysret → p = c → i' = Pinion.sysret i → CallChange s c call f p i i'
  | set : call = .setstate → s.toSched.named c (s.img c).ebx = some p → CallChange s c call f p i i'
  | new (m : Mem) : call = .spawn → heapAlloc s.mm sizeofThread = .ok (some p, m) →
      CallChange s c call f p i i'

/-- What a kernel call may write. -/
def callScope (anyone : Prop) (s : Kernel) (c : Ptr) (call : Call) (f : U8) : Scope where
  image := CallChange s c call f
  anyone := anyone
  areas := call.Heap
  memory := call.Heap ∨ call.Paging
  devices := call = .reset

/-- **What a kernel call writes.**  It saves at most the active thread if threads run where they
should. -/
theorem kcall_writes (anyone : Prop) {info : TInfo} (hsys : (s.img c).flags &&& TF_USER = 0)
    (hr : anyone ∨ Running s.toSched ∧ s.active = some c ∧ RunOk s.toSched c
      (callAct s.toSched c (s.img c).ebx env.info.flags (Call.ofEax (s.img c).eax)))
    (h : kcall env s c = .ok (s', info)) :
    Writes (callScope anyone s c (Call.ofEax (s.img c).eax) env.info.flags) s s' := by
  have hrun : anyone ∨ Running s.toSched := hr.imp_right (·.1)
  have hact : anyone ∨ s.active = some c := hr.imp_right (·.2.1)
  have hc : (callScope anyone s c (Call.ofEax (s.img c).eax) env.info.flags).Counts c :=
    fun i i' hi => .counted (.inl rfl) hi
  unfold kcall at h
  rw [if_neg (not_not.mpr hsys), kernelCall] at h
  cases hcall : Call.ofEax (s.img c).eax <;> rw [hcall] at h hr hc
  case spawn =>
    obtain ⟨s₁, h₁, h⟩ := map_eq_ok.mp h
    cases h
    exact kcallSpawn_writes hc (.inl (.inl rfl)) (.inl rfl) (fun p m hp _ _ => .new m rfl hp) h₁
  case reap =>
    exact kcallReap_writes hc (.inl (.inr (.inl rfl)))
      (fun t ht hst _ => .freed rfl ht hst rfl) h
  case setstate =>
    obtain ⟨s₁, h₁, h⟩ := map_eq_ok.mp h
    cases h
    exact kcallSetstate_writes hc (fun p hp _ _ hi => .counted (.inr hp) hi)
      (fun t ht _ _ => .set rfl ht) hrun (.inl (.inr (.inr rfl))) (.inr (.inr rfl)) h₁
  case gettid =>
    cases h
    exact (Writes.refl s).setEax hc _
  case yield =>
    cases h
    exact kcallYield_writes hact
  case pause =>
    obtain ⟨s₁, h₁, h⟩ := map_eq_ok.mp h
    cases h
    exact kcallPause_writes hc hrun h₁
  case resume =>
    obtain ⟨s₁, h₁, h⟩ := map_eq_ok.mp h
    cases h
    exact kcallResume_writes hc (hr.imp_right (·.2.2)) h₁
  case wait =>
    obtain ⟨s₁, h₁, h⟩ := map_eq_ok.mp h
    cases h
    exact kcallWait_writes hc (hr.imp_right (·.2)) h₁
  case getstate =>
    have hs' : (kcallGetstate env s c).1 = s' := congrArg Prod.fst (Except.ok.inj h)
    rw [← hs']
    exact kcallGetstate_writes hc
  case getdead =>
    cases h
    exact request_writes .dead hc hact rfl
  case getfault =>
    cases h
    exact request_writes .fault hc hact rfl
  case reset =>
    cases h
    exact kcallReset_writes hc rfl
  case sysret =>
    cases h
    exact (Writes.refl s).updImg (.sysret rfl rfl rfl)
  -- the paging calls return in `eax` and `ebx`
  all_goals
    obtain ⟨⟨i, m⟩, hm, h⟩ := bind_eq_ok.mp h
    cases h
    refine Writes.updImg ((Writes.refl s).memory ?_ m) (hc _ _ (pagingCall_counted hm))
    exact Or.inr trivial

/-! ### The other entries -/

/-- What an interrupt or a fault may write after the trap. -/
def entryScope (anyone : Prop) (s : Kernel) (i : Input) : Scope where
  image p j j' := (p = s.image ∨ s.toSched.wakes (i.act s) p) ∧ j.Counted j'
  anyone := anyone
  areas := False
  memory := False
  devices := ∃ n r env, i = .irq n r env

theorem Input.image_active {i : Input} (h : i.Enabled s.toSched)
    (hi : ∀ n r env, i ≠ .irq n r env) : s.active = some s.image := by
  have hact : s.active ≠ none := by
    cases i with
    | call r env => exact h
    | irq n r env => exact absurd rfl (hi n r env)
    | fault n r env => exact h
  obtain ⟨c, hc⟩ := Option.ne_none_iff_exists'.mp hact
  rw [Sched.image, hc, Option.getD_some]

theorem irqReset_tick (s : Kernel) (n : ℕ) :
    (irqReset s n).tick = s.tick ∧ (irqReset s n).pitFreq = s.pitFreq := by
  unfold irqReset outb
  split
  · exact ⟨rfl, rfl⟩
  · dsimp only
    split <;> exact ⟨rfl, rfl⟩

/-- **What an interrupt or a fault writes.** -/
theorem handled_writes (anyone : Prop) {i : Input} {info : TInfo} (hi : ∀ r env, i ≠ .call r env)
    (hr : anyone ∨ Running s.toSched ∧ i.Enabled s.toSched)
    (h : handled s i = .ok (s', info)) : Writes (entryScope anyone s i) (trap s i) s' := by
  have hc : (entryScope anyone s i).Counts s.image := fun j j' hj => ⟨.inl rfl, hj⟩
  have hw : ∀ p, s.toSched.wakes (i.act s) p → (entryScope anyone s i).Counts p :=
    fun p hp j j' hj => ⟨.inr hp, hj⟩
  have hrun : anyone ∨ Running s.toSched := hr.imp_right (·.1)
  cases i with
  | call r env => exact absurd rfl (hi r env)
  | irq n r env =>
    have hd : (entryScope anyone s (.irq n r env)).devices := ⟨n, r, env, rfl⟩
    by_cases hn : n.val = 0
    · rw [handled_tick s hn] at h
      cases h
      have hreset := irqReset_writes hd (trap s (.irq n r env)) 0
      refine hreset.trans (timerHandler_writes hc (fun p hp => hw p ?_) ?_ hd)
      · obtain ⟨htick, hfreq⟩ := irqReset_tick (trap s (.irq n r env)) 0
        rw [irqReset_toSched, htick, hfreq] at hp
        simp only [Input.act, hn, if_true]
        exact hp
      · rw [irqReset_toSched]
        exact hrun
    · rw [handled_irq s hn] at h
      cases h
      refine eventSend_writes (fun p hp => hw p ?_) hrun fun _ => hd
      simp only [Input.act, hn, if_false]
      exact hp
  | fault n r env =>
    have hact : anyone ∨ (trap s (.fault n r env)).active = some s.image :=
      hr.imp_right fun hr => Input.image_active hr.2 fun _ _ _ => by simp
    have hfault : n.val ≠ 15 → ∀ p, s.toSched.wakes .fault p →
        (entryScope anyone s (.fault n r env)).Counts p := by
      intro h15 p hp
      refine hw p ?_
      simp only [Input.act, h15, if_false]
      exact hp
    rw [handled_fault] at h
    split at h
    · cases h
    · split at h
      · rename_i h14
        obtain ⟨s₁, h₁, h⟩ := map_eq_ok.mp h
        cases h
        exact faultPage_writes hc hact (hfault (by omega)) h₁
      · split at h
        · rename_i h15
          obtain ⟨s₁, h₁, h⟩ := map_eq_ok.mp h
          cases h
          exact faultGeneric_writes hc hact (hfault h15) h₁
        · cases h
          exact .refl _

end Writes

end Pinion
