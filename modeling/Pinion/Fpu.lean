/-
The FPU registers of a thread.

`thread_save` stores the FPU in the area of the thread and `thread_load` restores it,
both only if the thread has one.  `thread_alloc` allocates an area and then clears
the structure, pointer included, so a thread has none until a `SETSTATE` gives it one.

* `Saved` — the FPU is as it was, or the active thread has been saved;
* `handled_saved` — every handler but the three heap calls saves at most the active
  thread;
* `FpuOf s t f` — the FPU, or the area of `t` while it is off the processor, holds `f`;
* `handled_fpuOf`, `schedule_fpuOf` — an entry keeps it;
* `fpu_private` — a thread with an area finds its registers again.
-/
import Pinion.Active
import Pinion.Areas

open Runs

namespace Pinion

/-! ### Saving -/

theorem fpuWords_le : 27 ≤ 128 := by decide

/-- The registers `frstor` loads from an area. -/
def FxArea.regs (x : FxArea) : FpuRegs := fun i => x (i.castLE fpuWords_le)

/-- No area is exchanged, and either the processor and the areas are as they were or
the active thread has been saved. -/
structure Saved (s s' : Kernel) : Prop where
  fxdata : ∀ p, (s'.img p).fxdata = (s.img p).fxdata
  cpu : (s'.active = s.active ∧ s'.fpu = s.fpu ∧ s'.fx = s.fx) ∨
    ∃ a, s.active = some a ∧ s'.active = none ∧
      s'.fpu = (threadSave s a).fpu ∧ s'.fx = (threadSave s a).fx

section Saved

variable {env : Env} {s s' s'' : Kernel} {c : Ptr}

theorem threadSave_congr {a : Ptr} (hfx : (s'.img a).fxdata = (s.img a).fxdata)
    (hfpu : s'.fpu = s.fpu) (harea : s'.fx = s.fx) :
    (threadSave s' a).fpu = (threadSave s a).fpu ∧ (threadSave s' a).fx = (threadSave s a).fx := by
  unfold threadSave
  rw [hfx]
  cases (s.img a).fxdata with
  | none => exact ⟨hfpu, harea⟩
  | some p => simp only [fpuSave, hfpu, harea, and_self]

theorem Saved.same (hfx : ∀ p, (s'.img p).fxdata = (s.img p).fxdata) (hact : s'.active = s.active)
    (hfpu : s'.fpu = s.fpu) (harea : s'.fx = s.fx) : Saved s s' :=
  ⟨hfx, Or.inl ⟨hact, hfpu, harea⟩⟩

theorem Saved.refl (s : Kernel) : Saved s s := .same (fun _ => rfl) rfl rfl rfl

theorem Saved.trans (h : Saved s s') (h' : Saved s' s'') : Saved s s'' := by
  refine ⟨fun p => (h'.fxdata p).trans (h.fxdata p), ?_⟩
  rcases h.cpu with ⟨hact, hfpu, harea⟩ | ⟨a, ha, hnone, hfpu, harea⟩
  · rcases h'.cpu with ⟨hact', hfpu', harea'⟩ | ⟨b, hb, hnone, hfpu', harea'⟩
    · exact Or.inl ⟨hact'.trans hact, hfpu'.trans hfpu, harea'.trans harea⟩
    · obtain ⟨hfpu'', harea''⟩ := threadSave_congr (h.fxdata b) hfpu harea
      exact Or.inr ⟨b, hact ▸ hb, hnone, hfpu'.trans hfpu'', harea'.trans harea''⟩
  · rcases h'.cpu with ⟨hact', hfpu', harea'⟩ | ⟨b, hb, -⟩
    · exact Or.inr ⟨a, ha, hact'.trans hnone, hfpu'.trans hfpu, harea'.trans harea⟩
    · -- nobody is active after the first save
      rw [hnone] at hb
      cases hb

theorem Saved.save (h : s.active = some c) : Saved s (threadSave s c) := by
  refine ⟨fun p => by rw [threadSave_img], Or.inr ⟨c, h, ?_, rfl, rfl⟩⟩
  rw [threadSave_toSched]

theorem Saved.updImg (h : Saved s s') {p : Ptr} {f : Image → Image}
    (hf : (f (s'.img p)).fxdata = (s'.img p).fxdata) : Saved s (s'.updImg p f) := by
  refine h.trans (.same (fun q => ?_) rfl rfl rfl)
  by_cases hq : q = p
  · rw [hq, updImg_self, hf]
  · rw [updImg_ne s' f hq]

/-- Writes that leave the areas and the pointers to them to `thread_save`. -/
theorem Writes.saved {σ : Scope} (hone : ¬σ.anyone) (hx : ¬σ.areas)
    (hfx : ∀ p i i', σ.image p i i' → i'.fxdata = i.fxdata) (h : Writes σ s s') : Saved s s' := by
  refine h.minimal Saved.refl Saved.trans fun {s s'} hw => ?_
  cases hw with
  | sched k ha => exact .same (fun _ => rfl) ha rfl rfl
  | save t ht => exact .save (ht.resolve_left hone)
  | image p f hf => exact (Saved.refl s).updImg (hfx _ _ _ hf)
  | areas fx ha => exact absurd ha hx
  | memory | devices => exact .same (fun _ => rfl) rfl rfl rfl

end Saved

theorem Image.Counted.fxdata {i i' : Image} (h : i.Counted i') : i'.fxdata = i.fxdata :=
  h.keep fun _ _ _ _ _ => rfl

/-- A kernel call other than the three saves at most the caller. -/
theorem kcall_saved {env : Env} {s s' : Kernel} {c : Ptr} {info : TInfo}
    (hr : Running s.toSched) (hact : s.active = some c)
    (hok : (s.img c).flags &&& TF_USER = 0 → RunOk s.toSched c
      (callAct s.toSched c (s.img c).ebx env.info.flags (Call.ofEax (s.img c).eax)))
    (hheap : (s.img c).flags &&& TF_USER = 0 → ¬(Call.ofEax (s.img c).eax).Heap)
    (h : kcall env s c = .ok (s', info)) : Saved s s' := by
  by_cases hu : (s.img c).flags &&& TF_USER = 0
  · have hwrites := kcall_writes False hu (.inr ⟨hr, hact, hok hu⟩) h
    refine hwrites.saved id (hheap hu) fun p i i' hi => ?_
    cases hi with
    | counted _ hi => exact hi.fxdata
    | sysret _ _ hi => rw [hi]; rfl
    | freed hc => exact absurd (.inr (.inl hc)) (hheap hu)
    | set hc => exact absurd (.inr (.inr hc)) (hheap hu)
    | new m hc => exact absurd (.inl hc) (hheap hu)
  · unfold kcall at h
    rw [if_pos hu] at h
    cases h
    exact (Saved.refl s).updImg rfl

theorem trap_saved (s : Kernel) (i : Input) : Saved s (trap s i) :=
  .same (fun p => fxdata_of_attrs ((trap_quiet s i).attrs p)) rfl rfl rfl

/-- **Every other handler saves at most the active thread.** -/
theorem handled_saved {s s' : Kernel} {i : Input} {info : TInfo} (hr : Running s.toSched)
    (hen : i.Enabled s.toSched) (hok : StepRunOk s i) (hheap : ¬i.Heap s)
    (h : handled s i = .ok (s', info)) : Saved s s' := by
  refine (trap_saved s i).trans ?_
  by_cases hcall : ∃ r env, i = .call r env
  · obtain ⟨r, env, rfl⟩ := hcall
    have himg := trap_img s (.call r env)
    rw [handled_call] at h
    refine kcall_saved (s := trap s (.call r env)) hr ?_ ?_ ?_ h
    · exact Input.image_active (i := .call r env) hen fun _ _ _ => by simp
    · rw [himg]
      intro hu
      have hact : Input.act s (.call r env) =
          callAct s.toSched s.image r.ebx env.info.flags (Call.ofEax r.eax) :=
        if_neg (not_not.mpr hu)
      rw [StepRunOk, hact] at hok
      exact hok
    · rw [himg]
      exact fun hu hcall => hheap ⟨hu, hcall⟩
  · have hwrites := handled_writes False (fun r env he => hcall ⟨r, env, he⟩)
      (.inr ⟨hr, hen⟩) h
    refine hwrites.saved id id fun p j j' hj => ?_
    exact hj.2.fxdata

/-! ### The registers of one thread -/

/-- The registers of `t` are `f`: in the FPU while `t` is active, in its area
otherwise. -/
def FpuOf (s : Kernel) (t : Ptr) (f : FpuRegs) : Prop :=
  ∃ a, (s.img t).fxdata = some a ∧ if s.active = some t then s.fpu = f else (s.fx a).regs = f

section FpuOf

variable {env : Env} {s s' : Kernel} {t c : Ptr} {f : FpuRegs} {L : Blocks}

/-- The processor is the same, and so is the area of `t`. -/
theorem FpuOf.same (h : FpuOf s t f) (hfx : (s'.img t).fxdata = (s.img t).fxdata)
    (hact : s'.active = s.active) (hfpu : s'.fpu = s.fpu)
    (harea : ∀ a, (s.img t).fxdata = some a → s'.fx a = s.fx a) : FpuOf s' t f := by
  obtain ⟨a, ha, hf⟩ := h
  refine ⟨a, hfx.trans ha, ?_⟩
  rw [hact, hfpu, harea a ha]
  exact hf

theorem Saved.fpuOf (h : Saved s s') (hA : Areas s L) (hf : FpuOf s t f) : FpuOf s' t f := by
  rcases h.cpu with ⟨hact, hfpu, harea⟩ | ⟨u, hu, hnone, -, harea⟩
  · exact hf.same (h.fxdata t) hact hfpu fun a _ => by rw [harea]
  · obtain ⟨a, ha, hf⟩ := hf
    refine ⟨a, (h.fxdata t).trans ha, ?_⟩
    rw [hnone, if_neg (by simp), harea]
    by_cases htu : u = t
    · -- the registers of `t` go to its area
      subst htu
      rw [if_pos hu] at hf
      funext i
      have hi : (i.castLE fpuWords_le).val < 27 := i.isLt
      simp only [FxArea.regs, threadSave, ha, fpuSave, Function.update_self, hi, dite_true]
      rw [← hf]
      rfl
    · rw [if_neg (by rw [hu]; simpa using htu)] at hf
      have hother : (threadSave s u).fx a = s.fx a := by
        unfold threadSave
        cases hfx : (s.img u).fxdata with
        | none => rfl
        | some b =>
          have hne : a ≠ b := by
            rintro rfl
            exact htu (hA.apart u t a hfx ha)
          simp only [fpuSave, Function.update_of_ne hne]
      rw [hother]
      exact hf

theorem Effect.spawn_active {k k' : Sched} (h : Effect c k .spawn k') : k'.active = k.active := by
  cases h with
  | spawn => rw [spawned_eq]
  | spawnFull => rfl

/-- `SPAWN` clears a block that is nobody's area. -/
theorem spawn_fpuOf (hw : TableWf s) (hA : Areas s L) (hlive : ∃ j, s.table j = some t)
    (hs : kcallSpawn env s c = .ok s') (hf : FpuOf s t f) : FpuOf s' t f := by
  obtain ⟨p, m, q, hfresh, hp, hq, hfpu, hfx, -, hattrs, -⟩ := spawn_img hw hs
  obtain ⟨p', hp', -, hinv, -⟩ := hA.heap.allocated bucket_thread (by decide) hp
  obtain ⟨b, rfl, hnew, -⟩ := hinv.allocated bucket_area (by decide) hq
  obtain ⟨j, hj⟩ := hlive
  have hact : s'.active = s.active := (spawn_effect hw hs).1.spawn_active
  have htp : t ≠ p := by
    rintro rfl
    exact hfresh j hj
  refine hf.same (fxdata_of_attrs (hattrs t htp)) hact hfpu fun a ha => ?_
  have hne : a ≠ b := by
    rintro rfl
    exact hnew (mem_push_of_mem (hA.area t a ha))
  rw [hfx, Option.map_some, Option.getD_some, Function.update_of_ne hne]

theorem reap_fpuOf {info : TInfo} (hs : kcallReap env s c = .ok (s', info))
    (hne : ∀ u, threadGet s.toSched (s.img c).ebx.toInt = some u → (s.tcb u).state = .paused →
      u ≠ t) (hf : FpuOf s t f) : FpuOf s' t f := by
  obtain ⟨u, hu, ⟨-, rfl⟩ | ⟨hst, rfl⟩⟩ := reap_cases hs
  · exact hf.same (setEax_fxdata s c t _) rfl rfl fun _ _ => rfl
  · refine hf.same ?_ rfl rfl fun _ _ => rfl
    simp only [threadKill, Function.update_of_ne (hne u hu hst).symm]
    exact setEax_fxdata s c t 0

theorem setstateBegin_saved (hr : Running s.toSched) (src src' : TInfo) (u : Ptr) :
    Saved s (setstateBegin src src' s u) := by
  have hopen : Writes { Scope.counting with anyone := False, areas := False } s
      (setstateOpen src s u) :=
    setstateOpen_writes (fun _ p _ => counting_counts p) (.inr hr) trivial
  have hsaved : Saved s (setstateOpen src s u) :=
    hopen.saved id id fun p i i' (hi : i.Counted i') => hi.fxdata
  exact hsaved.updImg rfl

/-- `SETSTATE` writes the area of its target, or one that is new. -/
theorem copy_fpuOf {src : TInfo} {u : Ptr} (hA : Areas s L) (hne : u ≠ t)
    (hs : setstateCopy src s u = .ok s') (hf : FpuOf s t f) : FpuOf s' t f := by
  obtain ⟨hfpu, q, hq, hfx, himg⟩ := setstateCopy_img hs
  have hact : s'.active = s.active := by rw [(setstateCopy_ok hs).1]
  refine hf.same ?_ hact hfpu fun a ha => ?_
  · rw [himg, Function.update_of_ne hne.symm]
  · have hqa : a ≠ q := by
      rintro rfl
      rcases hq with ⟨hq, -⟩ | ⟨-, hm⟩
      · exact hne (hA.apart u t a hq ha)
      · obtain ⟨q', hq', hnew, -⟩ := hA.heap.allocated bucket_area (by decide) hm
        obtain rfl := Option.some.inj hq'
        exact hnew (hA.area t a ha)
    rw [hfx, Function.update_of_ne hqa]

/-- `SETSTATE` on another thread, or on `t` while it goes on running. -/
theorem setstate_fpuOf (hr : Running s.toSched) (hA : Areas s L)
    (hs : kcallSetstate env s c = .ok s')
    (hset : s.toSched.named c (s.img c).ebx = some t → Settable (s.tcb t).state →
      (s.tcb t).state = .running ∧ env.info.flags &&& TF_DEAD = 0)
    (hf : FpuOf s t f) : FpuOf s' t f := by
  rcases setstate_cases hs with ⟨v, -, rfl, -⟩ | ⟨u, src, s₁, ⟨hu, hst, -⟩, rfl, hcopy⟩
  · exact hf.same (setEax_fxdata s c t v) rfl rfl fun _ _ => rfl
  · have hsaved := setstateBegin_saved hr env.info src u
    have hbegin := hsaved.fpuOf hA hf
    have h₁ : FpuOf s₁ t f := by
      rcases hcopy with ⟨hnot, hcopy⟩ | ⟨-, rfl⟩
      · by_cases hut : u = t
        · subst hut
          obtain ⟨hrun, hdead⟩ := hset hu hst
          exact absurd ((setstateBegin_toSched src s u hdead).symm ▸ hrun) hnot
        · obtain ⟨L', hA', -⟩ := setstateBegin_areas hA env.info src u
          exact copy_fpuOf hA' hut hcopy hbegin
      · exact hbegin
    exact h₁.same (setEax_fxdata s₁ c t 0) rfl rfl fun _ _ => rfl

end FpuOf

/-! ### One entry -/

/-- The call replaces the FPU image of `t`: `SETSTATE` accepts it and it does not go on
running. -/
def Input.SetsFpu (s : Kernel) (i : Input) (t : Ptr) : Prop :=
  i.SetsState s t ∧ ((s.tcb t).state = .paused ∨ (s.tcb t).state = .pausedw ∨
    (s.tcb t).state = .running ∧ i.env.info.flags &&& TF_DEAD ≠ 0)

/-- **One handler keeps the registers of a thread.** -/
theorem handled_fpuOf {s s' : Kernel} {i : Input} {info : TInfo} {t : Ptr} {f : FpuRegs}
    {L : Blocks} (hw : TableWf s) (hr : Running s.toSched) (hA : Areas s L)
    (hen : i.Enabled s.toSched) (hok : StepRunOk s i) (hlive : ∃ j, s.table j = some t)
    (hset : ¬i.SetsFpu s t) (hreap : i.act s ≠ .reap t) (h : handled s i = .ok (s', info))
    (hf : FpuOf s t f) : FpuOf s' t f := by
  by_cases hheap : i.Heap s
  · obtain ⟨r, env, rfl, hu, hmem⟩ := (handled_kind h).resolve_left fun hq => hq.2 hheap
    have himg := trap_img s (.call r env)
    have htrap : FpuOf (trap s (.call r env)) t f := (trap_saved s _).fpuOf hA hf
    obtain ⟨L', hA', -⟩ : AreasStep s L (trap s (.call r env)) := hA.same (SameHeap.refl _)
      (fun _ _ hp => hp) (trap_saved s _).fxdata
    generalize hc : Call.ofEax r.eax = call at hmem
    cases hmem with
    | spawn hs => exact spawn_fpuOf (trap_tableWf hw _) hA' hlive hs htrap
    | reap hs =>
      refine reap_fpuOf hs (fun u hget hst hut => hreap ?_) htrap
      subst hut
      rw [himg] at hget
      have hact : Input.act s (.call r env) =
          callAct s.toSched s.image r.ebx env.info.flags (Call.ofEax r.eax) :=
        if_neg (not_not.mpr hu)
      rw [hact, hc]
      have hget' : threadGet s.toSched r.ebx.toInt = some u := hget
      have hst' : (s.tcb u).state = .paused := hst
      simp only [callAct, hget', hst', if_true]
    | setstate hs =>
      refine setstate_fpuOf (s := trap s (.call r env)) hr hA' hs (fun hnamed hst => ?_) htrap
      rw [himg] at hnamed
      have hsets : Input.SetsState s (.call r env) t := ⟨hu, hc, hnamed⟩
      have hnot : ¬((s.tcb t).state = .paused ∨ (s.tcb t).state = .pausedw ∨
          (s.tcb t).state = .running ∧ env.info.flags &&& TF_DEAD ≠ 0) :=
        fun hst => hset ⟨hsets, hst⟩
      rw [not_or, not_or, not_and_or, not_not] at hnot
      rcases hst with hst | hst | hst
      · exact absurd hst hnot.1
      · exact absurd hst hnot.2.1
      · exact ⟨hst, hnot.2.2.resolve_left fun hno => hno hst⟩
    | paging hnot => exact absurd (hc ▸ hheap.2) hnot
  · exact (handled_saved hr hen hok hheap h).fpuOf hA hf

/-- Picking a thread: if it is `t`, its area is loaded. -/
theorem schedule_fpuOf {s s' : Kernel} {o : Option Ptr} {t : Ptr} {f : FpuRegs}
    (h : schedule s = .ok (o, s')) (hf : FpuOf s t f) : FpuOf s' t f := by
  rcases schedule_cases h with ⟨rfl, -⟩ | ⟨u, r, k, hnone, -, -, -, rfl⟩
  · exact hf
  · obtain ⟨a, ha, hf⟩ := hf
    rw [if_neg (by rw [hnone]; simp)] at hf
    obtain ⟨himg, hfx, hfpu, -⟩ := threadLoad_eq { s with toSched := k } u
    have hact : ((threadLoad { s with toSched := k } u).setState u .running).active = some u := rfl
    refine ⟨a, ?_, ?_⟩
    · show ((threadLoad { s with toSched := k } u).img t).fxdata = some a
      rw [himg]
      exact ha
    · rw [hact]
      split
      case isTrue htu =>
        obtain rfl := Option.some.inj htu
        show (threadLoad { s with toSched := k } u).fpu = f
        have ha' : (({ s with toSched := k } : Kernel).img u).fxdata = some a := ha
        rw [hfpu, ha']
        exact hf
      case isFalse =>
        show ((threadLoad { s with toSched := k } u).fx a).regs = f
        rw [hfx]
        exact hf

/-! ### Runs -/

/-- Between two entries the thread on the processor computes: the FPU may hold
anything afterwards. -/
def Kernel.compute (s : Kernel) (f : FpuRegs) : Kernel := { s with fpu := f }

/-- One entry after the FPU got the value `f`. -/
def Kernel.computeNext (s : Kernel) (x : FpuRegs × Input) : Except Stop Kernel :=
  (s.compute x.1).next x.2

/-- The states reached by entries between which threads use the FPU. -/
def FpuReach (ok : Kernel → Input → Prop) : Kernel → Prop :=
  Reachable Kernel.computeNext (fun s x => x.2.Enabled s.toSched ∧ ok (s.compute x.1) x.2) Init

/-- What every reachable state satisfies. -/
structure FpuInv (s : Kernel) : Prop where
  table : TableWf s
  running : Running s.toSched
  areas : ∃ L, Areas s L

theorem FpuInv.compute {s : Kernel} (h : FpuInv s) (f : FpuRegs) : FpuInv (s.compute f) :=
  ⟨⟨h.table.heap, h.table.id_eq, h.table.bound, h.table.owned⟩, h.running,
    h.areas.imp fun _ hA => ⟨hA.heap, hA.thread, hA.area, hA.apart, hA.leaked⟩⟩

theorem FpuInv.next {s s' : Kernel} {i : Input} (h : FpuInv s) (hok : StepRunOk s i)
    (hs : s.next i = .ok s') : FpuInv s' := by
  obtain ⟨k, o, heff, hpick, hw⟩ := next_cases h.table hs
  obtain ⟨L, hA⟩ := h.areas
  obtain ⟨L', hA', -⟩ := next_areas h.table hA hs
  exact ⟨hw, (hpick.running (heff.running h.running hok)).1, L', hA'⟩

theorem FpuReach.inv {s : Kernel} (h : FpuReach StepRunOk s) : FpuInv s := by
  refine Reachable.invariant FpuInv (fun s hs => ⟨hs.cases.1, hs.running, hs.areas⟩) ?_ h
  rintro s ⟨f, i⟩ s' - hinv ⟨-, hok⟩ hs
  exact (hinv.compute f).next hok hs

/-- `t`, a thread of the table, entered the kernel with `f` in the FPU, and since then
it has not been on the processor when the kernel was entered, has not been reaped, and
no `SETSTATE` has replaced its FPU image.  `area` is what is asked of `t` when it
leaves. -/
inductive Away (ok : Kernel → Input → Prop) (area : Kernel → Ptr → Prop) (t : Ptr) (f : FpuRegs) :
    Kernel → Prop
  | leave {s s' : Kernel} {i : Input} : FpuReach ok s → s.active = some t →
      (∃ j, s.table j = some t) → area s t → i.Enabled s.toSched → ok (s.compute f) i →
      ¬i.SetsFpu (s.compute f) t → (s.compute f).next i = .ok s' → Away ok area t f s'
  | other {s s' : Kernel} {g : FpuRegs} {i : Input} : Away ok area t f s → s.active ≠ some t →
      i.Enabled s.toSched → ok (s.compute g) i → ¬i.SetsFpu (s.compute g) t →
      i.act (s.compute g) ≠ .reap t → (s.compute g).next i = .ok s' → Away ok area t f s'

/-- The thread has an FPU area. -/
def HasArea (s : Kernel) (t : Ptr) : Prop := (s.img t).fxdata ≠ none

theorem next_fpuOf {s s' : Kernel} {i : Input} {t : Ptr} {f : FpuRegs} (h : FpuInv s)
    (hen : i.Enabled s.toSched) (hok : StepRunOk s i) {j : ℕ} (hj : s.table j = some t)
    (hset : ¬i.SetsFpu s t) (hreap : i.act s ≠ .reap t) (hs : s.next i = .ok s')
    (hf : FpuOf s t f) : FpuOf s' t f ∧ s'.table j = some t := by
  obtain ⟨⟨o, k, info⟩, hstep, hk⟩ := map_eq_ok.mp hs
  obtain rfl : k = s' := hk
  obtain ⟨s₁, h₁, h₂⟩ := step_cases hstep
  obtain ⟨heff, hw₁⟩ := handled_effect h.table h₁
  obtain ⟨L, hA⟩ := h.areas
  refine ⟨schedule_fpuOf h₂ (handled_fpuOf h.table h.running hA hen hok ⟨j, hj⟩ hset hreap h₁ hf),
    ?_⟩
  rw [(schedule_picks hw₁ h₂).1.table]
  exact heff.table_keep hreap hj

/-- An active thread runs, and `REAP` refuses a thread that runs. -/
theorem reap_ne_active {s s₁ : Kernel} {i : Input} {t : Ptr} {info : TInfo} (h : FpuInv s)
    (hact : s.active = some t) (hs : handled s i = .ok (s₁, info)) : i.act s ≠ .reap t := by
  intro hreap
  have heff := (handled_effect h.table hs).1
  rw [hreap] at heff
  generalize s₁.toSched = k at heff
  cases heff with
  | reap live state =>
    rw [(h.running t).mpr hact] at state
    cases state

theorem Away.fpuOf {t : Ptr} {f : FpuRegs} {s : Kernel} (h : Away StepRunOk HasArea t f s) :
    FpuInv s ∧ FpuOf s t f ∧ ∃ j, s.table j = some t := by
  induction h with
  | leave hr hact hlive harea hen hok hset hs =>
    rename_i s s' i
    obtain ⟨j, hj⟩ := hlive
    obtain ⟨a, ha⟩ := Option.ne_none_iff_exists'.mp harea
    have hinv := (FpuReach.inv hr).compute f
    have hstart : FpuOf (s.compute f) t f := by
      refine ⟨a, ha, ?_⟩
      rw [if_pos (show (s.compute f).active = some t from hact)]
      rfl
    obtain ⟨⟨o, k, info⟩, hstep, -⟩ := map_eq_ok.mp hs
    obtain ⟨s₁, h₁, -⟩ := step_cases hstep
    obtain ⟨hf, hj'⟩ := next_fpuOf hinv hen hok hj hset (reap_ne_active hinv hact h₁) hs hstart
    exact ⟨hinv.next hok hs, hf, j, hj'⟩
  | other haway hact hen hok hset hreap hs ih =>
    rename_i s s' g i
    obtain ⟨hinv, ⟨a, ha, hf⟩, j, hj⟩ := ih
    rw [if_neg hact] at hf
    -- whatever the other threads compute stays out of the area of `t`
    have hstart : FpuOf (s.compute g) t f := by
      refine ⟨a, ha, ?_⟩
      rw [if_neg (show (s.compute g).active ≠ some t from hact)]
      exact hf
    obtain ⟨hf', hj'⟩ := next_fpuOf (hinv.compute g) hen hok hj hset hreap hs hstart
    exact ⟨(hinv.compute g).next hok hs, hf', j, hj'⟩

/-- **A thread with an FPU area finds its registers again**: along every run of allowed
actions, whatever the threads in between did to the FPU. -/
theorem fpu_private {t : Ptr} {f : FpuRegs} {s : Kernel} (h : Away StepRunOk HasArea t f s)
    (hact : s.active = some t) : s.fpu = f := by
  obtain ⟨-, ⟨a, -, hf⟩, -⟩ := h.fpuOf
  rwa [if_pos hact] at hf

/-! ### Runs on concrete inputs -/

/-- Boot on `flatMem` and run the inputs, the FPU set before each. -/
def fpuRun (ok : Kernel → Input → Prop) [∀ s i, Decidable (ok s i)]
    (is : List (FpuRegs × Input)) : Option Kernel :=
  (bootstrap flatMem 0 0 0).toOption.bind
    (replay Kernel.computeNext (fun s x => x.2.Enabled s.toSched ∧ ok (s.compute x.1) x.2) is)

theorem fpuRun_reach {ok : Kernel → Input → Prop} [∀ s i, Decidable (ok s i)]
    {is : List (FpuRegs × Input)} {s : Kernel} (h : fpuRun ok is = some s) : FpuReach ok s := by
  obtain ⟨s₀, hs₀, hrun⟩ := Option.bind_eq_some_iff.mp h
  have hinit : Init s₀ := ⟨flatMem, 0, 0, 0, .empty rfl fun _ => rfl, toOption_eq_some.mp hs₀⟩
  exact Reachable.of_replay (.start hinit) hrun

/-- The whole FPU holds one value. -/
def fpuOnes (v : U32) : FpuRegs := fun _ => v

/-- Two timer ticks take the processor away from the active thread and back; in between
the FPU gets another value. -/
theorem away_ticks {ok : Kernel → Input → Prop} {area : Kernel → Ptr → Prop} {s s₁ s₂ : Kernel}
    {t : Ptr} {f g : FpuRegs} {j : ℕ} (h : FpuReach ok s) (hact : s.active = some t)
    (hj : s.table j = some t) (harea : area s t) (hok : ok (s.compute f) (irqOf 0))
    (h₁ : (s.compute f).next (irqOf 0) = .ok s₁) (hoff : s₁.active ≠ some t)
    (hok₁ : ok (s₁.compute g) (irqOf 0)) (h₂ : (s₁.compute g).next (irqOf 0) = .ok s₂) :
    Away ok area t f s₂ := by
  have hleave : Away ok area t f s₁ :=
    .leave (i := irqOf 0) h hact ⟨j, hj⟩ harea trivial hok (fun hs => hs.1) h₁
  refine .other (i := irqOf 0) hleave hoff trivial hok₁ (fun hs => hs.1) ?_ h₂
  simp [irqOf, Input.act]

/-- Thread 1 gets an area by a `SETSTATE` before it runs; it is preempted, thread 0
uses the FPU, and thread 1 finds its registers again. -/
theorem fpu_private_preempted : ∃ t f s, Away StepRunOk HasArea t f s ∧ s.active = some t ∧
    s.fpu = f := by
  have hrun : (fpuRun StepRunOk ([callOf 0x02 0, callOf 0x05 1, callOf 0x08 1, callOf 0x06 1,
      irqOf 0].map (fpuOnes 0, ·))).any (fun s =>
      decide (s.active = some 0xF1000E00) && decide (s.table 1 = some 0xF1000E00) &&
      decide ((s.img 0xF1000E00).fxdata ≠ none) &&
      decide (StepRunOk (s.compute (fpuOnes 1)) (irqOf 0)) &&
      ((s.compute (fpuOnes 1)).next (irqOf 0)).toOption.any fun (s₁ : Kernel) =>
        decide (s₁.active ≠ some 0xF1000E00) &&
        decide (StepRunOk (s₁.compute (fpuOnes 2)) (irqOf 0)) &&
        ((s₁.compute (fpuOnes 2)).next (irqOf 0)).toOption.any fun (s₂ : Kernel) =>
          decide (s₂.active = some 0xF1000E00)) = true := by
    decide +kernel
  simp only [Option.any_eq_true, Bool.and_eq_true, decide_eq_true_eq, toOption_eq_some] at hrun
  obtain ⟨s, hs, ⟨⟨⟨hact, hj⟩, harea⟩, hok⟩, s₁, h₁, ⟨hoff, hok₁⟩, s₂, h₂, hact₂⟩ := hrun
  have haway : Away StepRunOk HasArea 0xF1000E00 (fpuOnes 1) s₂ :=
    away_ticks (fpuRun_reach hs) hact hj harea hok h₁ hoff hok₁ h₂
  exact ⟨_, _, s₂, haway, hact₂, fpu_private haway hact₂⟩

/-- Thread 0 has no area: it is preempted with one value in the FPU and resumed with
another. -/
theorem fpu_private_fails : ∃ t f s, Away (fun _ _ => True) (fun _ _ => True) t f s ∧
    s.active = some t ∧ s.fpu ≠ f := by
  have hrun : (fpuRun (fun _ _ => True) [(fpuOnes 0, callOf 0x02 0)]).any (fun s =>
      decide (s.active = some 0xF1000F00) && decide (s.table 0 = some 0xF1000F00) &&
      ((s.compute (fpuOnes 1)).next (irqOf 0)).toOption.any fun (s₁ : Kernel) =>
        decide (s₁.active ≠ some 0xF1000F00) &&
        ((s₁.compute (fpuOnes 2)).next (irqOf 0)).toOption.any fun (s₂ : Kernel) =>
          decide (s₂.active = some 0xF1000F00) && decide (s₂.fpu 0 ≠ 1)) = true := by
    decide +kernel
  simp only [Option.any_eq_true, Bool.and_eq_true, decide_eq_true_eq, toOption_eq_some] at hrun
  obtain ⟨s, hs, ⟨hact, hj⟩, s₁, h₁, hoff, s₂, h₂, hact₂, hfpu⟩ := hrun
  refine ⟨_, fpuOnes 1, s₂, away_ticks (fpuRun_reach hs) hact hj trivial trivial h₁ hoff trivial h₂,
    hact₂, fun hf => hfpu ?_⟩
  rw [hf]
  rfl

end Pinion
