/-
The heap blocks of the threads.

`SPAWN`, `REAP` and `SETSTATE` are the only entries that call the heap.  A thread
structure is a block of bucket 6 and an FPU area one of bucket 7.

* `Quiet` — memory and the attributes of the threads stay as they are;
* `handled_kind` — a handler is quiet, changes the page tables, or is one of the
  three calls;
* `Areas s L` — the blocks in use `L` hold the threads of the table and the FPU
  areas, each area belongs to one thread, and one block of bucket 7 to none;
* `handled_areas`, `KernelReach.areas` — every entry keeps it.
-/
import Pinion.Images
import Pinion.HeapBlocks

open Runs

namespace Pinion

/-! ### Handlers that leave memory alone -/

/-- Memory and the attributes of the threads are the same. -/
structure Quiet (s s' : Kernel) : Prop where
  mm : s'.mm = s.mm
  attrs : ∀ p, (s'.img p).attrs = (s.img p).attrs

section Quiet

variable {s s' s'' : Kernel}

theorem Quiet.trans (h : Quiet s s') (h' : Quiet s' s'') : Quiet s s'' :=
  ⟨h'.mm.trans h.mm, fun p => (h'.attrs p).trans (h.attrs p)⟩

/-- Writes outside memory, of parts of the images that are no attributes. -/
theorem Writes.quiet {σ : Scope} (hm : ¬σ.memory)
    (hattrs : ∀ p i i', σ.image p i i' → i'.attrs = i.attrs) (h : Writes σ s s') : Quiet s s' :=
  ⟨h.mm hm, fun p => h.keep (hattrs p)⟩

/-- An image that is replaced with its attributes. -/
theorem Quiet.updImg {p : Ptr} {f : Image → Image} (hf : (f (s.img p)).attrs = (s.img p).attrs) :
    Quiet s (s.updImg p f) := by
  refine ⟨rfl, fun q => ?_⟩
  by_cases hq : q = p
  · rw [hq, updImg_self, hf]
  · rw [updImg_ne s f hq]

end Quiet

/-! ### What a handler does to memory -/

/-- The input is one of these calls, from system mode. -/
def Input.Heap (s : Kernel) : Input → Prop
  | .call r _ => (s.img s.image).flags &&& TF_USER = 0 ∧ (Call.ofEax r.eax).Heap
  | _ => False

/-- The calls that change memory: three call the heap, the others the paging code. -/
inductive MemCall (env : Env) (s : Kernel) (c : Ptr) (s' : Kernel) : Call → Prop
  | spawn : kcallSpawn env s c = .ok s' → MemCall env s c s' .spawn
  | reap {info : TInfo} : kcallReap env s c = .ok (s', info) → MemCall env s c s' .reap
  | setstate : kcallSetstate env s c = .ok s' → MemCall env s c s' .setstate
  | paging {call : Call} {i : Image} {m : Mem} : ¬call.Heap →
      pagingCall call s.mm (s.img c) = .ok (i, m) →
      s' = { s with mm := m }.updImg c (fun _ => i) → MemCall env s c s' call

theorem kcall_kind {env : Env} {s s' : Kernel} {c : Ptr} {info : TInfo}
    (h : kcall env s c = .ok (s', info)) :
    Quiet s s' ∧ ((s.img c).flags &&& TF_USER = 0 → ¬(Call.ofEax (s.img c).eax).Heap) ∨
      (s.img c).flags &&& TF_USER = 0 ∧ MemCall env s c s' (Call.ofEax (s.img c).eax) := by
  by_cases hu : (s.img c).flags &&& TF_USER = 0
  · by_cases hmem : (Call.ofEax (s.img c).eax).Heap ∨ (Call.ofEax (s.img c).eax).Paging
    · refine Or.inr ⟨hu, ?_⟩
      unfold kcall at h
      rw [if_neg (not_not.mpr hu), kernelCall] at h
      cases hc : Call.ofEax (s.img c).eax <;> rw [hc] at h hmem
      case spawn =>
        obtain ⟨s₁, h₁, h⟩ := map_eq_ok.mp h
        cases h
        exact .spawn h₁
      case reap => exact .reap h
      case setstate =>
        obtain ⟨s₁, h₁, h⟩ := map_eq_ok.mp h
        cases h
        exact .setstate h₁
      case newpctx | freepctx | setframe | setflags | getframe | getflags | newframe | freeframe
          | takeframe | unimplemented =>
        obtain ⟨⟨i, m⟩, hm, h⟩ := bind_eq_ok.mp h
        cases h
        exact .paging (by decide) hm rfl
      all_goals exact absurd (hmem.resolve_left (by decide)) id
    · have hwrites := kcall_writes True hu (.inl trivial) h
      refine Or.inl ⟨hwrites.quiet hmem fun p i i' hi => ?_, fun _ hheap => hmem (.inl hheap)⟩
      cases hi with
      | counted _ hi => exact hi.attrs
      | sysret _ _ hi => rw [hi, sysret_attrs]
      | freed hc => exact absurd (.inl (.inr (.inl hc))) hmem
      | set hc => exact absurd (.inl (.inr (.inr hc))) hmem
      | new m hc => exact absurd (.inl (.inl hc)) hmem
  · unfold kcall at h
    rw [if_pos hu] at h
    cases h
    exact Or.inl ⟨Quiet.updImg (enter_attrs _), fun hsys => absurd hsys hu⟩

theorem trap_quiet (s : Kernel) (i : Input) : Quiet s (trap s i) :=
  ⟨rfl, fun p => (trap_touched s i (W := noThread) (X := noThread)).attrs p id⟩

/-- **A handler is quiet, or a call that changes memory.** -/
theorem handled_kind {s s' : Kernel} {i : Input} {info : TInfo}
    (h : handled s i = .ok (s', info)) : Quiet s s' ∧ ¬i.Heap s ∨
      ∃ r env, i = .call r env ∧ (s.img s.image).flags &&& TF_USER = 0 ∧
        MemCall env (trap s i) s.image s' (Call.ofEax r.eax) := by
  by_cases hcall : ∃ r env, i = .call r env
  · obtain ⟨r, env, rfl⟩ := hcall
    rw [handled_call] at h
    rcases kcall_kind h with ⟨hq, hcall⟩ | ⟨hu, hm⟩
    · rw [trap_img] at hcall
      exact Or.inl ⟨(trap_quiet s _).trans hq, fun hheap => hcall hheap.1 hheap.2⟩
    · rw [trap_img] at hu hm
      exact Or.inr ⟨r, env, rfl, hu, hm⟩
  · have hi : ∀ r env, i ≠ .call r env := fun r env he => hcall ⟨r, env, he⟩
    have hwrites := handled_writes True hi (.inl trivial) h
    have hquiet : Quiet (trap s i) s' := by
      refine hwrites.quiet id fun p j j' hj => ?_
      exact hj.2.attrs
    refine Or.inl ⟨(trap_quiet s i).trans hquiet, ?_⟩
    cases i with
    | call r env => exact absurd rfl (hi r env)
    | irq n r env => exact id
    | fault n r env => exact id

/-! ### The blocks of threads and FPU areas -/

/-- The blocks in use hold the threads of the table and the FPU areas.  An area belongs
to one thread only, and one block of the size of an area to none. -/
structure Areas (s : Kernel) (L : Blocks) : Prop where
  heap : HeapInv s.mm L
  thread : ∀ j p, s.table j = some p → p ∈ L 6
  area : ∀ p a, (s.img p).fxdata = some a → a ∈ L 7
  apart : ∀ p p' a, (s.img p).fxdata = some a → (s.img p').fxdata = some a → p = p'
  leaked : ∃ q ∈ L 7, ∀ p, (s.img p).fxdata ≠ some q

/-- The blocks in use move by calls of the heap, and the invariant holds afterwards. -/
def AreasStep (s : Kernel) (L : Blocks) (s' : Kernel) : Prop :=
  ∃ L', Areas s' L' ∧ HeapSteps s.mm L s'.mm L'

theorem fxdata_of_attrs {s s' : Kernel} {p : Ptr} (h : (s'.img p).attrs = (s.img p).attrs) :
    (s'.img p).fxdata = (s.img p).fxdata := congrArg (·.2.1) h

section Steps

variable {env : Env} {s s' : Kernel} {c : Ptr} {L : Blocks}

theorem Areas.same (h : Areas s L) (hm : SameHeap s.mm s'.mm)
    (ht : ∀ j p, s'.table j = some p → s.table j = some p)
    (hfx : ∀ p, (s'.img p).fxdata = (s.img p).fxdata) : AreasStep s L s' := by
  refine ⟨L, ⟨h.heap.same hm, fun j p hp => h.thread j p (ht j p hp), ?_, ?_, ?_⟩,
    HeapSteps.refl.same hm⟩
  · intro p a hp
    rw [hfx] at hp
    exact h.area p a hp
  · intro p p' a hp hp'
    rw [hfx] at hp hp'
    exact h.apart p p' a hp hp'
  · obtain ⟨q, hq, hno⟩ := h.leaked
    exact ⟨q, hq, fun p => (hfx p).symm ▸ hno p⟩

theorem bucket_thread : heapFindBucket sizeofThread = 6 := by decide

theorem bucket_area : heapFindBucket 512 = 7 := by decide

/-- **`SPAWN`** takes a thread structure and a block that no thread keeps. -/
theorem spawn_areas (hw : TableWf s) (h : Areas s L) (hs : kcallSpawn env s c = .ok s') :
    AreasStep s L s' := by
  obtain ⟨p, m, q, -, hp, hq, -, -, hzero, hattrs, -, htab⟩ := spawn_img hw hs
  obtain ⟨p', hp', -, hinv₁, hsteps₁⟩ := h.heap.allocated bucket_thread (by decide) hp
  obtain rfl := Option.some.inj hp'
  obtain ⟨a, -, -, hinv₂, hsteps₂⟩ := hinv₁.allocated bucket_area (by decide) hq
  have hfx : ∀ t b, (s'.img t).fxdata = some b → (s.img t).fxdata = some b := by
    intro t b hb
    by_cases ht : t = p
    · have hnone : (s'.img t).fxdata = none := by
        rw [ht]
        exact congrArg (·.2.1) hzero
      rw [hnone] at hb
      cases hb
    · rw [← fxdata_of_attrs (hattrs t ht)]
      exact hb
  refine ⟨_, ⟨hinv₂, ?_, ?_, ?_, ?_⟩, hsteps₁.trans hsteps₂⟩
  · intro j t ht
    rcases htab j t ht with rfl | ht
    · exact mem_push_of_mem (mem_push_self 6 t)
    · exact mem_push_of_mem (mem_push_of_mem (h.thread j t ht))
  · exact fun t b hb => mem_push_of_mem (mem_push_of_mem (h.area t b (hfx t b hb)))
  · exact fun t t' b hb hb' => h.apart t t' b (hfx t b hb) (hfx t' b hb')
  · obtain ⟨b, hb, hno⟩ := h.leaked
    exact ⟨b, mem_push_of_mem (mem_push_of_mem hb), fun t ht => hno t (hfx t b ht)⟩

/-- `REAP`: refused, or the thread leaves the table and its blocks go back. -/
theorem reap_cases {info : TInfo} (hs : kcallReap env s c = .ok (s', info)) :
    ∃ t, threadGet s.toSched (s.img c).ebx.toInt = some t ∧
      ((s.tcb t).state ≠ .paused ∧ s' = s.setEax c TE_STATE ∨
        (s.tcb t).state = .paused ∧ s' = threadKill (s.setEax c 0) t) := by
  unfold kcallReap at hs
  split at hs
  · cases hs
  · rename_i t ht
    split at hs
    · rename_i hst
      cases hs
      exact ⟨t, ht, Or.inl ⟨hst, rfl⟩⟩
    · rename_i hst
      cases hs
      exact ⟨t, ht, Or.inr ⟨not_not.mp hst, rfl⟩⟩

theorem setEax_fxdata (s : Kernel) (c p : Ptr) (v : U32) :
    ((s.setEax c v).img p).fxdata = (s.img p).fxdata :=
  fxdata_of_attrs (setEax_attrs s c p v)

/-- **`REAP`** gives back the structure of its target and the area it has. -/
theorem kill_areas {t : Ptr} {i : ℕ} (hw : TableWf s) (h : Areas s L) (ht : s.table i = some t) :
    AreasStep s L (threadKill s t) := by
  have hid : (s.tcb t).id.toNat = i := by rw [hw.id_eq i t ht, Int.toNat_natCast]
  have himg : ∀ p a, ((threadKill s t).img p).fxdata = some a →
      p ≠ t ∧ (s.img p).fxdata = some a := by
    intro p a hp
    by_cases hpt : p = t
    · subst hpt
      simp only [threadKill, Function.update_self] at hp
      cases hp
    · simp only [threadKill, Function.update_of_ne hpt] at hp
      exact ⟨hpt, hp⟩
  have htab : ∀ j p, (threadKill s t).table j = some p → p ≠ t ∧ s.table j = some p := by
    intro j p hp
    simp only [threadKill, hid] at hp
    by_cases hj : j = i
    · rw [hj, Function.update_self] at hp
      cases hp
    · rw [Function.update_of_ne hj] at hp
      refine ⟨?_, hp⟩
      rintro rfl
      have hij := (hw.id_eq j p hp).symm.trans (hw.id_eq i p ht)
      exact hj (by exact_mod_cast hij)
  have ht6 := h.thread i t ht
  obtain ⟨q, hq, hno⟩ := h.leaked
  -- the area goes first, then the structure
  have harea : ∃ m L₁, (threadKill s t).mm = heapFree m t sizeofThread ∧ HeapInv m L₁ ∧
      HeapSteps s.mm L m L₁ ∧ L₁ 6 = L 6 ∧ (∀ p a, p ≠ t →
        (s.img p).fxdata = some a → a ∈ L₁ 7) ∧ q ∈ L₁ 7 := by
    cases hfx : (s.img t).fxdata with
    | none =>
      refine ⟨s.mm, L, ?_, h.heap, .refl, rfl, fun p a _ hp => h.area p a hp, hq⟩
      simp only [threadKill, hfx]
    | some a =>
      have ha : a ∈ L (heapFindBucket 512) := by
        rw [bucket_area]
        exact h.area t a hfx
      have hb : heapFindBucket 512 < 16 := by decide
      refine ⟨heapFree s.mm a 512, _, ?_, h.heap.free hb ha, HeapSteps.refl.free hb ha, ?_, ?_, ?_⟩
      · simp only [threadKill, hfx]
      · rw [bucket_area, Blocks.drop, Function.update_of_ne (by decide)]
      · intro p a' hpt hp
        rw [bucket_area]
        refine mem_drop_of_mem (h.area p a' hp) fun _ => ?_
        rintro rfl
        exact hpt (h.apart p t a' hp hfx)
      · rw [bucket_area]
        refine mem_drop_of_mem hq fun _ => ?_
        rintro rfl
        exact hno t hfx
  obtain ⟨m, L₁, hm, hinv, hsteps, h6, hareas, hq₁⟩ := harea
  have ht₁ : t ∈ L₁ (heapFindBucket sizeofThread) := by
    rw [bucket_thread, h6]
    exact ht6
  have hb : heapFindBucket sizeofThread < 16 := by decide
  refine ⟨_, ⟨hm ▸ hinv.free hb ht₁, ?_, ?_, ?_, ?_⟩, hm ▸ hsteps.free hb ht₁⟩
  · intro j p hp
    obtain ⟨hpt, hp⟩ := htab j p hp
    refine mem_drop_of_mem ?_ fun _ => hpt
    rw [h6]
    exact h.thread j p hp
  · intro p a hp
    obtain ⟨hpt, hp⟩ := himg p a hp
    exact mem_drop_of_mem (hareas p a hpt hp) fun hne => absurd hne (by decide)
  · exact fun p p' a hp hp' => h.apart p p' a (himg p a hp).2 (himg p' a hp').2
  · exact ⟨q, mem_drop_of_mem hq₁ fun hne => absurd hne (by decide),
      fun p hp => hno p (himg p q hp).2⟩

/-- **`SETSTATE`** gives its target an area if it has none. -/
theorem copy_areas {src : TInfo} {t : Ptr} (h : Areas s L)
    (hs : setstateCopy src s t = .ok s') : AreasStep s L s' := by
  obtain ⟨-, q, hq, -, himg⟩ := setstateCopy_img hs
  have htab : s'.table = s.table := by rw [(setstateCopy_ok hs).1]
  have hfx : ∀ p, (s'.img p).fxdata = if p = t then some q else (s.img p).fxdata := by
    intro p
    rw [himg]
    by_cases hp : p = t
    · rw [hp, Function.update_self, if_pos rfl]
    · rw [Function.update_of_ne hp, if_neg hp]
  rcases hq with ⟨hq, hm⟩ | ⟨hnone, hm⟩
  · refine h.same (hm ▸ SameHeap.refl _) (fun j p hp => htab ▸ hp) fun p => ?_
    rw [hfx]
    split
    case isTrue hp => rw [hp, hq]
    case isFalse => rfl
  · obtain ⟨q', hq', hnew, hinv, hsteps⟩ := h.heap.allocated bucket_area (by decide) hm
    obtain rfl := Option.some.inj hq'
    -- the new block is no area of another thread
    have hother : ∀ p, (s.img p).fxdata ≠ some q := fun p hp => hnew (h.area p q hp)
    refine ⟨_, ⟨hinv, ?_, ?_, ?_, ?_⟩, hsteps⟩
    · intro j p hp
      exact mem_push_of_mem (h.thread j p (htab ▸ hp))
    · intro p a hp
      rw [hfx] at hp
      split at hp
      · cases hp
        exact mem_push_self 7 q
      · exact mem_push_of_mem (h.area p a hp)
    · intro p p' a hp hp'
      rw [hfx] at hp hp'
      split at hp <;> split at hp'
      · rename_i h₁ h₂
        rw [h₁, h₂]
      · cases hp
        exact absurd hp' (hother p')
      · cases hp'
        exact absurd hp (hother p)
      · exact h.apart p p' a hp hp'
    · obtain ⟨b, hb, hno⟩ := h.leaked
      refine ⟨b, mem_push_of_mem hb, fun p hp => ?_⟩
      rw [hfx] at hp
      split at hp
      · cases hp
        exact hnew hb
      · exact hno p hp

theorem setEax_areas (h : Areas s L) (c : Ptr) (v : U32) : AreasStep s L (s.setEax c v) :=
  h.same (SameHeap.refl _) (fun _ _ hp => hp) fun p => setEax_fxdata s c p v

theorem AreasStep.trans {s'' : Kernel} (h : AreasStep s L s')
    (h' : ∀ L', Areas s' L' → AreasStep s' L' s'') : AreasStep s L s'' := by
  obtain ⟨L₁, hareas, hsteps⟩ := h
  obtain ⟨L₂, hareas₂, hsteps₂⟩ := h' L₁ hareas
  exact ⟨L₂, hareas₂, hsteps.trans hsteps₂⟩

theorem setstateKill_table (s : Kernel) (t : Ptr) : (setstateKill s t).table = s.table := by
  rw [(setstateKill_kill s t).1, Sched.kill]
  split
  · exact (report_ids _ _ _).2
  · exact (report_ids _ _ _).2

/-- `SETSTATE` up to the copy of the registers may load a paging context. -/
theorem setstateBegin_mm (src src' : TInfo) (s : Kernel) (t : Ptr) :
    (setstateBegin src src' s t).mm = (if (s.img t).pctx ≠ src.pctx then
      (pctxLoad s.mm src.pctx.toInt).2 else s.mm) ∧
      (setstateBegin src src' s t).table = s.table := by
  constructor
  · rw [show (setstateBegin src src' s t).mm = (setstateOpen src s t).mm from rfl,
      setstateOpen_mm, setstateLoad]
    split <;> rfl
  · show (setstateOpen src s t).table = s.table
    have hload : ∀ s₁ : Kernel, (setstateLoad src s₁ t).table = s₁.table := by
      intro s₁
      unfold setstateLoad
      split <;> rfl
    rw [setstateOpen, hload]
    split
    · exact setstateKill_table s t
    · rfl

theorem setstateBegin_areas (h : Areas s L) (src src' : TInfo) (t : Ptr) :
    AreasStep s L (setstateBegin src src' s t) := by
  obtain ⟨hmm, htab⟩ := setstateBegin_mm src src' s t
  obtain ⟨hothers, htarget⟩ := setstateBegin_img src src' s t
  refine h.same ?_ (fun j p hp => htab ▸ hp) fun p => ?_
  · rw [hmm]
    split
    · exact pctxLoad_heap _ _
    · exact SameHeap.refl _
  · by_cases hp : p = t
    · rw [hp]
      exact congrArg (·.2.1) htarget
    · exact fxdata_of_attrs (hothers p hp)

theorem setstate_areas (h : Areas s L) (hs : kcallSetstate env s c = .ok s') :
    AreasStep s L s' := by
  rcases setstate_cases hs with ⟨v, -, rfl, -⟩ | ⟨t, src, s₁, -, rfl, hcopy⟩
  · exact setEax_areas h c v
  · refine AreasStep.trans ?_ fun L' h' => setEax_areas h' c 0
    rcases hcopy with ⟨-, hcopy⟩ | ⟨-, rfl⟩
    · exact (setstateBegin_areas h env.info src t).trans fun L' h' => copy_areas h' hcopy
    · exact setstateBegin_areas h env.info src t

theorem reap_areas {info : TInfo} (hw : TableWf s) (h : Areas s L)
    (hs : kcallReap env s c = .ok (s', info)) : AreasStep s L s' := by
  obtain ⟨t, ht, ⟨-, rfl⟩ | ⟨-, rfl⟩⟩ := reap_cases hs
  · exact setEax_areas h c _
  · obtain ⟨i, -, -, hi⟩ := threadGet_eq_some ht
    exact (setEax_areas h c 0).trans fun L' h' =>
      kill_areas (hw.keep ⟨fun _ => rfl, rfl⟩ (Keeps.refl _)) h' hi

end Steps

theorem trap_tableWf {s : Kernel} (h : TableWf s) (i : Input) : TableWf (trap s i) :=
  h.keep ⟨fun _ => rfl, rfl⟩ (Keeps.refl _)

/-! ### Entries and runs -/

/-- **Every handler keeps the blocks in order.** -/
theorem handled_areas {s s' : Kernel} {i : Input} {info : TInfo} {L : Blocks} (hw : TableWf s)
    (h : Areas s L) (hs : handled s i = .ok (s', info)) : AreasStep s L s' := by
  rcases handled_kind hs with ⟨hq, hheap⟩ | ⟨r, env, rfl, hu, hmem⟩
  · have hspawn : i.act s ≠ .spawn := by
      intro hact
      obtain ⟨r, env, rfl, hu, hcall⟩ := Input.act_spawn hact
      exact hheap ⟨hu, Or.inl hcall⟩
    exact h.same (hq.mm ▸ SameHeap.refl _)
      (fun j p hp => (handled_effect hw hs).1.table_sub hspawn hp)
      fun p => fxdata_of_attrs (hq.attrs p)
  · have hwt := trap_tableWf hw (.call r env)
    have htrap : AreasStep s L (trap s (.call r env)) := h.same (SameHeap.refl _)
      (fun _ _ hp => hp) fun p => fxdata_of_attrs ((trap_quiet s _).attrs p)
    refine htrap.trans fun L' h' => ?_
    generalize Call.ofEax r.eax = call at hmem
    cases hmem with
    | spawn hs => exact spawn_areas hwt h' hs
    | reap hs => exact reap_areas hwt h' hs
    | setstate hs => exact setstate_areas h' hs
    | paging _ hm hs =>
      rw [hs]
      refine h'.same (pagingCall_heap hm) (fun _ _ hp => hp) fun p => ?_
      by_cases hp : p = s.image
      · subst hp
        simp only [Kernel.updImg, Function.update_self]
        exact congrArg (·.2.1) (pagingCall_attrs hm)
      · simp only [Kernel.updImg, Function.update_of_ne hp]

theorem schedule_areas {s s' : Kernel} {o : Option Ptr} {L : Blocks} (hw : TableWf s)
    (h : Areas s L) (hs : schedule s = .ok (o, s')) : AreasStep s L s' := by
  have hpicks := (schedule_picks hw hs).1
  have htab : s'.table = s.table := hpicks.table
  refine h.same ?_ (fun j p hp => htab ▸ hp) fun p => by rw [schedule_img hs]
  rcases schedule_cases hs with ⟨rfl, -⟩ | ⟨t, r, k, -, -, -, -, rfl⟩
  · exact SameHeap.refl _
  · exact (threadLoad_toSched { s with toSched := k } t).2

theorem next_areas {s s' : Kernel} {i : Input} {L : Blocks} (hw : TableWf s) (h : Areas s L)
    (hs : s.next i = .ok s') : AreasStep s L s' := by
  obtain ⟨⟨o, k, info⟩, hstep, hk⟩ := map_eq_ok.mp hs
  obtain rfl : k = s' := hk
  obtain ⟨s₁, h₁, h₂⟩ := step_cases hstep
  exact (handled_areas hw h h₁).trans fun L' h' => schedule_areas (handled_effect hw h₁).2 h' h₂

/-- The first thread and the block it lost. -/
theorem bootstrap_areas {m : Mem} {entry stack eflags : U32} {s : Kernel} {L : Blocks}
    (h : bootstrap m entry stack eflags = .ok s) (hL : HeapInv m L) :
    ∃ L', Areas s L' ∧ HeapSteps m L s.mm L' := by
  obtain ⟨hattrs, m₁, p, q, hp, hq, htab⟩ := bootstrap_img h
  obtain ⟨p', hp', -, hinv₁, hsteps₁⟩ := hL.allocated bucket_thread (by decide) hp
  obtain rfl := Option.some.inj hp'
  obtain ⟨a, -, -, hinv₂, hsteps₂⟩ := hinv₁.allocated bucket_area (by decide) hq
  have hnone : ∀ t, (s.img t).fxdata = none := fun t => congrArg (·.2.1) (hattrs t)
  refine ⟨_, ⟨hinv₂, fun j t ht => ?_, fun t b hb => ?_, fun t t' b hb => ?_, a,
    mem_push_self 7 a, fun t => ?_⟩, hsteps₁.trans hsteps₂⟩
  · rw [htab j t ht]
    exact mem_push_of_mem (mem_push_self 6 p)
  · rw [hnone] at hb
    cases hb
  · rw [hnone] at hb
    cases hb
  · rw [hnone]
    simp

theorem Init.areas {s : Kernel} (h : Init s) : ∃ L, Areas s L := by
  obtain ⟨m, entry, stack, eflags, hm, h⟩ := h
  obtain ⟨L, hL⟩ := hm.heapInv
  obtain ⟨L', hL', -⟩ := bootstrap_areas h hL
  exact ⟨L', hL'⟩

theorem KernelReach.areas {ok : Kernel → Input → Prop} {s : Kernel} (h : KernelReach ok s) :
    ∃ L, Areas s L := by
  refine Reachable.invariant (fun s => ∃ L, Areas s L) (fun s => Init.areas) ?_ h
  rintro s i s' hr ⟨L, hL⟩ - hs
  obtain ⟨L', hL', -⟩ := next_areas (KernelReach.tableWf hr) hL hs
  exact ⟨L', hL'⟩

end Pinion
