/-
The heap leaks.

`thread_alloc` allocates an FPU area and clears the structure that points to it, so
every `SPAWN` loses a block of 512 bytes; one that finds the table full loses the
thread structure as well.

* `HeapRun m L` — `L` are the blocks in use after some history of heap calls from a
  cold start;
* `NoLeak` — the blocks in use are the frame structures, the threads and their FPU
  areas;
* `Areas.not_noLeak` — the invariant of the blocks excludes it;
* `heap_leaks` — every reachable state has lost a block, and so has every `SPAWN`.
-/
import Pinion.Areas
import Pinion.Boot

open Runs

namespace Pinion

/-- `L` are the blocks in use after a history of heap calls that leads to `m`. -/
def HeapRun (m : Mem) (L : Blocks) : Prop :=
  ∃ m₀, m₀.brk = KERNEL_HEAP ∧ (∀ b, m₀.heapBucket b = []) ∧ (∀ b, m₀.analysis b = 0) ∧
    HeapSteps m₀ (fun _ => []) m L

theorem HeapRun.inv {m : Mem} {L : Blocks} (h : HeapRun m L) : HeapInv m L ∧ Counted m L := by
  obtain ⟨m₀, hbrk, hnil, hzero, hsteps⟩ := h
  exact hsteps.inv (HeapInv.start hbrk hnil) fun b _ => hzero b

theorem HeapRun.steps {m m' : Mem} {L L' : Blocks} (h : HeapRun m L) (hs : HeapSteps m L m' L') :
    HeapRun m' L' := by
  obtain ⟨m₀, hbrk, hnil, hzero, hsteps⟩ := h
  exact ⟨m₀, hbrk, hnil, hzero, hsteps.trans hs⟩

/-- Two histories of one memory agree on the number of blocks in use. -/
theorem HeapRun.length_eq {m : Mem} {L : Blocks} (h : HeapRun m L) {b : ℕ} (hb : b < 16) :
    ((L b).length : ℤ) = m.analysis b :=
  (h.inv.2 b hb).symm

theorem ColdBoot.heapRun {m : Mem} (h : ColdBoot m) : ∃ L, HeapRun m L := by
  induction h with
  | start hm => exact ⟨_, _, hm.brk, hm.bucket, hm.analysis, .refl⟩
  | frame _ hadd ih =>
    obtain ⟨L, hL⟩ := ih
    obtain ⟨fs, m₁, halloc, hsame⟩ := frameAdd_ok hadd
    exact ⟨_, hL.steps ((HeapSteps.refl.alloc halloc).same hsame)⟩
  | load _ hload ih =>
    obtain ⟨L, hL⟩ := ih
    exact ⟨L, hL.steps (HeapSteps.refl.same (memAlloc_steps hload).vars.heap)⟩

/-- Every reachable state has a history, along which the blocks are in order. -/
theorem ColdReach.areas {ok : Kernel → Input → Prop} {s : Kernel} (h : ColdReach ok s) :
    ∃ L, HeapRun s.mm L ∧ Areas s L := by
  refine Reachable.invariant (fun s => ∃ L, HeapRun s.mm L ∧ Areas s L) ?_ ?_ h
  · rintro s ⟨m, entry, stack, eflags, hm, hs⟩
    obtain ⟨L, hL⟩ := hm.heapRun
    obtain ⟨L', hA, hsteps⟩ := bootstrap_areas hs hL.inv.1
    exact ⟨L', hL.steps hsteps, hA⟩
  · rintro s i s' hr ⟨L, hL, hA⟩ - hs
    obtain ⟨L', hA', hsteps⟩ := next_areas (ColdReach.kernelReach hr).tableWf hA hs
    exact ⟨L', hL.steps hsteps, hA'⟩

/-! ### What the blocks should be -/

/-- The frame structures: those on the free list and in the hash table. -/
inductive FrameNode (m : Mem) : Ptr → Prop
  | list {p : Ptr} : m.frameList = some p → FrameNode m p
  | hash {h : ℕ} {p : Ptr} : m.frameHash h = some p → FrameNode m p
  | next {p q : Ptr} : FrameNode m p → (m.frameStruct p).next = some q → FrameNode m q

/-- The blocks in use are the frame structures, the threads of the table and their FPU
areas, which are distinct. -/
structure NoLeak (s : Kernel) (L : Blocks) : Prop where
  blocks : ∀ b p, p ∈ L b ↔ b = 2 ∧ FrameNode s.mm p ∨ b = 6 ∧ (∃ j, s.table j = some p) ∨
    b = 7 ∧ ∃ j t, s.table j = some t ∧ (s.img t).fxdata = some p
  apart : ∀ t t' a, (∃ j, s.table j = some t) → (∃ j, s.table j = some t') →
    (s.img t).fxdata = some a → (s.img t').fxdata = some a → t = t'

/-- The block that belongs to no thread makes the difference. -/
theorem Areas.not_noLeak {s : Kernel} {L L' : Blocks} (hA : Areas s L) (hL : HeapRun s.mm L)
    (hL' : HeapRun s.mm L') : ¬NoLeak s L' := by
  intro hno
  obtain ⟨q, hq, hleak⟩ := hA.leaked
  have hsub : L' 7 ⊆ (L 7).erase q := by
    intro p hp
    obtain ⟨hb, -⟩ | ⟨hb, -⟩ | ⟨-, j, t, -, ht⟩ := (hno.blocks 7 p).mp hp
    · cases hb
    · cases hb
    · have hne : p ≠ q := by
        rintro rfl
        exact hleak t ht
      exact (List.mem_erase_of_ne hne).mpr (hA.area t p ht)
  have hnodup : (L' 7).Nodup := (List.nodup_append.mp (hL'.inv.1.nodup 7)).2.1
  have hle := (hnodup.subperm hsub).length_le
  rw [List.length_erase_of_mem hq] at hle
  -- both histories count the same number of blocks
  have h₁ := hL.length_eq (b := 7) (by decide)
  have h₂ := hL'.length_eq (b := 7) (by decide)
  have hpos := List.length_pos_of_mem hq
  omega

/-! ### Counting -/

theorem heapAlloc_analysis {m m' : Mem} {size b : ℕ} {o : Option Ptr} {L : Blocks}
    (h : HeapInv m L) (hsize : heapFindBucket size = b) (hb : b < 16)
    (ha : heapAlloc m size = .ok (o, m')) :
    m'.analysis = Function.update m.analysis b (m.analysis b + 1) := by
  subst hsize
  rcases h.alloc ha with ⟨hlarge, -⟩ | ⟨-, -, -, -, -, hcount⟩
  · exact absurd hb hlarge
  · exact hcount

theorem schedule_heap {s s' : Kernel} {o : Option Ptr} (h : schedule s = .ok (o, s')) :
    SameHeap s.mm s'.mm := by
  rcases schedule_cases h with ⟨rfl, -⟩ | ⟨t, r, k, -, -, -, -, rfl⟩
  · exact SameHeap.refl _
  · exact (threadLoad_toSched { s with toSched := k } t).2

/-- **`SPAWN`** brings two blocks into use, whether it enters a thread or not. -/
theorem next_spawn {s s' : Kernel} {i : Input} {L : Blocks} (hw : TableWf s) (hA : Areas s L)
    (hact : i.act s = .spawn) (h : s.next i = .ok s') :
    s'.mm.analysis 6 = s.mm.analysis 6 + 1 ∧ s'.mm.analysis 7 = s.mm.analysis 7 + 1 ∧
      ∀ j p, s'.table j = some p → s.table j = some p ∨ (s'.img p).fxdata = none := by
  obtain ⟨⟨o, k, info⟩, hstep, hk⟩ := map_eq_ok.mp h
  obtain rfl : k = s' := hk
  obtain ⟨s₁, h₁, h₂⟩ := step_cases hstep
  have hsame := schedule_heap h₂
  obtain ⟨r, env, rfl, hu, hcall⟩ := Input.act_spawn hact
  have hheap : Input.Heap s (.call r env) := ⟨hu, Or.inl hcall⟩
  obtain ⟨r', env', heq, -, hmem⟩ := (handled_kind h₁).resolve_left fun hq => hq.2 hheap
  cases heq
  rw [hcall] at hmem
  have htab : k.table = s₁.table := (schedule_picks (handled_effect hw h₁).2 h₂).1.table
  cases hmem with
  | spawn hs =>
    obtain ⟨p, m, q, -, hp, hq, -, -, hzero, -, -, hnew⟩ := spawn_img (trap_tableWf hw _) hs
    obtain ⟨p', -, -, hinv, -⟩ := hA.heap.allocated bucket_thread (by decide) hp
    have h6 := heapAlloc_analysis hA.heap bucket_thread (by decide) hp
    have h7 := heapAlloc_analysis hinv bucket_area (by decide) hq
    refine ⟨?_, ?_, fun j a hj => ?_⟩
    · rw [hsame.analysis, h7, h6]
      rfl
    · rw [hsame.analysis, h7, h6]
      rfl
    · rw [htab] at hj
      rcases hnew j a hj with rfl | hold
      · right
        rw [schedule_img h₂]
        exact congrArg (·.2.1) hzero
      · exact Or.inl hold
  | paging hnot => exact absurd (Or.inl rfl) hnot

/-- `REAP` of a thread without an area gives one block back. -/
theorem next_reap {s s' : Kernel} {i : Input} {t : Ptr} (hact : i.act s = .reap t)
    (hfx : (s.img t).fxdata = none) (h : s.next i = .ok s') :
    s'.mm.analysis 6 = s.mm.analysis 6 - 1 ∧ s'.mm.analysis 7 = s.mm.analysis 7 := by
  obtain ⟨⟨o, k, info⟩, hstep, hk⟩ := map_eq_ok.mp h
  obtain rfl : k = s' := hk
  obtain ⟨s₁, h₁, h₂⟩ := step_cases hstep
  rw [(schedule_heap h₂).analysis]
  obtain ⟨r, env, rfl, hu, hcall, hget, hst⟩ := Input.act_reap hact
  have hheap : Input.Heap s (.call r env) := ⟨hu, Or.inr (Or.inl hcall)⟩
  obtain ⟨r', env', heq, -, hmem⟩ := (handled_kind h₁).resolve_left fun hq => hq.2 hheap
  cases heq
  rw [hcall] at hmem
  cases hmem with
  | reap hs =>
    obtain ⟨u, hu', hcases⟩ := reap_cases hs
    rw [trap_img] at hu'
    obtain rfl := Option.some.inj (hget.symm.trans hu')
    rcases hcases with ⟨hnot, -⟩ | ⟨-, rfl⟩
    · exact absurd hst hnot
    · have hfx' : (((trap s (.call r env)).setEax s.image 0).img t).fxdata = none := by
        rw [setEax_fxdata, fxdata_of_attrs ((trap_quiet s _).attrs t), hfx]
      simp only [threadKill, hfx', heapFree, bucket_thread]
      exact ⟨rfl, rfl⟩
  | paging hnot => exact absurd (Or.inr (Or.inl rfl)) hnot

/-! ### Entries that do not reach the heap -/

inductive QuietRun (s : Kernel) : Kernel → Prop
  | refl : QuietRun s s
  | next {s₁ s₂ : Kernel} {i : Input} : QuietRun s s₁ → ¬i.Heap s₁ → s₁.next i = .ok s₂ →
      QuietRun s s₂

theorem next_quiet {s s' : Kernel} {i : Input} (hheap : ¬i.Heap s) (h : s.next i = .ok s') :
    s'.mm.analysis = s.mm.analysis ∧ ∀ p, (s'.img p).fxdata = (s.img p).fxdata := by
  obtain ⟨⟨o, k, info⟩, hstep, hk⟩ := map_eq_ok.mp h
  obtain rfl : k = s' := hk
  obtain ⟨s₁, h₁, h₂⟩ := step_cases hstep
  rw [(schedule_heap h₂).analysis, schedule_img h₂]
  rcases handled_kind h₁ with ⟨hq, -⟩ | ⟨r, env, rfl, hu, hmem⟩
  · exact ⟨congrArg Mem.analysis hq.mm, fun p => fxdata_of_attrs (hq.attrs p)⟩
  · generalize hc : Call.ofEax r.eax = call at hmem
    cases hmem with
    | spawn => exact absurd ⟨hu, Or.inl hc⟩ hheap
    | reap => exact absurd ⟨hu, Or.inr (Or.inl hc)⟩ hheap
    | setstate => exact absurd ⟨hu, Or.inr (Or.inr hc)⟩ hheap
    | paging _ hm hs =>
      rw [hs]
      refine ⟨(pagingCall_heap hm).analysis, fun p => ?_⟩
      rw [← fxdata_of_attrs ((trap_quiet s (.call r env)).attrs p)]
      by_cases hp : p = s.image
      · subst hp
        simp only [Kernel.updImg, Function.update_self]
        exact congrArg (·.2.1) (pagingCall_attrs hm)
      · simp only [Kernel.updImg, Function.update_of_ne hp]

theorem QuietRun.same {s s' : Kernel} (h : QuietRun s s') :
    s'.mm.analysis = s.mm.analysis ∧ ∀ p, (s'.img p).fxdata = (s.img p).fxdata := by
  induction h with
  | refl => exact ⟨rfl, fun _ => rfl⟩
  | next _ hheap hs ih =>
    obtain ⟨hm, hfx⟩ := next_quiet hheap hs
    exact ⟨hm.trans ih.1, fun p => (hfx p).trans (ih.2 p)⟩

/-! ### The leak -/

/-- A `SPAWN` that finds the table full returns with two more blocks in use. -/
def FullSpawnLeaks (s : Kernel) (L : Blocks) : Prop :=
  ∀ i s' L', i.act s = .spawn → (∀ j < THREAD_COUNT, s.table j ≠ none) → s.next i = .ok s' →
    HeapRun s'.mm L' → (L' 6).length = (L 6).length + 1 ∧ (L' 7).length = (L 7).length + 1

/-- After a `SPAWN` and the `REAP` of the new thread one more block is in use. -/
def SpawnReapLeaks (s : Kernel) (L : Blocks) : Prop :=
  ∀ i s₁ s₂ j t r s₃ L₃, i.act s = .spawn → s.next i = .ok s₁ → s.table j = none →
    s₁.table j = some t → QuietRun s₁ s₂ → r.act s₂ = .reap t → s₂.next r = .ok s₃ →
    HeapRun s₃.mm L₃ → (L₃ 6).length = (L 6).length ∧ (L₃ 7).length = (L 7).length + 1

/-- **The heap leaks**: every reachable state has a history of heap calls, and for every
such history the blocks in use are not those of the frames and the threads; a `SPAWN`
that finds the table full leaves two blocks behind, and a `SPAWN` with the `REAP` of the
new thread one. -/
theorem heap_leaks {ok : Kernel → Input → Prop} {s : Kernel} (h : ColdReach ok s) :
    (∃ L, HeapRun s.mm L) ∧
    ∀ L, HeapRun s.mm L → ¬NoLeak s L ∧ FullSpawnLeaks s L ∧ SpawnReapLeaks s L := by
  have hw := h.kernelReach.tableWf
  obtain ⟨L₀, hL₀, hA⟩ := h.areas
  refine ⟨⟨L₀, hL₀⟩, fun L hL => ⟨hA.not_noLeak hL₀ hL, ?_, ?_⟩⟩
  · intro i s' L' hact _ hs hL'
    obtain ⟨h6, h7, -⟩ := next_spawn hw hA hact hs
    rw [← hL'.length_eq (by decide), ← hL.length_eq (by decide)] at h6 h7
    omega
  · intro i s₁ s₂ j t r s₃ L₃ hact hs hnone hsome hquiet hreap hs₃ hL₃
    obtain ⟨h6, h7, hnew⟩ := next_spawn hw hA hact hs
    have hfx : (s₁.img t).fxdata = none := by
      rcases hnew j t hsome with hold | hfx
      · rw [hnone] at hold
        cases hold
      · exact hfx
    obtain ⟨hq, hfxq⟩ := hquiet.same
    obtain ⟨h6', h7'⟩ := next_reap hreap ((hfxq t).trans hfx) hs₃
    rw [hq] at h6' h7'
    rw [← hL₃.length_eq (by decide)] at h6' h7'
    rw [← hL.length_eq (by decide)] at h6 h7
    omega

/-- Thread 0 spawns thread 1. -/
theorem heap_leaks_spawned : ∃ s L, ColdReach (fun _ _ => True) s ∧ s.table 1 ≠ none ∧
    HeapRun s.mm L ∧ ¬NoLeak s L := by
  have hrun : (bootRun (fun _ _ => True) [callOf 0x02 0]).any
      (fun s => decide (s.table 1 ≠ none)) = true := by
    decide +kernel
  simp only [Option.any_eq_true, decide_eq_true_eq] at hrun
  obtain ⟨s, hs, htable⟩ := hrun
  obtain ⟨⟨L, hL⟩, hleak⟩ := heap_leaks (bootRun_cold hs)
  exact ⟨s, L, bootRun_cold hs, htable, hL, (hleak L hL).1⟩

/-- Thread 0 spawns, pauses and reaps thread 1: no thread has an FPU area, and two
blocks of that size are in use. -/
theorem heap_leaks_reaped : ∃ s L, ColdReach (fun _ _ => True) s ∧
    (∀ j t, s.table j = some t → (s.img t).fxdata = none) ∧ HeapRun s.mm L ∧
    (L 7).length = 2 ∧ ¬NoLeak s L := by
  have hrun : (bootRun (fun _ _ => True) [callOf 0x02 0, callOf 0x05 1, callOf 0x0B 1]).any
      (fun s => (List.range THREAD_COUNT).all (fun j =>
          (s.table j).all fun t => decide ((s.img t).fxdata = none)) &&
        decide (s.mm.analysis 7 = 2)) = true := by
    decide +kernel
  simp only [Option.any_eq_true, Bool.and_eq_true, decide_eq_true_eq, List.all_eq_true,
    List.mem_range] at hrun
  obtain ⟨s, hs, hnone, hcount⟩ := hrun
  have hcold := bootRun_cold hs
  obtain ⟨L, hL, hA⟩ := hcold.areas
  refine ⟨s, L, hcold, fun j t ht => ?_, hL, ?_, hA.not_noLeak hL hL⟩
  · have hj := hnone j (hcold.kernelReach.tableWf.bound j t ht)
    rw [ht, Option.all_some, decide_eq_true_eq] at hj
    exact hj
  · have hlen := hL.length_eq (b := 7) (by decide)
    rw [hcount] at hlen
    exact_mod_cast hlen

end Pinion
