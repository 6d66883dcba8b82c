/-
The heap hands out fresh thread blocks.

Thread structures come from bucket 6 of the kernel heap.  A block is *owned* when
it lies in the heap below the break and not in that bucket.

* `HeapWf` — the free list of bucket 6 is duplicate-free and lies in the heap;
* `PageSteps` — the page functions write entries and take frames;
* `PageSteps.vars`, `spaceFree_vars` — so they change the frame allocator and the page
  tables only;
* `pctxNew_heap` … `pagingCall_heap` — paging contexts leave the heap alone;
* `heapAlloc_thread` — allocating a thread block gives one that was not owned;
* `heapAlloc_fx` — allocating an FPU area keeps the owned blocks;
* `heapFree_thread` — freeing a thread block gives up that block only.
-/
import Pinion.Interrupt
import Pinion.Runs

open Runs

namespace Pinion

/-! ### What leaves the heap alone -/

/-- The variables of the heap are the same. -/
structure SameHeap (m m' : Mem) : Prop where
  bucket : m'.heapBucket = m.heapBucket
  brk : m'.brk = m.brk
  analysis : m'.analysis = m.analysis

theorem SameHeap.refl (m : Mem) : SameHeap m m := ⟨rfl, rfl, rfl⟩

theorem SameHeap.trans {m₁ m₂ m₃ : Mem} (h : SameHeap m₁ m₂) (h' : SameHeap m₂ m₃) :
    SameHeap m₁ m₃ :=
  ⟨h'.bucket.trans h.bucket, h'.brk.trans h.brk, h'.analysis.trans h.analysis⟩

/-- The variables of the kernel outside the frame allocator and the page tables. -/
structure SameVars (m m' : Mem) : Prop where
  bucket : m'.heapBucket = m.heapBucket
  brk : m'.brk = m.brk
  analysis : m'.analysis = m.analysis
  cr3 : m'.cr3 = m.cr3
  kend : m'.kend = m.kend
  table : m'.pctxTable = m.pctxTable
  active : m'.activePctx = m.activePctx

theorem SameVars.refl (m : Mem) : SameVars m m := ⟨rfl, rfl, rfl, rfl, rfl, rfl, rfl⟩

theorem SameVars.trans {m₁ m₂ m₃ : Mem} (h : SameVars m₁ m₂) (h' : SameVars m₂ m₃) :
    SameVars m₁ m₃ :=
  ⟨h'.bucket.trans h.bucket, h'.brk.trans h.brk, h'.analysis.trans h.analysis,
    h'.cr3.trans h.cr3, h'.kend.trans h.kend, h'.table.trans h.table, h'.active.trans h.active⟩

theorem SameVars.heap {m m' : Mem} (h : SameVars m m') : SameHeap m m' :=
  ⟨h.bucket, h.brk, h.analysis⟩

theorem setPrev_vars (m : Mem) (p v : Option Ptr) : SameVars m (m.setPrev p v) := by
  cases p <;> exact ⟨rfl, rfl, rfl, rfl, rfl, rfl, rfl⟩

theorem write_vars {m m' : Mem} {va w : U32} (h : m.write va w = .ok m') : SameVars m m' := by
  obtain ⟨⟨f, i⟩, -, h⟩ := bind_eq_ok.mp h
  cases h
  exact ⟨rfl, rfl, rfl, rfl, rfl, rfl, rfl⟩

theorem framePull_vars (m : Mem) (fs : Ptr) : SameVars m (framePull m fs) := by
  unfold framePull
  refine SameVars.trans ?_ (setPrev_vars _ _ _)
  cases (m.frameStruct fs).prev <;> exact ⟨rfl, rfl, rfl, rfl, rfl, rfl, rfl⟩

theorem frameFree_vars {m m' : Mem} {frame : U32} (h : frameFree m frame = .ok m') :
    SameVars m m' := by
  obtain ⟨o, -, h⟩ := bind_eq_ok.mp h
  cases o with
  | none => cases h; exact SameVars.refl _
  | some fs =>
    dsimp only at h
    split at h
    · cases h
      have hprev := setPrev_vars ((framePull m fs).setFrame fs fun f =>
        { f with prev := none, next := (framePull m fs).frameList }) (framePull m fs).frameList
          (some fs)
      exact (framePull_vars m fs).trans ⟨hprev.bucket, hprev.brk, hprev.analysis, hprev.cr3,
        hprev.kend, hprev.table,
        hprev.active⟩
    · cases h
      exact ⟨rfl, rfl, rfl, rfl, rfl, rfl, rfl⟩

theorem frameNewOom_vars {m m' : Mem} {f : U32} (h : frameNewOom m = .ok (f, m')) :
    SameVars m m' := by
  unfold frameNewOom at h
  dsimp only at h
  split at h
  · cases h
  · cases h
    exact ⟨rfl, rfl, rfl, rfl, rfl, rfl, rfl⟩

theorem frameNew_vars {m m' : Mem} {f : U32} (h : frameNew m = .ok (f, m')) : SameVars m m' := by
  unfold frameNew at h
  split at h
  · exact frameNewOom_vars h
  · split at h
    · have hoom := frameNewOom_vars h
      exact ⟨hoom.bucket, hoom.brk, hoom.analysis, hoom.cr3, hoom.kend, hoom.table,
        hoom.active⟩
    · cases h
      refine @SameVars.trans m (Mem.setPrev _ _ _) _ ?_ ⟨rfl, rfl, rfl, rfl, rfl, rfl, rfl⟩
      refine SameVars.trans ?_ (setPrev_vars _ _ _)
      exact ⟨rfl, rfl, rfl, rfl, rfl, rfl, rfl⟩

/-- What the page functions do to memory: they write entries and take frames. -/
inductive PageSteps (m : Mem) : Mem → Prop
  | refl : PageSteps m m
  | write {m₁ m₂ : Mem} {va w : U32} : PageSteps m m₁ → m₁.write va w = .ok m₂ → PageSteps m m₂
  | new {m₁ m₂ : Mem} {f : U32} : PageSteps m m₁ → frameNew m₁ = .ok (f, m₂) → PageSteps m m₂

theorem PageSteps.trans {m m₁ m₂ : Mem} (h : PageSteps m m₁) (h' : PageSteps m₁ m₂) :
    PageSteps m m₂ := by
  induction h' with
  | refl => exact h
  | write _ hw ih => exact ih.write hw
  | new _ hn ih => exact ih.new hn

theorem PageSteps.vars {m m' : Mem} (h : PageSteps m m') : SameVars m m' := by
  induction h with
  | refl => exact SameVars.refl m
  | write _ hw ih => exact ih.trans (write_vars hw)
  | new _ hn ih => exact ih.trans (frameNew_vars hn)

theorem clearPage_steps {m m' : Mem} {va : U32} (h : clearPage m va = .ok m') : PageSteps m m' :=
  foldlM_invariant (P := PageSteps m) (fun _ _ _ hb hw => hb.write hw) .refl h

theorem pageTouch_steps {m m' : Mem} {page : U32} (h : pageTouch m page = .ok m') :
    PageSteps m m' := by
  obtain ⟨e, -, h⟩ := bind_eq_ok.mp h
  split at h
  · cases h
    exact .refl
  · obtain ⟨⟨f, m₁⟩, h₁, h⟩ := bind_eq_ok.mp h
    obtain ⟨m₂, h₂, h⟩ := bind_eq_ok.mp h
    exact ((PageSteps.refl.new h₁).write h₂).trans (clearPage_steps h)

theorem pageSet_steps {m m' : Mem} {page value : U32} (h : pageSet m page value = .ok m') :
    PageSteps m m' := by
  obtain ⟨e, -, h⟩ := bind_eq_ok.mp h
  dsimp only at h
  split at h
  · obtain ⟨m₁, h₁, h⟩ := bind_eq_ok.mp h
    exact (pageTouch_steps h₁).write h
  · rw [pure_bind] at h
    exact PageSteps.refl.write h

theorem memAllocLoop_steps {flags stop : U32} {n : ℕ} :
    ∀ {i : U32} {m m' : Mem}, memAllocLoop flags stop n i m = .ok m' → PageSteps m m' := by
  induction n with
  | zero => exact fun h => nomatch h
  | succ n ih =>
    intro i m m' h
    rw [memAllocLoop] at h
    split at h
    · obtain ⟨e, -, h⟩ := bind_eq_ok.mp h
      dsimp only at h
      split at h
      · obtain ⟨⟨f, m₁⟩, h₁, h⟩ := bind_eq_ok.mp h
        obtain ⟨m₂, h₂, h⟩ := bind_eq_ok.mp h
        exact ((PageSteps.refl.new h₁).trans (pageSet_steps h₂)).trans (ih h)
      · rw [pure_bind] at h
        exact ih h
    · cases h
      exact .refl

theorem memAlloc_steps {m m' : Mem} {base size flags : U32}
    (h : memAlloc m base size flags = .ok m') : PageSteps m m' :=
  memAllocLoop_steps h

theorem spaceClone_steps {m m' : Mem} {f : U32} (h : spaceClone m = .ok (f, m')) :
    PageSteps m m' := by
  obtain ⟨⟨d, m₁⟩, h₁, h⟩ := bind_eq_ok.mp h
  obtain ⟨m₂, h₂, h⟩ := bind_eq_ok.mp h
  obtain ⟨m₃, h₃, h⟩ := bind_eq_ok.mp h
  cases h
  have halloc : PageSteps m m₁ := by
    obtain ⟨⟨g, k₁⟩, g₁, h₁⟩ := bind_eq_ok.mp h₁
    obtain ⟨k₂, g₂, h₁⟩ := bind_eq_ok.mp h₁
    obtain ⟨k₃, g₃, h₁⟩ := bind_eq_ok.mp h₁
    obtain ⟨k₄, g₄, h₁⟩ := bind_eq_ok.mp h₁
    cases h₁
    exact (((PageSteps.refl.new g₁).trans (pageSet_steps g₂)).trans (clearPage_steps g₃)).write g₄
  have hcopy : PageSteps m₂ m' := by
    refine foldlM_invariant (P := PageSteps m₂) (fun b i b' hb hw => ?_) .refl h₃
    obtain ⟨e, -, hw⟩ := bind_eq_ok.mp hw
    exact hb.write hw
  exact (halloc.write h₂).trans hcopy

theorem spaceFree_vars {m m' : Mem} {space : U32} (h : spaceFree m space = .ok m') :
    SameVars m m' := by
  obtain ⟨m₁, h₁, h⟩ := bind_eq_ok.mp h
  obtain ⟨m₂, h₂, h⟩ := bind_eq_ok.mp h
  have hentry : ∀ {k k' : Mem} {a : U32}, spaceFreeEntry k a = .ok k' → SameVars k k' := by
    intro k k' a hk
    obtain ⟨e, -, hk⟩ := bind_eq_ok.mp hk
    dsimp only at hk
    split at hk
    · obtain ⟨k₁, hk₁, hk⟩ := bind_eq_ok.mp hk
      exact (frameFree_vars hk₁).trans (write_vars hk)
    · rw [pure_bind] at hk
      exact write_vars hk
  have houter : SameVars m₁ m₂ := by
    refine foldlM_invariant (P := SameVars m₁) (fun b i b' hb hw => hb.trans ?_)
      (SameVars.refl m₁) h₂
    obtain ⟨e, -, hw⟩ := bind_eq_ok.mp hw
    split at hw
    · obtain ⟨b₁, hw₁, hw⟩ := bind_eq_ok.mp hw
      obtain ⟨e', -, hw⟩ := bind_eq_ok.mp hw
      obtain ⟨b₂, hw₂, hw⟩ := bind_eq_ok.mp hw
      have hinner := foldlM_invariant (P := SameVars b)
        (fun _ _ _ hb' hj => hb'.trans (hentry hj)) (SameVars.refl b) hw₁
      exact hinner.trans ((frameFree_vars hw₂).trans (write_vars hw))
    · cases hw; exact SameVars.refl _
  exact (write_vars h₁).trans (houter.trans (frameFree_vars h))

theorem pctxNew_heap {m m' : Mem} {r : ℤ} (h : pctxNew m = .ok (r, m')) : SameHeap m m' := by
  unfold pctxNew at h
  dsimp only at h
  split at h
  · obtain ⟨⟨f, m₁⟩, h₁, h⟩ := bind_eq_ok.mp h
    refine (spaceClone_steps h₁).vars.heap.trans ?_
    rw [pure_bind] at h
    split at h
    · obtain ⟨⟨g, m₂⟩, h₂, h⟩ := bind_eq_ok.mp h
      cases h
      have hvars := (spaceClone_steps h₂).vars
      exact ⟨hvars.bucket, hvars.brk, hvars.analysis⟩
    · cases h; exact ⟨rfl, rfl, rfl⟩
  · rw [pure_bind] at h
    split at h
    · obtain ⟨⟨g, m₂⟩, h₂, h⟩ := bind_eq_ok.mp h
      cases h
      have hvars := (spaceClone_steps h₂).vars
      exact ⟨hvars.bucket, hvars.brk, hvars.analysis⟩
    · cases h; exact SameHeap.refl _

theorem pctxFree_heap {m m' : Mem} {pctx r : ℤ} (h : pctxFree m pctx = .ok (r, m')) :
    SameHeap m m' := by
  unfold pctxFree at h
  split at h
  · cases h; exact SameHeap.refl _
  · split at h
    · cases h; exact SameHeap.refl _
    · obtain ⟨m₁, h₁, h⟩ := bind_eq_ok.mp h
      cases h
      exact ⟨(spaceFree_vars h₁).bucket, (spaceFree_vars h₁).brk, (spaceFree_vars h₁).analysis⟩

theorem pctxLoad_heap (m : Mem) (pctx : ℤ) : SameHeap m (pctxLoad m pctx).2 := by
  unfold pctxLoad
  split
  · exact SameHeap.refl _
  · split
    · exact SameHeap.refl _
    · exact ⟨rfl, rfl, rfl⟩

theorem pagingCall_heap {c : Call} {m m' : Mem} {i i' : Image}
    (h : pagingCall c m i = .ok (i', m')) : SameHeap m m' := by
  cases c
  case newpctx =>
    obtain ⟨⟨r, m₁⟩, h₁, h⟩ := bind_eq_ok.mp h
    cases h; exact pctxNew_heap h₁
  case freepctx =>
    obtain ⟨⟨r, m₁⟩, h₁, h⟩ := bind_eq_ok.mp h
    cases h; exact pctxFree_heap h₁
  case setframe | setflags =>
    obtain ⟨e, -, h⟩ := bind_eq_ok.mp h
    obtain ⟨m₁, h₁, h⟩ := bind_eq_ok.mp h
    cases h; exact (pageSet_steps h₁).vars.heap
  case getframe | getflags =>
    obtain ⟨e, -, h⟩ := bind_eq_ok.mp h
    cases h; exact SameHeap.refl _
  case newframe =>
    obtain ⟨⟨r, m₁⟩, h₁, h⟩ := bind_eq_ok.mp h
    cases h; exact (frameNew_vars h₁).heap
  case freeframe =>
    obtain ⟨m₁, h₁, h⟩ := bind_eq_ok.mp h
    cases h; exact (frameFree_vars h₁).heap
  all_goals
    cases h; exact SameHeap.refl _

/-! ### Thread blocks -/

/-- The free thread blocks. -/
def Mem.freeThreads (m : Mem) : List Ptr := m.heapBucket 6

/-- The break stays in the heap, and the free thread blocks are distinct and
below it. -/
structure HeapWf (m : Mem) : Prop where
  base : KERNEL_HEAP ≤ m.brk
  top : m.brk ≤ KERNEL_HEAP_END
  nodup : m.freeThreads.Nodup
  inHeap : ∀ p ∈ m.freeThreads, KERNEL_HEAP ≤ p.toNat ∧ p.toNat < m.brk

/-- A block of the heap that is no free thread block. -/
structure Owned (m : Mem) (p : Ptr) : Prop where
  base : KERNEL_HEAP ≤ p.toNat
  below : p.toNat < m.brk
  notFree : p ∉ m.freeThreads

theorem HeapWf.same {m m' : Mem} (h : HeapWf m) (hs : SameHeap m m') : HeapWf m' := by
  have hf : m'.freeThreads = m.freeThreads := congrFun hs.bucket 6
  exact ⟨hs.brk ▸ h.base, hs.brk ▸ h.top, hf ▸ h.nodup, fun p hp => hs.brk ▸ h.inHeap p (hf ▸ hp)⟩

theorem Owned.same {m m' : Mem} {p : Ptr} (h : Owned m p) (hs : SameHeap m m') : Owned m' p := by
  have hf : m'.freeThreads = m.freeThreads := congrFun hs.bucket 6
  exact ⟨h.base, hs.brk ▸ h.below, hf ▸ h.notFree⟩

/-- `heap_valloc` maps pages and moves the break. -/
theorem heapValloc_steps {m m' : Mem} {size a : ℕ} (h : heapValloc m size = .ok (a, m')) :
    a = m.brk ∧ m.brk + size < KERNEL_HEAP_END ∧ ∃ m₁, PageSteps m m₁ ∧
      m' = { m₁ with brk := m.brk + size } := by
  unfold heapValloc at h
  split at h
  · cases h
  · rename_i hroom
    obtain ⟨⟨f, m₁⟩, h₁, h⟩ := bind_eq_ok.mp h
    obtain ⟨m₂, h₂, h⟩ := bind_eq_ok.mp h
    obtain ⟨m₃, h₃, h⟩ := bind_eq_ok.mp h
    cases h
    have hsteps := ((PageSteps.refl.new h₁).trans (pageSet_steps h₂)).trans (memAlloc_steps h₃)
    refine ⟨hsteps.vars.brk, not_le.mp hroom, m₃, hsteps, ?_⟩
    rw [hsteps.vars.brk]

theorem heapValloc_ok {m m' : Mem} {size a : ℕ} (h : heapValloc m size = .ok (a, m')) :
    a = m.brk ∧ m.brk + size < KERNEL_HEAP_END ∧ ∃ m₁, SameVars m m₁ ∧
      m' = { m₁ with brk := m.brk + size } := by
  obtain ⟨ha, hroom, m₁, hsteps, hm'⟩ := heapValloc_steps h
  exact ⟨ha, hroom, m₁, hsteps.vars, hm'⟩

theorem heapFindBucket_pow {b : ℕ} (hb : b < 16) : heapFindBucket (4 * 2 ^ b) = b := by
  have hall : ∀ b < 16, heapFindBucket (4 * 2 ^ b) = b := by decide
  exact hall b hb

/-- The address of a piece of a slab. -/
def pieceAddr (slab bucket i : ℕ) : Ptr := BitVec.ofNat 32 (slab + 4 * (i * 2 ^ bucket))

/-- The loop of `heap_new_slab` puts the pieces on the free list, the last one first;
the counter it decrements by `heap_free` it increments itself. -/
theorem slabPieces_eq (slab : ℕ) {b : ℕ} (hb : b < 16) {l : List ℕ} : ∀ (m : Mem),
    l.foldl (slabPiece slab b) m =
      { m with
        heapBucket := Function.update m.heapBucket b
          ((l.map (pieceAddr slab b)).reverse ++ m.heapBucket b) } := by
  induction l with
  | nil =>
    intro m
    simp
  | cons i l ih =>
    intro m
    have hpiece : slabPiece slab b m i =
        { m with
          heapBucket :=
            Function.update m.heapBucket b (pieceAddr slab b i :: m.heapBucket b) } := by
      simp only [slabPiece, heapFree, heapFindBucket_pow hb, show ¬17 < b by omega, if_false,
        Function.update_self, Function.update_idem, sub_add_cancel, Function.update_eq_self]
      rfl
    rw [List.foldl_cons, ih, hpiece]
    simp

theorem heapNewSlab_ok {m m' : Mem} {b : ℕ} (hb : b < 16) (h : heapNewSlab m b = .ok m') :
    m.brk + slabSize b < KERNEL_HEAP_END ∧ ∃ m₁, SameVars m m₁ ∧
      m' = { m₁ with
        brk := m.brk + slabSize b
        heapBucket := Function.update m.heapBucket b
          (((List.range (slabSize b / (4 * 2 ^ b))).map (pieceAddr m.brk b)).reverse ++
            m.heapBucket b) } := by
  obtain ⟨⟨slab, m₁⟩, h₁, h⟩ := bind_eq_ok.mp h
  cases h
  obtain ⟨rfl, hroom, m₂, hsame, rfl⟩ := heapValloc_ok h₁
  refine ⟨hroom, m₂, hsame, ?_⟩
  rw [slabPieces_eq _ hb]
  simp only [hsame.bucket]

/-- The pieces of a thread slab lie between the old and the new break. -/
theorem pieceAddr_toNat {m : Mem} (hroom : m.brk + slabSize 6 < KERNEL_HEAP_END) {i : ℕ}
    (hi : i < 16) : (pieceAddr m.brk 6 i).toNat = m.brk + 256 * i := by
  have hsize : slabSize 6 = 4096 := rfl
  have hend : KERNEL_HEAP_END < 2 ^ 32 := by decide
  rw [pieceAddr, BitVec.toNat_ofNat, Nat.mod_eq_of_lt (by omega)]
  omega

/-- A new thread slab: its blocks are free, and the owned blocks stay owned. -/
theorem heapNewSlab_threads {m m' : Mem} (hwf : HeapWf m) (hempty : m.freeThreads = [])
    (h : heapNewSlab m 6 = .ok m') :
    HeapWf m' ∧ (∀ p ∈ m'.freeThreads, ¬Owned m p) ∧ ∀ p, Owned m p → Owned m' p := by
  obtain ⟨hroom, m₁, -, rfl⟩ := heapNewSlab_ok (by decide) h
  have hsize : slabSize 6 = 4096 := rfl
  set m' : Mem := { m₁ with
    brk := m.brk + slabSize 6
    heapBucket := Function.update m.heapBucket 6
      (((List.range (slabSize 6 / (4 * 2 ^ 6))).map (pieceAddr m.brk 6)).reverse ++
        m.heapBucket 6) } with hm'
  have hbrk : m'.brk = m.brk + slabSize 6 := rfl
  have hfree : m'.freeThreads = ((List.range 16).map (pieceAddr m.brk 6)).reverse := by
    rw [Mem.freeThreads, hm']
    simp only [Function.update_self, show m.heapBucket 6 = [] from hempty, List.append_nil]
    rfl
  have hmem : ∀ p ∈ m'.freeThreads, ∃ i < 16, p.toNat = m.brk + 256 * i := by
    intro p hp
    rw [hfree, List.mem_reverse, List.mem_map] at hp
    obtain ⟨i, hi, rfl⟩ := hp
    exact ⟨i, List.mem_range.mp hi, pieceAddr_toNat hroom (List.mem_range.mp hi)⟩
  refine ⟨⟨?_, ?_, ?_, fun p hp => ?_⟩, fun p hp ho => ?_, fun p ho => ⟨ho.base, ?_, fun hp => ?_⟩⟩
  · have := hwf.base
    omega
  · omega
  · rw [hfree, List.nodup_reverse]
    refine List.Nodup.map_on (fun i hi j hj hij => ?_) List.nodup_range
    have hi' := pieceAddr_toNat hroom (List.mem_range.mp hi)
    have hj' := pieceAddr_toNat hroom (List.mem_range.mp hj)
    rw [hij] at hi'
    omega
  · obtain ⟨i, hi, hp⟩ := hmem p hp
    have := hwf.base
    omega
  · obtain ⟨i, hi, hp⟩ := hmem p hp
    have := ho.below
    omega
  · have := ho.below
    omega
  · obtain ⟨i, hi, hp⟩ := hmem p hp
    have := ho.below
    omega

/-- Taking the first free thread block. -/
theorem take_thread {m m' : Mem} {p : Ptr} {rest : List Ptr} (hwf : HeapWf m)
    (hfree : m.freeThreads = p :: rest) (hbrk : m'.brk = m.brk) (hrest : m'.freeThreads = rest) :
    HeapWf m' ∧ Owned m' p ∧ ∀ q, Owned m q → Owned m' q := by
  have hnd := hwf.nodup
  rw [hfree] at hnd
  have hsub : ∀ q ∈ m'.freeThreads, q ∈ m.freeThreads := fun q hq => by
    rw [hrest] at hq
    rw [hfree]
    exact List.mem_cons_of_mem p hq
  refine ⟨⟨hbrk ▸ hwf.base, hbrk ▸ hwf.top, hrest ▸ (List.nodup_cons.mp hnd).2, fun q hq => ?_⟩,
    ⟨?_, ?_, ?_⟩, fun q ho => ⟨ho.base, hbrk ▸ ho.below, fun hq => ho.notFree (hsub q hq)⟩⟩
  · rw [hbrk]
    exact hwf.inHeap q (hsub q hq)
  · exact (hwf.inHeap p (by rw [hfree]; simp)).1
  · rw [hbrk]
    exact (hwf.inHeap p (by rw [hfree]; simp)).2
  · rw [hrest]
    exact (List.nodup_cons.mp hnd).1

theorem slabSize_pos {b : ℕ} (hb : b < 16) : 0 < slabSize b / (4 * 2 ^ b) := by
  have hall : ∀ b < 16, 0 < slabSize b / (4 * 2 ^ b) := by decide
  exact hall b hb

/-- A slab has at least one piece. -/
theorem heapNewSlab_ne_nil {m m' : Mem} {b : ℕ} (hb : b < 16) (h : heapNewSlab m b = .ok m') :
    m'.heapBucket b ≠ [] := by
  obtain ⟨-, m₁, -, rfl⟩ := heapNewSlab_ok hb h
  have hpos := slabSize_pos hb
  intro hnil
  simp only [Function.update_self, List.append_eq_nil_iff, List.reverse_eq_nil_iff,
    List.map_eq_nil_iff, List.range_eq_nil] at hnil
  omega

/-- `heap_alloc` takes the first block of a bucket, after a new slab if the bucket
was empty. -/
theorem heapAlloc_cases {m m' : Mem} {size : ℕ} {o : Option Ptr} (hb : heapFindBucket size < 16)
    (h : heapAlloc m size = .ok (o, m')) :
    ∃ m₁ block rest, (m₁ = m ∨ m.heapBucket (heapFindBucket size) = [] ∧
        heapNewSlab m (heapFindBucket size) = .ok m₁) ∧ o = some block ∧
      m₁.heapBucket (heapFindBucket size) = block :: rest ∧
      m' = { m₁ with
        analysis := Function.update m₁.analysis (heapFindBucket size)
          (m₁.analysis (heapFindBucket size) + 1)
        heapBucket := Function.update m₁.heapBucket (heapFindBucket size) rest } := by
  set b := heapFindBucket size with hbdef
  simp only [heapAlloc, ← hbdef, show ¬16 < b by omega, if_false] at h
  split at h
  · rename_i hempty
    obtain ⟨m₁, h₁, h⟩ := bind_eq_ok.mp h
    refine ⟨m₁, ?_⟩
    cases hl : m₁.heapBucket b with
    | nil => exact absurd hl (heapNewSlab_ne_nil hb h₁)
    | cons block rest =>
      rw [hl] at h
      cases h
      exact ⟨block, rest, Or.inr ⟨hempty, h₁⟩, rfl, rfl, rfl⟩
  · rename_i hne
    rw [pure_bind] at h
    refine ⟨m, ?_⟩
    cases hl : m.heapBucket b with
    | nil => exact absurd hl hne
    | cons block rest =>
      rw [hl] at h
      cases h
      exact ⟨block, rest, Or.inl rfl, rfl, rfl, rfl⟩

/-- **A thread block that is allocated was not owned**, and no owned block is
given up. -/
theorem heapAlloc_thread {m m' : Mem} {p : Ptr} (hwf : HeapWf m)
    (h : heapAlloc m sizeofThread = .ok (some p, m')) :
    HeapWf m' ∧ ¬Owned m p ∧ Owned m' p ∧ ∀ q, Owned m q → Owned m' q := by
  have hb : heapFindBucket sizeofThread = 6 := by decide
  obtain ⟨m₁, block, rest, hslab, hblock, hfree, rfl⟩ := heapAlloc_cases (by rw [hb]; omega) h
  rw [Option.some.injEq] at hblock
  subst hblock
  rw [hb] at hslab hfree ⊢
  set m' : Mem := { m₁ with
    analysis := Function.update m₁.analysis 6 (m₁.analysis 6 + 1)
    heapBucket := Function.update m₁.heapBucket 6 rest } with hm'
  have hrest : m'.freeThreads = rest := by
    rw [Mem.freeThreads, hm']
    simp only [Function.update_self]
  have hbrk : m'.brk = m₁.brk := rfl
  have hp : p ∈ m₁.freeThreads := by
    rw [Mem.freeThreads, hfree]
    exact List.mem_cons_self
  rcases hslab with rfl | ⟨hempty, h₁⟩
  · obtain ⟨hwf', hown, hkeep⟩ := take_thread hwf hfree hbrk hrest
    exact ⟨hwf', fun ho => ho.notFree hp, hown, hkeep⟩
  · obtain ⟨hwf₁, hnew, hkeep₁⟩ := heapNewSlab_threads hwf hempty h₁
    obtain ⟨hwf', hown, hkeep⟩ := take_thread hwf₁ hfree hbrk hrest
    exact ⟨hwf', hnew p hp, hown, fun q ho => hkeep q (hkeep₁ q ho)⟩

/-- Allocating a block of another size touches no thread block. -/
theorem heapAlloc_other {m m' : Mem} {size : ℕ} {o : Option Ptr} (hwf : HeapWf m)
    (hb : heapFindBucket size < 16) (hne : heapFindBucket size ≠ 6)
    (h : heapAlloc m size = .ok (o, m')) : HeapWf m' ∧ ∀ q, Owned m q → Owned m' q := by
  obtain ⟨m₁, block, rest, hslab, -, -, hm'⟩ := heapAlloc_cases hb h
  have hbrk : m'.brk = m₁.brk := by rw [hm']
  have hfree : m'.freeThreads = m₁.freeThreads := by
    rw [Mem.freeThreads, hm', Mem.freeThreads]
    simp only [Function.update_of_ne hne.symm]
  have hgrow : m₁.freeThreads = m.freeThreads ∧ m.brk ≤ m₁.brk ∧ m₁.brk ≤ KERNEL_HEAP_END := by
    rcases hslab with rfl | ⟨-, h₁⟩
    · exact ⟨rfl, le_rfl, hwf.top⟩
    · obtain ⟨hroom, m₂, -, rfl⟩ := heapNewSlab_ok hb h₁
      refine ⟨?_, Nat.le_add_right _ _, hroom.le⟩
      rw [Mem.freeThreads, Mem.freeThreads]
      simp only [Function.update_of_ne hne.symm]
  obtain ⟨hfree₁, hle, htop⟩ := hgrow
  rw [hfree₁] at hfree
  rw [← hbrk] at hle htop
  refine ⟨⟨hwf.base.trans hle, htop, hfree ▸ hwf.nodup, fun p hp => ?_⟩,
    fun q ho => ⟨ho.base, ho.below.trans_le hle, hfree ▸ ho.notFree⟩⟩
  have := hwf.inHeap p (hfree ▸ hp)
  omega

theorem heapAlloc_fx {m m' : Mem} {o : Option Ptr} (hwf : HeapWf m)
    (h : heapAlloc m 512 = .ok (o, m')) : HeapWf m' ∧ ∀ q, Owned m q → Owned m' q :=
  heapAlloc_other hwf (by decide) (by decide) h

/-- Freeing an owned thread block gives up that block only. -/
theorem heapFree_thread {m : Mem} {p : Ptr} (hwf : HeapWf m) (ho : Owned m p) :
    HeapWf (heapFree m p sizeofThread) ∧
      ∀ q, Owned m q → q ≠ p → Owned (heapFree m p sizeofThread) q := by
  have hb : heapFindBucket sizeofThread = 6 := by decide
  have hfree : (heapFree m p sizeofThread).freeThreads = p :: m.freeThreads := by
    simp [heapFree, hb, Mem.freeThreads]
  have hbrk : (heapFree m p sizeofThread).brk = m.brk := by simp [heapFree, hb]
  refine ⟨⟨hbrk ▸ hwf.base, hbrk ▸ hwf.top, ?_, fun q hq => ?_⟩,
    fun q hq hqp => ⟨hq.base, hbrk ▸ hq.below, ?_⟩⟩
  · rw [hfree]
    exact List.nodup_cons.mpr ⟨ho.notFree, hwf.nodup⟩
  · rw [hfree, List.mem_cons] at hq
    rw [hbrk]
    rcases hq with rfl | hq
    · exact ⟨ho.base, ho.below⟩
    · exact hwf.inHeap q hq
  · rw [hfree, List.mem_cons]
    exact fun hq' => hq'.elim hqp hq.notFree

/-- Freeing an FPU area touches no thread block. -/
theorem heapFree_fx (m : Mem) (p : Ptr) :
    (heapFree m p 512).freeThreads = m.freeThreads ∧ (heapFree m p 512).brk = m.brk := by
  have hb : heapFindBucket 512 = 7 := by decide
  simp [heapFree, hb, Mem.freeThreads]

/-! ### Memory at boot -/

/-- The memories `init` can hand to the first thread: the heap starts empty,
`frame_add` takes the frames of the memory map, and `elf_load_file` maps the
system image. -/
inductive BootMem : Mem → Prop
  | empty {m : Mem} : m.brk = KERNEL_HEAP → (∀ b, m.heapBucket b = []) → BootMem m
  | frame {m m' : Mem} {f : U32} : BootMem m → frameAdd m f = .ok m' → BootMem m'
  | load {m m' : Mem} {base size flags : U32} : BootMem m →
      memAlloc m base size flags = .ok m' → BootMem m'

theorem BootMem.heapWf {m : Mem} (h : BootMem m) : HeapWf m := by
  induction h with
  | empty hbrk hnil =>
    have hfree : ∀ p : Ptr, p ∉ Mem.freeThreads _ := fun p => by
      rw [Mem.freeThreads, hnil]
      exact List.not_mem_nil
    exact ⟨hbrk.ge, hbrk ▸ (by decide), by rw [Mem.freeThreads, hnil]; exact List.nodup_nil,
      fun p hp => absurd hp (hfree p)⟩
  | frame _ hadd ih =>
    obtain ⟨⟨o, m₁⟩, h₁, hadd⟩ := bind_eq_ok.mp hadd
    have hwf := (heapAlloc_other ih (by decide) (by decide) h₁).1
    cases o with
    | none => cases hadd
    | some fs =>
      cases hadd
      exact hwf.same ⟨(setPrev_vars _ _ _).bucket, (setPrev_vars _ _ _).brk,
        (setPrev_vars _ _ _).analysis⟩
  | load _ hmap ih => exact ih.same (memAlloc_steps hmap).vars.heap

end Pinion
