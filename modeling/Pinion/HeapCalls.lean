/-
Runs of the kernel heap with its free lists in memory.

A call of `heap_alloc` that cuts a slab takes frames, and `frame_new` then writes to frame
structures, which are blocks of the heap themselves.  No other block is touched.

* `Threaded.free` — `heap_free` refines that of the list heap, as `Threaded.alloc` does;
* `HeapPages.valloc_total` — `heap_valloc` stops only where there is no memory left;
* `HeapTrace`, `HeapOp`, `HeapCalls` — calls of the heap, `frame_add`, and stores of the owners of
  blocks;
* `heap_refines` — every run is one of the list heap;
* `heap_blocks` — the blocks, the counters, and what each call returns and leaves alone.
-/
import Pinion.LinkedHeap
import Pinion.SharedHeap
import Pinion.Buckets

open Runs

namespace Pinion

variable {m m' m₁ : Mem} {D₀ : BitVec 20} {ρ ρ' : BitVec 20 → Role} {h h' : LinkedHeap}
  {fl L : Blocks} {S : Set ℕ} {p q : Ptr} {size b c : ℕ}

/-! ### `heap_free` and stores -/

/-- **`heap_free`** of a block in use does what the list heap does. -/
theorem Threaded.free (ht : Threaded h D₀ ρ fl) (hinv : HeapInv (h.mem.withLists fl) L)
    (hb : heapFindBucket size < 16) (hp : p ∈ L (heapFindBucket size)) :
    ∃ h', h.heapFree p size = .ok h' ∧
      Threaded h' D₀ ρ (heapFree (h.mem.withLists fl) p size).heapBucket ∧
      HeapStore (heapFree (h.mem.withLists fl) p size)
        (h'.mem.withLists (heapFree (h.mem.withLists fl) p size).heapBucket) D₀ ρ Set.univ ∧
      SameFrames h.mem h'.mem ∧
      ∀ va, h.mem.InHeap va → va.toNat ∉ blockAt (heapFindBucket size) p →
        h'.mem.read va = h.mem.read va := by
  set b := heapFindBucket size with hbdef
  have hmem : p ∈ (h.mem.withLists fl).heapBucket b ++ L b := List.mem_append_right _ hp
  obtain ⟨hp₄, hb₄, -⟩ := hinv.words hmem
  obtain ⟨hlo, hhi⟩ := hinv.packed.inside (b, p.toNat) ⟨p, hmem, rfl⟩
  have hend : p.toNat + blockSize b ≤ h.mem.brk := hhi
  have hin : h.mem.InHeap p := ⟨hlo, by omega⟩
  have hapart : ∀ c, ∀ q ∈ fl c, q.toNat / 4 ≠ p.toNat / 4 := by
    intro c q hq
    have hq' : q ∈ (h.mem.withLists fl).heapBucket c ++ L c := List.mem_append_left _ hq
    have hne : ¬(c = b ∧ q = p) := by
      rintro ⟨rfl, rfl⟩
      exact (List.nodup_append.mp (hinv.nodup b)).2.2 q hq q hp rfl
    obtain ⟨hq₄, hc₄, -⟩ := hinv.words hq'
    have hout := hinv.outside hmem hq' hne le_rfl (by omega)
    have hout' := hinv.outside hq' hmem (fun he => hne ⟨he.1.symm, he.2.symm⟩) le_rfl (by omega)
    omega
  obtain ⟨h', hfree, ht', hstore⟩ := ht.push hbdef.symm hb hin hapart
  have hlist : heapFree (h.mem.withLists fl) p size =
      (h.mem.uncount b).withLists (fl.push b p) := by
    simp only [heapFree, ← hbdef, show ¬17 < b by omega, if_false]
    rfl
  rw [hlist]
  have hframes : SameFrames h.mem (h.mem.uncount b) := ⟨rfl, rfl, rfl, rfl, rfl, rfl⟩
  refine ⟨h', hfree, ht', (hstore.withLists _).mono fun _ _ => Set.mem_univ _,
    hframes.trans hstore.frames, fun va hva hout => ?_⟩
  refine hstore.read va hva fun hword => hout ?_
  rw [Set.mem_ofPred_eq] at hword
  unfold blockAt
  rw [Set.mem_ofPred_eq]
  omega

/-- A store to a block in use leaves the lists. -/
theorem Threaded.store (ht : Threaded h D₀ ρ fl) (hinv : HeapInv (h.mem.withLists fl) L)
    (hp : p ∈ L b) (hs : HeapStore h.mem m' D₀ ρ (blockAt b p)) :
    Threaded { h with mem := m' } D₀ ρ fl := by
  refine ⟨hs.dirs, hs.pages, fun c => (ht.lists c).congr fun q hq => ?_,
    fun c q hq => hs.inHeap (ht.inHeap c q hq)⟩
  have hmem : p ∈ (h.mem.withLists fl).heapBucket b ++ L b := List.mem_append_right _ hp
  have hq' : q ∈ (h.mem.withLists fl).heapBucket c ++ L c := List.mem_append_left _ hq
  have hne : ¬(c = b ∧ q = p) := by
    rintro ⟨rfl, rfl⟩
    exact (List.nodup_append.mp (hinv.nodup c)).2.2 q hq q hp rfl
  have hc₄ := (hinv.words hq').2.1
  exact hs.read q (ht.inHeap c q hq) (hinv.outside hmem hq' hne le_rfl (by omega))

/-- The store of a byte of a block. -/
theorem HeapInv.writeByte (hinv : HeapInv (m.withLists fl) L) (hd : Dirs m D₀ ρ)
    (hpages : HeapPages m D₀ ρ) (hp : p ∈ L b) {va : U32} (hva : va.toNat ∈ blockAt b p) (v : U8) :
    ∃ m', m.writeByte va v = .ok m' ∧ HeapStore m m' D₀ ρ (blockAt b p) := by
  have hmem : p ∈ (m.withLists fl).heapBucket b ++ L b := List.mem_append_right _ hp
  obtain ⟨hp₄, hb₄, hdvd⟩ := hinv.words hmem
  obtain ⟨hlo, hhi⟩ := hinv.packed.inside (b, p.toNat) ⟨p, hmem, rfl⟩
  obtain ⟨hva₁, hva₂⟩ := hva
  have hin : m.InHeap va := ⟨hlo.trans hva₁, lt_of_lt_of_le hva₂ hhi⟩
  obtain ⟨m', hwrite, hstore, -⟩ := hpages.writeByte hd hin v
  refine ⟨m', hwrite, hstore.mono fun a ha => ?_⟩
  rw [Set.mem_ofPred_eq] at ha
  unfold blockAt
  rw [Set.mem_ofPred_eq]
  omega

/-! ### No page faults -/

/-- The only ways a call of the heap stops. -/
def OutOfMemory (e : Stop) : Prop :=
  e = .panic "out of memory" ∨ e = .panic "out of virtual memory"

theorem frameNew_total (m : Mem) : (∃ f m', frameNew m = .ok (f, m')) ∨
    frameNew m = .error (.panic "out of memory") := by
  have hoom : ∀ m : Mem, (∃ f m', frameNewOom m = .ok (f, m')) ∨
      frameNewOom m = .error (.panic "out of memory") := by
    intro m
    unfold frameNewOom
    dsimp only
    split
    · exact Or.inr rfl
    · exact Or.inl ⟨_, _, rfl⟩
  cases hc : m.outOfMemory with
  | true =>
    rw [frameNew_oom (Or.inl hc)]
    exact hoom _
  | false =>
    cases hl : m.frameList with
    | none =>
      rw [frameNew_oom (Or.inr hl)]
      exact hoom _
    | some fs => exact Or.inl ⟨_, _, frameNew_list hc hl⟩

/-- The table of a heap page is there, so that `page_set` makes none. -/
theorem HeapUpto.set_total {N : ℕ} (hu : HeapUpto m D₀ ρ N) (h : Dirs m D₀ ρ) (hN : N < 0xF8000)
    {f v : U32} (hnew : frameNew m = .ok (f, m₁)) : ∃ m', pageSet m₁ (pageAddr N) v = .ok m' := by
  have hbase := hu.base
  obtain ⟨hpd, -⟩ := pageAddr_indices (show N < 2 ^ 20 by omega)
  obtain ⟨he, he'⟩ := heapPage_dir hbase hN
  obtain ⟨c, hc, hd⟩ := h.cur
  have hvars := frameNew_vars hnew
  have hpres : Pres (m₁.phys m₁.dir (pdx (pageAddr N))) := by
    rw [frameNew_phys hnew, show m₁.dir = m.dir from congrArg frameNo hvars.cr3, hpd, hd,
      h.kern c hc _ he he']
    exact hu.tabs _ he he'
  exact ⟨_, (h.selfMapped.same (frameNew_phys hnew) hvars.cr3).set_present hpres v⟩

theorem HeapUpto.allocLoop_total {M : ℕ} (hM : M ≤ 0xF8000) : ∀ {fuel k N : ℕ} {m : Mem}
    {ρ : BitVec 20 → Role}, HeapUpto m D₀ ρ N → Dirs m D₀ ρ → 0xF1000 ≤ k → k ≤ N → N ≤ M →
      M - k < fuel →
      (∃ m', memAllocLoop (PF_PRES ||| PF_RW) (pageAddr M) fuel (pageAddr k) m = .ok m') ∨
        memAllocLoop (PF_PRES ||| PF_RW) (pageAddr M) fuel (pageAddr k) m =
          .error (.panic "out of memory") := by
  intro fuel
  induction fuel with
  | zero =>
    intro k N m ρ _ _ _ _ _ hfuel
    omega
  | succ fuel ih =>
    intro k N m ρ hu h hk hkN hNM hfuel
    have hlt : pageAddr k < pageAddr M ↔ k < M := by
      rw [BitVec.lt_def, pageAddr_toNat (by omega), pageAddr_toNat (by omega)]
      omega
    rw [memAllocLoop]
    by_cases hkM : k < M
    · rw [if_pos (hlt.mpr hkM), pageAddr_succ (by omega), hu.get h hk (by omega)]
      by_cases hkN' : k < N
      · have hp := ((hu.below k hk hkN').1).pres
        have hrest := ih hu h (by omega) (by omega) hNM (show M - (k + 1) < fuel by omega)
        dsimp only [bind, Except.bind]
        rw [if_neg (show ¬m.hword D₀ k &&& PF_PRES = 0 from hp)]
        exact hrest
      · have hkN : k = N := by omega
        subst hkN
        have habsent := not_pres.mp (hu.above k le_rfl (by omega))
        dsimp only [bind, Except.bind]
        rw [if_pos habsent]
        rcases frameNew_total m with ⟨f, m₁, hnew⟩ | hstop
        · obtain ⟨hrw, hf⟩ := heapEntry f
          obtain ⟨m₂, hset⟩ := hu.set_total h (by omega) hnew
          obtain ⟨ρ₁, h₁, hu₁, -⟩ := hu.map h (by omega) hnew hrw hf hset
          rw [hnew]
          dsimp only
          rw [hset]
          exact ih hu₁ h₁ (by omega) le_rfl (by omega) (by omega)
        · rw [hstop]
          exact Or.inr rfl
    · rw [if_neg fun hl => hkM (hlt.mp hl)]
      exact Or.inl ⟨m, rfl⟩

/-- **`heap_valloc`** returns, or there is no memory left. -/
theorem HeapPages.valloc_total {size : ℕ} (hp : HeapPages m D₀ ρ) (h : Dirs m D₀ ρ)
    (hdvd : 4096 ∣ size) (hpos : 0 < size) :
    (∃ a m', heapValloc m size = .ok (a, m')) ∨
      ∃ e, OutOfMemory e ∧ heapValloc m size = .error e := by
  obtain ⟨⟨N, hN⟩, hu⟩ := hp
  unfold heapValloc
  by_cases hroom : KERNEL_HEAP_END ≤ m.brk + size
  · rw [if_pos hroom]
    exact Or.inr ⟨_, Or.inr rfl, rfl⟩
  · rw [if_neg hroom]
    rw [heap_pages.2] at hroom
    obtain ⟨k, rfl⟩ := hdvd
    rw [show m.brk / 4096 = N by omega] at hu
    have hbase := hu.base
    rcases frameNew_total m with ⟨f, m₁, hnew⟩ | hstop
    · have hvars₁ := frameNew_vars hnew
      have haddr : BitVec.ofNat 32 m₁.brk = pageAddr N := by rw [hvars₁.brk, hN, pageAddr]
      obtain ⟨m₂, hset⟩ :=
        hu.set_total (v := pageFmt f (PF_PRES ||| PF_RW)) h (by omega) hnew
      obtain ⟨ρ₁, h₁, hu₁, -⟩ := hu.map h (by omega) hnew (pageFmt_rw f) (pageFmt_frame f _) hset
      have hbrk₂ : m₂.brk = 4096 * N :=
        ((pageSet_steps hset).vars.brk.trans hvars₁.brk).trans hN
      have hstart : BitVec.ofNat 32 m₂.brk &&& 0xFFFFF000 = pageAddr N := by
        apply BitVec.eq_of_toNat_eq
        rw [pageBase_toNat, hbrk₂, ← pageAddr, pageAddr_toNat (by omega)]
        omega
      have hend : BitVec.ofNat 32 m₂.brk + BitVec.ofNat 32 (4096 * k) = pageAddr (N + k) := by
        rw [hbrk₂, ← BitVec.ofNat_add, pageAddr, Nat.mul_add]
      rw [← haddr] at hset
      have hloop := @HeapUpto.allocLoop_total D₀ (N + k) (by omega) (2 ^ 20 + 1) N (N + 1) m₂ ρ₁
        hu₁ h₁ hbase (Nat.le_succ N) (by omega) (by omega)
      rw [← hend, ← hstart] at hloop
      rcases hloop with ⟨m₃, hloop⟩ | hloop
      · exact Or.inl ⟨_, _, bind_eq_ok.mpr ⟨_, hnew, bind_eq_ok.mpr ⟨_, hset,
          bind_eq_ok.mpr ⟨_, hloop, rfl⟩⟩⟩⟩
      · refine Or.inr ⟨_, Or.inl rfl, ?_⟩
        rw [hnew]
        dsimp only [bind, Except.bind]
        rw [hset]
        dsimp only
        rw [memAlloc, hloop]
    · rw [hstop]
      exact Or.inr ⟨_, Or.inl rfl, rfl⟩

/-- **`heap_alloc` never faults**: it returns unless memory has run out. -/
theorem Threaded.alloc_total (ht : Threaded h D₀ ρ fl) (hinv : HeapInv (h.mem.withLists fl) L)
    {e : Stop} (ha : h.heapAlloc size = .error e) : OutOfMemory e := by
  rcases ht.alloc hinv size with ⟨-, hnone⟩ | ⟨hb, -, e', hv, he'⟩ |
    ⟨-, p, h', ρ', m', hok, -⟩
  · cases hnone.symm.trans ha
  · cases he'.symm.trans ha
    obtain ⟨hsize, hdvd⟩ := slabSize_eq hb
    have hpos : 0 < slabSize (heapFindBucket size) := by
      rw [← hsize]
      exact Nat.mul_pos (slabSize_pos hb) (by simp [blockSize])
    rcases ht.pages.valloc_total ht.dirs hdvd hpos with ⟨a, m', hok⟩ | ⟨e', hout, hstop⟩
    · cases hok.symm.trans hv
    · cases hstop.symm.trans hv
      exact hout
  · cases hok.symm.trans ha

/-! ### Frame structures -/

/-- `frame_new` writes to frame structures. -/
theorem frameNew_struct {F : FrameLists} {f : U32} (hF : FrameInv m F)
    (hnew : frameNew m = .ok (f, m')) (hq : ¬F.Node q) : m'.frameStruct q = m.frameStruct q := by
  rcases frameNew_cases hnew with ⟨-, hoom⟩ | ⟨fs, -, hlist, -, rfl⟩
  · obtain ⟨-, -, rfl⟩ := frameNewOom_ok hoom
    rfl
  · have hfs : q ≠ fs := by
      rintro rfl
      refine hq (Or.inl (List.mem_of_head? ?_))
      rw [← hF.path.head]
      exact hlist
    have hhash : m.frameHash (bucketOf (m.addrOf fs)) ≠ some q := by
      intro he
      refine hq (Or.inr ⟨bucketOf (m.addrOf fs), List.mem_of_head? ?_⟩)
      rw [← (hF.linked (bucketOf (m.addrOf fs))).path.head]
      exact he
    rw [takeFrame_struct, if_neg hhash, if_neg hfs]

theorem News.struct {F : FrameLists} (hn : News m m') (hF : FrameInv m F) (hq : ¬F.Node q) :
    m'.frameStruct q = m.frameStruct q := by
  induction hn with
  | refl => rfl
  | same _ hs ih => rw [hs.struct, ih]
  | new hn hnew ih =>
    obtain ⟨F₁, hF₁, hnode⟩ := nodes_news hF hn
    rw [frameNew_struct hF₁ hnew fun h₁ => hq (hnode q h₁).1, ih]

/-! ### Runs -/

/-- What a run has done: the heap, the blocks in use, those among them that hold frame
structures, and the numbers of the frames that were added. -/
structure HeapTrace where
  heap : LinkedHeap
  live : Blocks
  frames : Set Ptr
  added : Set U32

/-- The calls of the heap, `frame_add`, and stores.  A block is freed by its owner, with the size
it was allocated with, and its owner is who stores to it; `frame.c` gives no block back. -/
inductive HeapOp : HeapTrace → HeapTrace → Prop
  | alloc {t : HeapTrace} {size : ℕ} {p : Ptr} {h' : LinkedHeap} :
      t.heap.heapAlloc size = .ok (some p, h') →
      HeapOp t { t with
        heap := h'
        live := t.live.push (heapFindBucket size) p }
  | refuse {t : HeapTrace} {size : ℕ} {h' : LinkedHeap} :
      t.heap.heapAlloc size = .ok (none, h') → HeapOp t { t with heap := h' }
  | free {t : HeapTrace} {size : ℕ} {p : Ptr} {h' : LinkedHeap} : heapFindBucket size < 16 →
      p ∈ t.live (heapFindBucket size) → p ∉ t.frames → t.heap.heapFree p size = .ok h' →
      HeapOp t { t with
        heap := h'
        live := t.live.drop (heapFindBucket size) p }
  | frame {t : HeapTrace} {f : U32} {fs : Ptr} {h' : LinkedHeap} : KERNEL_BOOT_SIZE ≤ f →
      f / PAGESZ ∉ t.added → t.heap.heapAlloc 16 = .ok (some fs, h') →
      HeapOp t ⟨{ h' with mem := h'.mem.addFrame fs (f / PAGESZ) }, t.live.push 2 fs,
        insert fs t.frames, insert (f / PAGESZ) t.added⟩
  | store {t : HeapTrace} {b : ℕ} {p : Ptr} {va : U32} {v : U8} {m' : Mem} : p ∈ t.live b →
      p ∉ t.frames → va.toNat ∈ blockAt b p → t.heap.mem.writeByte va v = .ok m' →
      HeapOp t { t with heap := { t.heap with mem := m' } }

/-- A run of such operations from an empty heap. -/
def HeapCalls (m : Mem) : HeapTrace → Prop :=
  Relation.ReflTransGen HeapOp ⟨⟨m, fun _ => 0⟩, fun _ => [], ∅, ∅⟩

/-- What every run keeps. -/
structure HeapSound (K : BitVec 20) (m : Mem) (t : HeapTrace) (ρ : BitVec 20 → Role)
    (fl : Blocks) : Prop where
  threaded : Threaded t.heap K ρ fl
  steps : HeapSteps m (fun _ => []) (t.heap.mem.withLists fl) t.live
  frames : ∀ p ∈ t.frames, p ∈ t.live 2
  nodes : ∃ F, FrameInv t.heap.mem F ∧
    ∀ p, F.Node p → p ∈ t.frames ∧ t.heap.mem.addrOf p ∈ t.added
  fresh : ∀ g : BitVec 20, 0x800 ≤ g.toNat → g.setWidth 32 ∉ t.added → ρ g = .other

section Run

variable {K T : BitVec 20} {m₀ : Mem} {t t' : HeapTrace}

theorem EarlyMem.heapSound (h : EarlyMem m₀ K T) (hi : initPaging m₀ = .ok m) :
    (∃ ρ, HeapSound K m ⟨⟨m, fun _ => 0⟩, fun _ => [], ∅, ∅⟩ ρ fun _ => []) ∧
      HeapInv m (fun _ => []) ∧ Counted m fun _ => [] := by
  obtain ⟨ρ, hs, hheap⟩ := h.paged hi
  obtain ⟨ht, L, hL, -⟩ := h.frames.tracks
  obtain ⟨F, hF, hnode⟩ := nodes_news ht.inv hs.news
  have hbucket : ∀ b, m.heapBucket b = [] := fun b =>
    (congrFun hs.vars.bucket b).trans (h.cold.bucket b)
  have hlists : m.withLists (fun _ => []) = m := by
    unfold Mem.withLists
    rw [← show m.heapBucket = fun _ => [] from funext hbucket]
  refine ⟨⟨ρ, ⟨hs.dirs, hheap, fun b => rfl, fun b p hp => absurd hp List.not_mem_nil⟩, ?_,
    fun p hp => absurd hp (Set.notMem_empty p), ⟨F, hF, fun p hp => ?_⟩, fun g hg _ => hs.above g hg⟩,
    HeapInv.start (hs.vars.brk.trans h.cold.brk) hbucket, fun b _ => ?_⟩
  · show HeapSteps m _ (m.withLists _) _
    rw [hlists]
    exact .refl
  · rcases (hnode p hp).1 with hf | ⟨k, hu⟩
    · exact absurd hf List.not_mem_nil
    · exact absurd hu List.not_mem_nil
  · rw [hs.vars.analysis, h.cold.analysis]
    rfl

theorem HeapSound.blocks (hs : HeapSound K m t ρ fl) (hinv : HeapInv m fun _ => [])
    (hc : Counted m fun _ => []) :
    HeapInv (t.heap.mem.withLists fl) t.live ∧ Counted t.heap.mem t.live := by
  obtain ⟨hblocks, hcount⟩ := hs.steps.inv hinv hc
  exact ⟨hblocks, hcount⟩

theorem HeapSound.alloc (hs : HeapSound K m t ρ fl) {h' : LinkedHeap} {m' : Mem}
    (ha : Allocated t.heap K ρ fl size p h' ρ' m') :
    HeapSound K m { t with
      heap := h'
      live := t.live.push (heapFindBucket size) p } ρ' m'.heapBucket := by
  obtain ⟨F, hF, hnode⟩ := hs.nodes
  have hF₀ : FrameInv (t.heap.mem.withLists fl) F := hF.same ⟨rfl, rfl, rfl, rfl, rfl, rfl⟩
  obtain ⟨F', hF', hnode'⟩ := nodes_news hF₀ (heapAlloc_news ha.list)
  have hframes : SameFrames m' h'.mem := ha.store.frames.trans ⟨rfl, rfl, rfl, rfl, rfl, rfl⟩
  refine ⟨ha.threaded, (hs.steps.alloc ha.list).same ha.store.vars.heap,
    fun q hq => mem_push_of_mem (hs.frames q hq), ⟨F', hF'.same hframes, fun q hq => ?_⟩,
    fun g hg hA => ?_⟩
  · obtain ⟨hold, haddr⟩ := hnode' q hq
    obtain ⟨hmem, hadded⟩ := hnode q hold
    refine ⟨hmem, ?_⟩
    have hsame : h'.mem.addrOf q = t.heap.mem.addrOf q := by
      rw [Mem.addrOf, hframes.struct]
      exact haddr
    rw [hsame]
    exact hadded
  · have h₀ := hs.fresh g hg hA
    rw [ha.roles g (by rw [h₀]; simp), h₀]

/-- **`frame_add`**, after its call of `heap_alloc`. -/
theorem HeapSound.frame {h' : LinkedHeap} {fs : Ptr} {f : U32} {L' : Blocks}
    (hs : HeapSound K m { t with heap := h', live := L' } ρ fl) (hfs : fs ∈ L' 2)
    (hnew : fs ∉ t.frames) (hboot : KERNEL_BOOT_SIZE ≤ f) (hA : f / PAGESZ ∉ t.added) :
    ∃ ρ', HeapSound K m ⟨{ h' with mem := h'.mem.addFrame fs (f / PAGESZ) }, L',
      insert fs t.frames, insert (f / PAGESZ) t.added⟩ ρ' fl := by
  obtain ⟨F, hF, hnode⟩ := hs.nodes
  obtain ⟨hlo, hhi, htn, hwide⟩ := bootFrame hboot
  set n := f / PAGESZ with hn
  set g₀ := frameNo (n * PAGESZ) with hg₀
  have hother : ρ g₀ = .other := hs.fresh g₀ htn (by rw [hwide]; exact hA)
  have haddr : ∀ q, F.Node q → h'.mem.addrOf q ≠ n := by
    intro q hq he
    exact hA (he ▸ (hnode q hq).2)
  have hnode' : ¬F.Node fs := fun hq => hnew (hnode fs hq).1
  obtain ⟨hvars, hphys⟩ := addFrame_vars h'.mem fs n
  have hdirs := hs.threaded.dirs.addFrame hF hnode' haddr hlo hhi hother
  have hread : ∀ va, (h'.mem.addFrame fs n).read va = h'.mem.read va := by
    intro va
    unfold Mem.read Mem.translate
    rw [hphys, hvars.cr3]
  refine ⟨_, ⟨hdirs, ⟨hvars.brk ▸ hs.threaded.pages.1, ?_⟩,
    fun b => (hs.threaded.lists b).congr fun q _ => hread q, fun b q hq => ?_⟩,
    hs.steps.same ⟨rfl, hvars.brk, hvars.analysis⟩, fun q hq => ?_,
    ⟨F.add fs, hF.addFrame hnode' haddr hlo hhi, fun q hq => ?_⟩, fun g hg hgA => ?_⟩
  · rw [hvars.brk]
    refine hs.threaded.pages.2.carry (fun _ _ _ => by rw [hphys])
      (fun _ _ _ => by simp only [Mem.hword, Mem.kword, hphys]) fun g k hg => ?_
    rw [Function.update_of_ne]
    · exact hg
    · rintro rfl
      rw [hother] at hg
      cases hg
  · obtain ⟨hq₁, hq₂⟩ := hs.threaded.inHeap b q hq
    exact ⟨hq₁, hvars.brk ▸ hq₂⟩
  · rcases hq with rfl | hq
    · exact hfs
    · exact hs.frames q hq
  · rw [(addFrame_data h'.mem fs q n).1]
    rcases FrameLists.add_node.mp hq with rfl | hq'
    · rw [if_pos rfl]
      exact ⟨Set.mem_insert _ _, Set.mem_insert _ _⟩
    · rw [if_neg]
      · obtain ⟨hmem, hadded⟩ := hnode q hq'
        exact ⟨Set.mem_insert_of_mem _ hmem, Set.mem_insert_of_mem _ hadded⟩
      · rintro rfl
        exact hnode' hq'
  · have hne : g ≠ g₀ := by
      rintro rfl
      exact hgA (hwide ▸ Set.mem_insert _ _)
    rw [Function.update_of_ne hne]
    exact hs.fresh g hg fun hin => hgA (Set.mem_insert_of_mem _ hin)

/-- **Every operation** keeps the heap sound. -/
theorem HeapOp.sound (hop : HeapOp t t') (hs : HeapSound K m t ρ fl)
    (hinv : HeapInv m fun _ => []) (hc : Counted m fun _ => []) :
    ∃ ρ' fl', HeapSound K m t' ρ' fl' := by
  obtain ⟨hblocks, hcount⟩ := hs.blocks hinv hc
  have halloc : ∀ {size o h'}, t.heap.heapAlloc size = .ok (o, h') →
      (¬heapFindBucket size < 16 ∧ o = none ∧ h' = t.heap) ∨
      ∃ p ρ' m', heapFindBucket size < 16 ∧ o = some p ∧
        Allocated t.heap K ρ fl size p h' ρ' m' := by
    intro size o h' ha
    rcases hs.threaded.alloc hblocks size with ⟨hb, hnone⟩ | ⟨-, -, e, -, herr⟩ |
      ⟨hb, p, h₁, ρ', m', hok, hall⟩
    · cases hnone.symm.trans ha
      exact Or.inl ⟨hb, rfl, rfl⟩
    · cases herr.symm.trans ha
    · cases hok.symm.trans ha
      exact Or.inr ⟨p, ρ', m', hb, rfl, hall⟩
  cases hop with
  | alloc ha =>
    rcases halloc ha with ⟨-, hnone, -⟩ | ⟨p, ρ', m', -, hp, hall⟩
    · cases hnone
    · obtain rfl := Option.some.inj hp
      exact ⟨ρ', _, hs.alloc hall⟩
  | refuse ha =>
    rcases halloc ha with ⟨-, -, rfl⟩ | ⟨p, -, -, -, hp, -⟩
    · exact ⟨ρ, fl, hs⟩
    · cases hp
  | @free size p h' hb hp hframe hfree =>
    obtain ⟨h₁, hok, ht, hstore, hframes, -⟩ := hs.threaded.free hblocks hb hp
    cases hok.symm.trans hfree
    obtain ⟨F, hF, hnode⟩ := hs.nodes
    refine ⟨ρ, _, ht, (hs.steps.free hb hp).same hstore.vars.heap, fun q hq => ?_,
      ⟨F, hF.same hframes, fun q hq => ?_⟩, hs.fresh⟩
    · refine mem_drop_of_mem (hs.frames q hq) fun _ hqp => ?_
      exact hframe (hqp ▸ hq)
    · show _ ∧ h'.mem.addrOf q ∈ _
      rw [Mem.addrOf, hframes.struct]
      exact hnode q hq
  | @frame f fs h' hboot hA ha =>
    have hbucket : heapFindBucket 16 = 2 := by decide
    rcases halloc ha with ⟨hlarge, -⟩ | ⟨p, ρ', m', -, hp, hall⟩
    · exact absurd (by rw [hbucket]; omega) hlarge
    · obtain rfl := Option.some.inj hp
      have hs' := hs.alloc hall
      rw [hbucket] at hs'
      have hnew : fs ∉ t.frames := by
        intro hfs
        rcases hblocks.alloc hall.list with ⟨hlarge, -⟩ | ⟨p, -, hp, hfresh, -⟩
        · exact absurd (by rw [hbucket]; omega) hlarge
        · obtain rfl := Option.some.inj hp
          rw [hbucket] at hfresh
          exact hfresh (hs.frames fs hfs)
      obtain ⟨ρ'', hs''⟩ := hs'.frame (mem_push_self 2 fs) hnew hboot hA
      exact ⟨ρ'', _, hs''⟩
  | @store b p va v m' hp hframe hva hwrite =>
    obtain ⟨m₁, hok, hstore⟩ := hblocks.writeByte hs.threaded.dirs hs.threaded.pages hp hva v
    cases hok.symm.trans hwrite
    obtain ⟨F, hF, hnode⟩ := hs.nodes
    refine ⟨ρ, fl, hs.threaded.store hblocks hp hstore,
      hs.steps.same ⟨rfl, hstore.vars.brk, hstore.vars.analysis⟩, hs.frames,
      ⟨F, hF.same hstore.frames, fun q hq => ?_⟩, hs.fresh⟩
    show _ ∧ m'.addrOf q ∈ _
    rw [Mem.addrOf, hstore.frames.struct]
    exact hnode q hq

theorem HeapCalls.sound (hrun : HeapCalls m t) (h : EarlyMem m₀ K T)
    (hi : initPaging m₀ = .ok m) : ∃ ρ fl, HeapSound K m t ρ fl := by
  obtain ⟨⟨ρ, hstart⟩, hinv, hc⟩ := h.heapSound hi
  induction hrun with
  | refl => exact ⟨ρ, _, hstart⟩
  | tail _ hop ih =>
    obtain ⟨ρ', fl', hs⟩ := ih
    exact hop.sound hs hinv hc

/-! ### The list heap -/

/-- The links of `h` lead through the lists of `a`. -/
structure Mirrors (h : LinkedHeap) (a : Mem) : Prop where
  lists : ∀ b, FreeList h.mem (h.bucket b) (a.heapBucket b)
  vars : a.brk = h.mem.brk ∧ a.analysis = h.mem.analysis

theorem Threaded.mirrors (ht : Threaded h D₀ ρ fl) : Mirrors h (h.mem.withLists fl) :=
  ⟨ht.lists, rfl, rfl⟩

theorem Allocated.mirrors {h' : LinkedHeap} (ha : Allocated h D₀ ρ fl size p h' ρ' m') :
    Mirrors h' m' :=
  ⟨ha.threaded.lists, ha.store.vars.brk.symm, ha.store.vars.analysis.symm⟩

/-- The heap with links returns where the list heap does. -/
theorem Threaded.returns (ht : Threaded h D₀ ρ fl) (hinv : HeapInv (h.mem.withLists fl) L)
    {r : Option Ptr × Mem} (ha : heapAlloc (h.mem.withLists fl) size = .ok r) :
    ∃ r', h.heapAlloc size = .ok r' := by
  obtain ⟨o, m'⟩ := r
  rcases ht.alloc hinv size with ⟨-, hnone⟩ | ⟨hb, hnil, e, hv, -⟩ | ⟨-, p, h', ρ', m', hok, -⟩
  · exact ⟨_, hnone⟩
  · obtain ⟨m₁, q, rest, hslab, -, hcons, -⟩ := heapAlloc_cases hb ha
    rcases hslab with rfl | ⟨-, hslab⟩
    · cases hnil.symm.trans hcons
    · -- `heap_valloc` returns for the one as for the other
      obtain ⟨⟨a, m₂⟩, hv', -⟩ := bind_eq_ok.mp hslab
      have hv₀ : heapValloc ((h.mem.withLists fl).withLists h.mem.heapBucket)
        (slabSize (heapFindBucket size)) = .ok (a, m₂.withLists h.mem.heapBucket) :=
        heapValloc_lists hv'
      cases hv.symm.trans hv₀
  · exact ⟨_, hok⟩

/-- A first block can be had. -/
theorem first_block : ∃ m t p, initPaging earlyMem = .ok m ∧ HeapCalls m t ∧ p ∈ t.live 2 := by
  obtain ⟨m, hinit, hn⟩ := earlyMem_early.initPaging_total (n := 1) (plenty_pool rfl (by decide))
  obtain ⟨⟨ρ, hs⟩, hinv, hc⟩ := earlyMem_early.heapSound hinit
  obtain ⟨hblocks, -⟩ := hs.blocks hinv hc
  obtain ⟨ρ₀, hsettling, -⟩ := earlyMem_early.paged hinit
  obtain ⟨f, m₁, hnew, -⟩ := hn.new
  have hlists := (HeapStore.refl (S := ∅) hs.threaded.dirs hs.threaded.pages).withLists fun _ => []
  have hroom : m.brk + 4096 < KERNEL_HEAP_END := by
    rw [hsettling.vars.brk]
    decide
  obtain ⟨q, m₂, hlist, -⟩ := hlists.pages.alloc_block hlists.dirs
    (show heapFindBucket 16 ≤ 10 by decide) hroom (frameNew_lists hnew)
  obtain ⟨r, hr⟩ := hs.threaded.returns hblocks hlist
  rcases hs.threaded.alloc hblocks 16 with ⟨hb, -⟩ | ⟨-, -, e, -, herr⟩ | ⟨-, p, h', -, -, hok, -⟩
  · exact absurd (by decide) hb
  · cases hr.symm.trans herr
  · exact ⟨m, _, p, hinit, .single (.alloc hok), mem_push_self 2 p⟩

/-- **Every run** of the heap with links is a run of the heap with lists: a call returns what it
returns there, and the links lead through the lists again. -/
theorem heap_refines (h : EarlyMem m₀ K T) (hi : initPaging m₀ = .ok m) (hrun : HeapCalls m t) :
    ∃ a, Mirrors t.heap a ∧ HeapSteps m (fun _ => []) a t.live ∧
      (∀ size o h', t.heap.heapAlloc size = .ok (o, h') →
        ∃ a', heapAlloc a size = .ok (o, a') ∧ Mirrors h' a') ∧
      (∀ size r, heapAlloc a size = .ok r → ∃ r', t.heap.heapAlloc size = .ok r') ∧
      ∀ size p, heapFindBucket size < 16 → p ∈ t.live (heapFindBucket size) →
        ∃ h', t.heap.heapFree p size = .ok h' ∧ Mirrors h' (heapFree a p size) := by
  obtain ⟨-, hinv, hc⟩ := h.heapSound hi
  obtain ⟨ρ, fl, hs⟩ := hrun.sound h hi
  obtain ⟨hblocks, -⟩ := hs.blocks hinv hc
  refine ⟨t.heap.mem.withLists fl, hs.threaded.mirrors, hs.steps, fun size o h' ha => ?_,
    fun size r ha => hs.threaded.returns hblocks ha, fun size p hb hp => ?_⟩
  · rcases hs.threaded.alloc hblocks size with ⟨hb, hnone⟩ | ⟨-, -, e, -, herr⟩ |
      ⟨-, p, h₁, ρ', m', hok, hall⟩
    · cases hnone.symm.trans ha
      refine ⟨_, if_pos ?_, hs.threaded.mirrors⟩
      rw [heapFindBucket_large hb]
      decide
    · cases herr.symm.trans ha
    · cases hok.symm.trans ha
      exact ⟨m', hall.list, hall.mirrors⟩
  · obtain ⟨h', hfree, ht, hstore, -⟩ := hs.threaded.free hblocks hb hp
    exact ⟨h', hfree, ht.lists, hstore.vars.brk.symm, hstore.vars.analysis.symm⟩

/-- The first block, given back. -/
theorem heap_refines_first : ∃ m t p a h', HeapCalls m t ∧ p ∈ t.live 2 ∧ Mirrors t.heap a ∧
    t.heap.heapFree p 16 = .ok h' ∧ Mirrors h' (heapFree a p 16) := by
  obtain ⟨m, t, p, hinit, hrun, hp⟩ := first_block
  obtain ⟨a, ha, -, -, -, hfree⟩ := heap_refines earlyMem_early hinit hrun
  obtain ⟨h', hok, hl⟩ := hfree 16 p (by decide) hp
  exact ⟨m, t, p, a, h', hrun, hp, ha, hok, hl⟩

/-! ### The blocks -/

/-- What a block of `frame_add` holds besides its bytes is its frame structure. -/
structure SameBlock (m m' : Mem) (b : ℕ) (p : Ptr) : Prop where
  bytes : ∀ va : U32, va.toNat ∈ blockAt b p → m'.readByte va = m.readByte va
  struct : m'.frameStruct p = m.frameStruct p

/-- The blocks in use but those of frame structures hold what they held. -/
def OthersKept (t : HeapTrace) (m' : Mem) : Prop :=
  ∀ b, ∀ p ∈ t.live b, p ∉ t.frames → SameBlock t.heap.mem m' b p

/-- What the caller of `heap_alloc` gets. -/
structure BlockGiven (t : HeapTrace) (size : ℕ) (p : Ptr) (m' : Mem) : Prop where
  fits : LeastBucket size (heapFindBucket size)
  inside : KERNEL_HEAP ≤ p.toNat ∧ p.toNat + blockSize (heapFindBucket size) ≤ m'.brk
  apart : ∀ b, ∀ q ∈ t.live b, Disjoint (blockAt (heapFindBucket size) p) (blockAt b q)
  aligned : 9 ≤ size → 16 ∣ p.toNat
  page : 2049 ≤ size → size ≤ 4096 → 4096 ∣ p.toNat
  zero : ∀ va : U32, va.toNat ∈ blockAt (heapFindBucket size) p → m'.readByte va = .ok 0

/-- The alignment of the blocks for a size. -/
theorem LeastBucket.aligned (hb : LeastBucket size b) {a : ℕ} (ha : min (blockSize b) 4096 ∣ a) :
    (9 ≤ size → 16 ∣ a) ∧ (2049 ≤ size → size ≤ 4096 → 4096 ∣ a) := by
  have hall : ∀ b < 16, (9 ≤ blockSize b → 16 ∣ min (blockSize b) 4096) ∧
      (2049 ≤ blockSize b → min (blockSize b) 4096 = 4096) := by decide
  obtain ⟨hlt, hle, -⟩ := hb
  obtain ⟨h₁₆, hpage⟩ := hall b hlt
  refine ⟨fun h => dvd_trans (h₁₆ (h.trans hle)) ha, fun h _ => ?_⟩
  rw [hpage (h.trans hle)] at ha
  exact ha

theorem HeapInv.disjoint {c : ℕ} (hinv : HeapInv m L) (hp : p ∈ m.heapBucket b ++ L b)
    (hq : q ∈ m.heapBucket c ++ L c) (hne : ¬(c = b ∧ q = p)) :
    Disjoint (blockAt b p) (blockAt c q) :=
  Set.disjoint_left.mpr fun _ hap haq => hinv.outside hp hq hne haq.1 haq.2 hap

theorem HeapInv.read_others {c : ℕ} (hinv : HeapInv m L) (hp : p ∈ m.heapBucket b ++ L b)
    (hread : ∀ va, m.InHeap va → va.toNat ∉ blockAt c q → m'.read va = m.read va)
    (hd : Disjoint (blockAt c q) (blockAt b p)) {va : U32} (hva : va.toNat ∈ blockAt b p) :
    m'.readByte va = m.readByte va := by
  obtain ⟨hlo, hhi⟩ := hinv.packed.inside (b, p.toNat) ⟨p, hp, rfl⟩
  exact readByte_congr (hread va ⟨hlo.trans hva.1, hva.2.trans_le hhi⟩
    (Set.disjoint_right.mp hd hva))

theorem HeapSound.given (hs : HeapSound K m t ρ fl)
    (hblocks : HeapInv (t.heap.mem.withLists fl) t.live) (hb : heapFindBucket size < 16)
    {h' : LinkedHeap} (ha : Allocated t.heap K ρ fl size p h' ρ' m') :
    BlockGiven t size p h'.mem ∧ OthersKept t h'.mem := by
  have hleast : LeastBucket size (heapFindBucket size) := leastBucket_iff.mpr ⟨hb, rfl⟩
  rcases hblocks.alloc ha.list with ⟨hlarge, -⟩ | ⟨q, -, hq, hnew, hinv', -⟩
  · exact absurd hb hlarge
  obtain rfl := Option.some.inj hq
  have hpmem := List.mem_append_right (m'.heapBucket (heapFindBucket size))
    (mem_push_self (L := t.live) (heapFindBucket size) p)
  obtain ⟨hlo, hhi⟩ := hinv'.packed.inside (_, p.toNat) ⟨p, hpmem, rfl⟩
  obtain ⟨h₁₆, hpage⟩ := hleast.aligned (hinv'.aligned (_, p.toNat) ⟨p, hpmem, rfl⟩)
  have hapart : ∀ b, ∀ q ∈ t.live b,
      Disjoint (blockAt (heapFindBucket size) p) (blockAt b q) := by
    intro b q hq
    refine hinv'.disjoint hpmem (List.mem_append_right _ (mem_push_of_mem hq)) ?_
    rintro ⟨rfl, rfl⟩
    exact hnew ‹_›
  refine ⟨⟨hleast, ⟨hlo, ?_⟩, hapart, h₁₆, hpage, ha.zero⟩, fun b q hq hframe => ⟨fun va hva => ?_, ?_⟩⟩
  · rw [show h'.mem.brk = m'.brk from ha.store.vars.brk]
    exact hhi
  · exact hblocks.read_others (List.mem_append_right _ hq) ha.read (hapart b q hq) hva
  · obtain ⟨F, hF, hnode⟩ := hs.nodes
    have hF₀ : FrameInv (t.heap.mem.withLists fl) F := hF.same ⟨rfl, rfl, rfl, rfl, rfl, rfl⟩
    rw [show h'.mem.frameStruct q = m'.frameStruct q from congrFun ha.store.frames.struct q,
      (heapAlloc_news ha.list).struct hF₀ fun hn => hframe (hnode q hn).1]
    rfl

/-- **The kernel heap.**  At every moment the links lead through lists of free blocks, which with
the blocks in use are packed into the heap below the break, aligned, and counted by `analysis`.
From there `heap_alloc` refuses a size above the largest blocks, or stops as there is no memory
left, or returns a cleared block; `heap_free` returns.  Neither changes another block in use, but
for the frame structures: a slab takes frames, and `frame_new` moves these from list to list. -/
theorem heap_blocks (h : EarlyMem m₀ K T) (hi : initPaging m₀ = .ok m) (hrun : HeapCalls m t) :
    (∃ fl : Blocks, (∀ b, FreeList t.heap.mem (t.heap.bucket b) (fl b)) ∧
      HeapInv (t.heap.mem.withLists fl) t.live ∧ Counted t.heap.mem t.live) ∧
    (∀ size, (blockSize 15 < size ∧ t.heap.heapAlloc size = .ok (none, t.heap)) ∨
      (∃ e, OutOfMemory e ∧ t.heap.heapAlloc size = .error e) ∨
      ∃ p h', t.heap.heapAlloc size = .ok (some p, h') ∧ BlockGiven t size p h'.mem ∧
        OthersKept t h'.mem) ∧
    ∀ size p, heapFindBucket size < 16 → p ∈ t.live (heapFindBucket size) →
      ∃ h', t.heap.heapFree p size = .ok h' ∧
        ∀ b, ∀ q ∈ t.live b, ¬(b = heapFindBucket size ∧ q = p) →
          SameBlock t.heap.mem h'.mem b q := by
  obtain ⟨-, hinv, hc⟩ := h.heapSound hi
  obtain ⟨ρ, fl, hs⟩ := hrun.sound h hi
  obtain ⟨hblocks, hcount⟩ := hs.blocks hinv hc
  refine ⟨⟨fl, hs.threaded.lists, hblocks, hcount⟩, fun size => ?_, fun size p hb hp => ?_⟩
  · rcases hs.threaded.alloc hblocks size with ⟨hb, hnone⟩ | ⟨-, -, e, -, herr⟩ |
      ⟨hb, p, h', ρ', m', hok, hall⟩
    · refine Or.inl ⟨?_, hnone⟩
      rw [← not_le, ← exists_leastBucket]
      rintro ⟨n, hn⟩
      obtain ⟨hlt, rfl⟩ := leastBucket_iff.mp hn
      exact hb hlt
    · exact Or.inr (Or.inl ⟨e, hs.threaded.alloc_total hblocks herr, herr⟩)
    · exact Or.inr (Or.inr ⟨p, h', hok, hs.given hblocks hb hall⟩)
  · obtain ⟨h', hfree, -, -, hframes, hread⟩ := hs.threaded.free hblocks hb hp
    refine ⟨h', hfree, fun b q hq hne => ⟨fun va hva => ?_, congrFun hframes.struct q⟩⟩
    exact hblocks.read_others (List.mem_append_right _ hq) hread
      (hblocks.disjoint (List.mem_append_right _ hp) (List.mem_append_right _ hq) hne) hva

/-- With the first block in use. -/
theorem heap_blocks_first : ∃ m t p h', HeapCalls m t ∧ p ∈ t.live 2 ∧
    Counted t.heap.mem t.live ∧ t.heap.heapFree p 16 = .ok h' := by
  obtain ⟨m, t, p, hinit, hrun, hp⟩ := first_block
  obtain ⟨⟨-, -, -, hcount⟩, -, hfree⟩ := heap_blocks earlyMem_early hinit hrun
  obtain ⟨h', hok, -⟩ := hfree 16 p (by decide) hp
  exact ⟨m, t, p, h', hrun, hp, hcount, hok⟩

end Run

end Pinion
