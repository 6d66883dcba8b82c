/-
The free lists of the heap in memory.

In `heap.c` a free list is a pointer in `heap_bucket`, and a free block holds in its first word
the pointer to the next one.  The heap of `Memory` has lists of addresses in their place.  Here
the allocator is embedded with its loads and stores, and refines the other.

* `LinkedHeap` — memory with `heap_bucket`;
* `LinkedHeap.heapFree`, `LinkedHeap.heapAlloc` — the calls;
* `HeapStore m m' D₀ ρ S` — of the heap only the words in `S` may differ;
* `HeapPages.write`, `HeapPages.clear` — a store to the heap, and `memclr` of a part of it;
* `FreeList m first l` — the blocks that the links lead through.
-/
import Pinion.Copying
import Pinion.HeapPages

open Runs

namespace Pinion

/-! ### The allocator -/

/-- Memory, and the first block of each free list. -/
structure LinkedHeap where
  mem : Mem
  bucket : ℕ → Ptr

namespace LinkedHeap

def heapFree (h : LinkedHeap) (ptr : Ptr) (size : ℕ) : Except Stop LinkedHeap := do
  let bucket := heapFindBucket size
  if 17 < bucket then return h
  let m := { h.mem with
    analysis := Function.update h.mem.analysis bucket (h.mem.analysis bucket - 1) }
  let m ← m.write ptr (h.bucket bucket)
  return ⟨m, Function.update h.bucket bucket ptr⟩

/-- One turn of the loop of `heap_new_slab`. -/
def slabPiece (slab bucket : ℕ) (h : LinkedHeap) (i : ℕ) : Except Stop LinkedHeap := do
  let h ← h.heapFree (BitVec.ofNat 32 (slab + 4 * (i * 2 ^ bucket))) (4 * 2 ^ bucket)
  return { h with
    mem := { h.mem with
      analysis := Function.update h.mem.analysis bucket (h.mem.analysis bucket + 1) } }

def heapNewSlab (h : LinkedHeap) (bucket : ℕ) : Except Stop LinkedHeap := do
  let (slab, m) ← heapValloc h.mem (slabSize bucket)
  (List.range (slabSize bucket / (4 * 2 ^ bucket))).foldlM (slabPiece slab bucket)
    { h with mem := m }

def heapAlloc (h : LinkedHeap) (size : ℕ) : Except Stop (Option Ptr × LinkedHeap) := do
  let bucket := heapFindBucket size
  if 16 < bucket then return (none, h)
  let h ← if h.bucket bucket = 0 then h.heapNewSlab bucket else pure h
  if h.bucket bucket = 0 then return (none, h)
  let m := { h.mem with
    analysis := Function.update h.mem.analysis bucket (h.mem.analysis bucket + 1) }
  let block := h.bucket bucket
  let next ← m.read block
  let m ← (memclr m block (BitVec.ofNat 32 (4 * 2 ^ bucket))).out
  return (some block, ⟨m, Function.update h.bucket bucket next⟩)

end LinkedHeap

/-! ### Words of the heap -/

/-- The address lies in the heap below the break. -/
def Mem.InHeap (m : Mem) (va : U32) : Prop := KERNEL_HEAP ≤ va.toNat ∧ va.toNat < m.brk

/-- Of memory only words of the heap differ, and of these only those at addresses in `S`. -/
structure HeapStore (m m' : Mem) (D₀ : BitVec 20) (ρ : BitVec 20 → Role) (S : Set ℕ) :
    Prop where
  dirs : Dirs m' D₀ ρ
  pages : HeapPages m' D₀ ρ
  frames : SameFrames m m'
  vars : SameVars m m'
  read : ∀ va, m.InHeap va → va.toNat ∉ S → m'.read va = m.read va

section Words

variable {m m' m₁ m₂ : Mem} {D₀ : BitVec 20} {ρ : BitVec 20 → Role} {S T : Set ℕ} {va : U32}

theorem HeapStore.refl (h : Dirs m D₀ ρ) (hp : HeapPages m D₀ ρ) : HeapStore m m D₀ ρ S :=
  ⟨h, hp, SameFrames.refl m, SameVars.refl m, fun _ _ _ => rfl⟩

theorem HeapStore.mono (h : HeapStore m m' D₀ ρ S) (hST : S ⊆ T) : HeapStore m m' D₀ ρ T :=
  ⟨h.dirs, h.pages, h.frames, h.vars, fun va hva hT => h.read va hva fun hS => hT (hST hS)⟩

theorem HeapStore.inHeap (h : HeapStore m m' D₀ ρ S) (hva : m.InHeap va) : m'.InHeap va := by
  unfold Mem.InHeap
  rw [h.vars.brk]
  exact hva

theorem HeapStore.trans (h : HeapStore m m₁ D₀ ρ S) (h' : HeapStore m₁ m₂ D₀ ρ S) :
    HeapStore m m₂ D₀ ρ S :=
  ⟨h'.dirs, h'.pages, h.frames.trans h'.frames, h.vars.trans h'.vars, fun va hva hS =>
    (h'.read va (h.inHeap hva) hS).trans (h.read va hva hS)⟩

/-- A byte is read from the word it lies in. -/
theorem readByte_read (m : Mem) (va : U32) : m.readByte va =
    m.read va >>= fun w => pure (byteAt w (va.extractLsb' 0 2)) := by
  unfold Mem.readByte Mem.read
  rw [bind_assoc]
  rfl

theorem readByte_congr (h : m'.read va = m.read va) : m'.readByte va = m.readByte va := by
  rw [readByte_read, readByte_read, h]

/-- The entry of an address of the heap. -/
theorem HeapPages.pte_eq (hp : HeapPages m D₀ ρ) (h : Dirs m D₀ ρ) (hva : m.InHeap va) :
    m.pte va = m.hword D₀ (va.toNat / 4096) ∧ Rw (m.pte va) ∧
      ρ (frameNo (m.pte va)) = .heap (va.toNat / 4096) := by
  obtain ⟨hbase, htop⟩ := heap_pages
  obtain ⟨hlo, hhi⟩ := hva
  obtain ⟨hpage, hupto⟩ := hp
  set n := va.toNat / 4096 with hn
  have hlast := hupto.top
  have hn₁ : 0xF1000 ≤ n := by omega
  have hn₂ : n < m.brk / 4096 := by omega
  have hpd : pdx va = pageDir n := by
    apply BitVec.eq_of_toNat_eq
    rw [pdx_toNat, pageDir, BitVec.toNat_ofNat]
    omega
  have hpt : ptx va = pageTab n := by
    apply BitVec.eq_of_toNat_eq
    rw [ptx_toNat, pageTab, BitVec.toNat_ofNat]
  obtain ⟨he, he'⟩ := heapPage_dir hn₁ (by omega)
  obtain ⟨c, hc, hd⟩ := h.cur
  have hpte : m.pte va = m.hword D₀ n := by
    rw [Mem.pte, hd, h.entry_kernel hc (by rw [hpd]; exact he) (by rw [hpd]; exact he')
      (by rw [hpd]; exact hupto.tabs _ he he'), hpd, hpt]
    rfl
  rw [hpte]
  exact ⟨rfl, hupto.below n hn₁ hn₂⟩

theorem HeapPages.read_eq (hp : HeapPages m D₀ ρ) (h : Dirs m D₀ ρ) (hva : m.InHeap va) :
    m.read va = .ok (m.phys (frameNo (m.pte va)) (wdx va)) :=
  Pinion.read_eq (translate_pte (hp.pte_eq h hva).2.1.pres)

/-- Another value for a word of the heap. -/
theorem HeapPages.poke (hp : HeapPages m D₀ ρ) (h : Dirs m D₀ ρ) (hva : m.InHeap va) (w : U32) :
    HeapStore m (m.poke (frameNo (m.pte va)) (wdx va) w) D₀ ρ {a | a / 4 = va.toNat / 4} ∧
      (m.poke (frameNo (m.pte va)) (wdx va) w).read va = .ok w ∧
      ∀ va', m.InHeap va' →
        (m.poke (frameNo (m.pte va)) (wdx va) w).pte va' = m.pte va' := by
  obtain ⟨-, -, hrole⟩ := hp.pte_eq h hva
  set f := frameNo (m.pte va) with hf
  set m' := m.poke f (wdx va) w with hm'
  have hdirs : Dirs m' D₀ ρ := h.poke (fun c => by rw [hrole]; simp) _ w
  -- the tables of the kernel layer are other frames
  have hentry : ∀ e, m'.phys D₀ e = m.phys D₀ e := by
    intro e
    refine poke_of_ne _ _ _ _ _ _ (Or.inl ?_)
    intro he
    have hdir := h.dir none trivial
    rw [show m.ctxDir D₀ none = D₀ from rfl, he, hrole] at hdir
    cases hdir
  have hword : ∀ n, 0xF1000 ≤ n → n < 0xF8000 → m'.hword D₀ n = m.hword D₀ n := by
    intro n hn hn'
    obtain ⟨he, he'⟩ := heapPage_dir hn hn'
    rw [Mem.hword, Mem.kword, hentry]
    refine poke_of_ne _ _ _ _ _ _ (Or.inl ?_)
    intro hk
    have hktab := (h.ktab _ he he' (hp.2.tabs _ he he')).2
    rw [hk, hrole] at hktab
    cases hktab
  have hpages : HeapPages m' D₀ ρ :=
    ⟨hp.1, hp.2.carry (fun e _ _ => hentry e) hword fun _ _ hg => hg⟩
  have hpte : ∀ va', m.InHeap va' → m'.pte va' = m.pte va' := by
    intro va' hva'
    obtain ⟨hbase, htop⟩ := heap_pages
    have hlast := hp.2.top
    have hpage := hp.1
    obtain ⟨hlo, hhi⟩ := hva'
    rw [(hpages.pte_eq hdirs ⟨hlo, hhi⟩).1, (hp.pte_eq h ⟨hlo, hhi⟩).1]
    exact hword _ (by omega) (by omega)
  refine ⟨⟨hdirs, hpages, ⟨rfl, rfl, rfl, rfl, rfl, rfl⟩, ⟨rfl, rfl, rfl, rfl, rfl, rfl, rfl⟩,
    fun va' hva' hne => ?_⟩, ?_, hpte⟩
  · rw [hpages.read_eq hdirs hva', hp.read_eq h hva', hpte va' hva']
    congr 1
    refine poke_of_ne _ _ _ _ _ _ ?_
    rw [← not_and_or]
    rintro ⟨hframe, hw⟩
    have hrole' := (hp.pte_eq h hva').2.2
    rw [hframe, hrole, Role.heap.injEq] at hrole'
    have hword := congrArg BitVec.toNat hw
    rw [wdx_toNat, wdx_toNat] at hword
    refine hne ?_
    rw [Set.mem_ofPred_eq]
    omega
  · rw [hpages.read_eq hdirs hva, hpte va hva, ← hf, hm', poke_self]

/-- **A store** of a word. -/
theorem HeapPages.write (hp : HeapPages m D₀ ρ) (h : Dirs m D₀ ρ) (hva : m.InHeap va) (w : U32) :
    ∃ m', m.write va w = .ok m' ∧ HeapStore m m' D₀ ρ {a | a / 4 = va.toNat / 4} ∧
      m'.read va = .ok w := by
  obtain ⟨hstore, hread, -⟩ := hp.poke h hva w
  exact ⟨_, write_eq (translate_pte (hp.pte_eq h hva).2.1.pres) w, hstore, hread⟩

/-- **A store** of a byte. -/
theorem HeapPages.writeByte (hp : HeapPages m D₀ ρ) (h : Dirs m D₀ ρ) (hva : m.InHeap va)
    (b : U8) : ∃ m', m.writeByte va b = .ok m' ∧
      HeapStore m m' D₀ ρ {a | a / 4 = va.toNat / 4} ∧ m'.readByte va = .ok b ∧
      ∀ va', m.InHeap va' → va' ≠ va → m'.readByte va' = m.readByte va' := by
  obtain ⟨-, hrw, hrole⟩ := hp.pte_eq h hva
  obtain ⟨hstore, -, hpte⟩ := hp.poke h hva
    (setByteAt (m.phys (frameNo (m.pte va)) (wdx va)) (va.extractLsb' 0 2) b)
  have hput : m.putByte (frameNo (m.pte va)) (off va) b = m.poke (frameNo (m.pte va)) (wdx va)
      (setByteAt (m.phys (frameNo (m.pte va)) (wdx va)) (va.extractLsb' 0 2) b) := by
    rw [Mem.putByte, off_word, off_byte]
  rw [← hput] at hstore hpte
  have hread : ∀ va', m.InHeap va' →
      (m.putByte (frameNo (m.pte va)) (off va) b).readByte va' =
        .ok ((m.putByte (frameNo (m.pte va)) (off va) b).byte (frameNo (m.pte va')) (off va')) := by
    intro va' hva'
    rw [readByte_eq (hstore.pages.pte_eq hstore.dirs (hstore.inHeap hva')).2.1.pres, Mem.seen,
      hpte va' hva']
  refine ⟨_, writeByte_eq hrw.pres b, hstore, ?_, fun va' hva' hne => ?_⟩
  · rw [hread va hva, putByte_self]
  · rw [hread va' hva', readByte_eq (hp.pte_eq h hva').2.1.pres, Mem.seen]
    congr 1
    refine putByte_of_ne m b fun hsame => hne ?_
    obtain ⟨hframe, hoff⟩ := hsame
    have hrole' := (hp.pte_eq h hva').2.2
    rw [hframe, hrole, Role.heap.injEq] at hrole'
    exact eq_of_samePage ((samePage_iff va' va).mpr hrole'.symm) hoff

/-- **`memclr`** of a part of the heap. -/
theorem HeapPages.clear {s : U32} {n : ℕ} (hp : HeapPages m D₀ ρ) (h : Dirs m D₀ ρ)
    (hlo : KERNEL_HEAP ≤ s.toNat) (hhi : s.toNat + n ≤ m.brk) (hs : 4 ∣ s.toNat) (hn : 4 ∣ n) :
    ∃ m', (memclr m s (BitVec.ofNat 32 n)).out = .ok m' ∧
      HeapStore m m' D₀ ρ {a | s.toNat ≤ a ∧ a < s.toNat + n} ∧
      ∀ va : U32, s.toNat ≤ va.toNat → va.toNat < s.toNat + n → m'.readByte va = .ok 0 := by
  obtain ⟨hbase, htop⟩ := heap_pages
  have hlast := hp.2.top
  have hlen : (BitVec.ofNat 32 n : U32).toNat = n := by
    rw [BitVec.toNat_ofNat]
    omega
  rw [memclr_out, hlen]
  -- the words of the part are those of no other part, as its ends are aligned
  refine foldlM_range_ok (P := fun k m' =>
    HeapStore m m' D₀ ρ {a | s.toNat ≤ a ∧ a < s.toNat + n} ∧
    ∀ va : U32, s.toNat ≤ va.toNat → va.toNat < s.toNat + k → m'.readByte va = .ok 0)
    ⟨HeapStore.refl h hp, fun va _ _ => absurd ‹_› (by omega)⟩ ?_
  rintro k hk m₁ ⟨hstore, hzero⟩
  have haddr : (s + BitVec.ofNat 32 k).toNat = s.toNat + k := by
    rw [BitVec.toNat_add, BitVec.toNat_ofNat]
    omega
  have hin : m₁.InHeap (s + BitVec.ofNat 32 k) :=
    hstore.inHeap ⟨by rw [haddr]; omega, by rw [haddr]; omega⟩
  obtain ⟨m₂, hwrite, hstore₂, hself, hother⟩ := hstore.pages.writeByte hstore.dirs hin 0
  refine ⟨m₂, hwrite, hstore.trans (hstore₂.mono fun a ha => ?_), fun va hva hva' => ?_⟩
  · rw [Set.mem_ofPred_eq, haddr] at ha
    rw [Set.mem_ofPred_eq]
    omega
  · by_cases heq : va = s + BitVec.ofNat 32 k
    · rw [heq]
      exact hself
    · have hne : va.toNat ≠ s.toNat + k :=
        fun he => heq (BitVec.eq_of_toNat_eq (he.trans haddr.symm))
      rw [hother va (hstore.inHeap ⟨by omega, by omega⟩) heq]
      exact hzero va hva (by omega)

end Words

/-! ### The lists are no part of the pages -/

/-- The same memory with other lists. -/
def Mem.withLists (m : Mem) (fl : Blocks) : Mem := { m with heapBucket := fl }

section WithLists

variable {m m' : Mem} {fl : Blocks} {f : U32}

theorem takeFrame_lists (m : Mem) (fl : Blocks) (fs : Ptr) :
    (m.withLists fl).takeFrame fs = (m.takeFrame fs).withLists fl := by
  have hprev : ∀ (m : Mem) (p v : Option Ptr),
      (m.withLists fl).setPrev p v = (m.setPrev p v).withLists fl := by
    intro m p v
    cases p <;> rfl
  set b := bucketOf (m.addrOf fs) with hb
  exact congrArg (fun k : Mem => { k with frameHash := Function.update k.frameHash b (some fs) })
    (hprev (Mem.setFrame { m with frameList := m.nextOf fs } fs
      fun g => { g with next := m.frameHash b, prev := none, refc := 1 }) (m.frameHash b) (some fs))

theorem frameNewOom_lists (h : frameNewOom m = .ok (f, m')) :
    frameNewOom (m.withLists fl) = .ok (f, m'.withLists fl) := by
  obtain ⟨rfl, hroom, rfl⟩ := frameNewOom_ok h
  exact if_neg (BitVec.not_le.mpr hroom)

theorem frameNew_lists (h : frameNew m = .ok (f, m')) :
    frameNew (m.withLists fl) = .ok (f, m'.withLists fl) := by
  rcases frameNew_cases h with ⟨hcase, hoom⟩ | ⟨fs, hoom, hlist, rfl, rfl⟩
  · rw [frameNew_oom (show (m.withLists fl).outOfMemory = true ∨ _ from hcase)]
    exact frameNewOom_lists hoom
  · rw [← takeFrame_lists]
    exact frameNew_list hoom hlist

theorem write_lists {va w : U32} (h : m.write va w = .ok m') :
    (m.withLists fl).write va w = .ok (m'.withLists fl) := by
  obtain ⟨⟨g, i⟩, ht, h⟩ := bind_eq_ok.mp h
  cases h
  exact bind_eq_ok.mpr ⟨_, ht, rfl⟩

theorem clearPage_lists {va : U32} (h : clearPage m va = .ok m') :
    clearPage (m.withLists fl) va = .ok (m'.withLists fl) := by
  unfold clearPage at h ⊢
  exact foldlM_image (φ := fun m : Mem => m.withLists fl) (fun _ _ _ hw => write_lists hw) h

theorem pageTouch_lists {page : U32} (h : pageTouch m page = .ok m') :
    pageTouch (m.withLists fl) page = .ok (m'.withLists fl) := by
  obtain ⟨e, hread, h⟩ := bind_eq_ok.mp h
  refine bind_eq_ok.mpr ⟨e, hread, ?_⟩
  split at h
  · rename_i hp
    cases h
    exact if_pos hp
  · rename_i hp
    obtain ⟨⟨g, m₁⟩, hnew, h⟩ := bind_eq_ok.mp h
    obtain ⟨m₂, hwrite, h⟩ := bind_eq_ok.mp h
    rw [if_neg hp]
    exact bind_eq_ok.mpr ⟨_, frameNew_lists hnew, bind_eq_ok.mpr ⟨_, write_lists hwrite,
      clearPage_lists h⟩⟩

theorem pageSet_lists {page v : U32} (h : pageSet m page v = .ok m') :
    pageSet (m.withLists fl) page v = .ok (m'.withLists fl) := by
  obtain ⟨e, hread, h⟩ := bind_eq_ok.mp h
  refine bind_eq_ok.mpr ⟨e, hread, ?_⟩
  dsimp only at h ⊢
  split at h
  · rename_i hp
    obtain ⟨m₁, htouch, h⟩ := bind_eq_ok.mp h
    rw [if_pos hp]
    exact bind_eq_ok.mpr ⟨_, pageTouch_lists htouch, write_lists h⟩
  · rename_i hp
    rw [pure_bind] at h
    rw [if_neg hp, pure_bind]
    exact write_lists h

theorem memAllocLoop_lists {flags stop : U32} {n : ℕ} : ∀ {i : U32} {m m' : Mem},
    memAllocLoop flags stop n i m = .ok m' →
      memAllocLoop flags stop n i (m.withLists fl) = .ok (m'.withLists fl) := by
  induction n with
  | zero => exact fun h => nomatch h
  | succ n ih =>
    intro i m m' h
    rw [memAllocLoop] at h ⊢
    split at h
    · rename_i hlt
      rw [if_pos hlt]
      obtain ⟨e, hget, h⟩ := bind_eq_ok.mp h
      refine bind_eq_ok.mpr ⟨e, hget, ?_⟩
      dsimp only at h ⊢
      split at h
      · rename_i hp
        obtain ⟨⟨g, m₁⟩, hnew, h⟩ := bind_eq_ok.mp h
        obtain ⟨m₂, hset, h⟩ := bind_eq_ok.mp h
        rw [if_pos hp]
        exact bind_eq_ok.mpr ⟨_, frameNew_lists hnew, bind_eq_ok.mpr ⟨_, pageSet_lists hset, ih h⟩⟩
      · rename_i hp
        rw [pure_bind] at h
        rw [if_neg hp, pure_bind]
        exact ih h
    · rename_i hlt
      cases h
      exact if_neg hlt

/-- `heap_valloc` does not look at the lists. -/
theorem heapValloc_lists {size a : ℕ} (h : heapValloc m size = .ok (a, m')) :
    heapValloc (m.withLists fl) size = .ok (a, m'.withLists fl) := by
  unfold heapValloc at h ⊢
  split at h
  · cases h
  · rename_i hroom
    obtain ⟨⟨g, m₁⟩, hnew, h⟩ := bind_eq_ok.mp h
    obtain ⟨m₂, hset, h⟩ := bind_eq_ok.mp h
    obtain ⟨m₃, halloc, h⟩ := bind_eq_ok.mp h
    cases h
    rw [if_neg (show ¬KERNEL_HEAP_END ≤ (m.withLists fl).brk + size from hroom)]
    exact bind_eq_ok.mpr ⟨_, frameNew_lists hnew, bind_eq_ok.mpr ⟨_, pageSet_lists hset,
      bind_eq_ok.mpr ⟨_, memAllocLoop_lists halloc, rfl⟩⟩⟩

end WithLists

/-! ### Free lists -/

/-- The links lead from `first` through the blocks of `l` to `NULL`. -/
def FreeList (m : Mem) : Ptr → List Ptr → Prop
  | first, [] => first = 0
  | first, p :: l => first = p ∧ p ≠ 0 ∧ ∃ next, m.read p = .ok next ∧ FreeList m next l

section Lists

variable {m m' : Mem} {first : Ptr} {l l' : List Ptr}

theorem FreeList.congr (h : FreeList m first l) (hread : ∀ p ∈ l, m'.read p = m.read p) :
    FreeList m' first l := by
  induction l generalizing first with
  | nil => exact h
  | cons p l ih =>
    obtain ⟨hfirst, hp, next, hnext, hrest⟩ := h
    refine ⟨hfirst, hp, next, ?_, ih hrest fun q hq => hread q (List.mem_cons_of_mem p hq)⟩
    rw [hread p List.mem_cons_self]
    exact hnext

theorem FreeList.first_zero (h : FreeList m first l) : first = 0 ↔ l = [] := by
  cases l with
  | nil => exact ⟨fun _ => rfl, fun _ => h⟩
  | cons p l =>
    obtain ⟨rfl, hp, -⟩ := h
    exact ⟨fun hz => absurd hz hp, fun hnil => nomatch hnil⟩

end Lists

/-- The free lists in memory are `fl`. -/
structure Threaded (h : LinkedHeap) (D₀ : BitVec 20) (ρ : BitVec 20 → Role) (fl : Blocks) :
    Prop where
  dirs : Dirs h.mem D₀ ρ
  pages : HeapPages h.mem D₀ ρ
  lists : ∀ b, FreeList h.mem (h.bucket b) (fl b)
  inHeap : ∀ b, ∀ p ∈ fl b, h.mem.InHeap p

section Calls

variable {h h' : LinkedHeap} {m m' : Mem} {D₀ : BitVec 20} {ρ ρ' : BitVec 20 → Role} {fl L : Blocks}
  {S : Set ℕ} {p : Ptr} {size b : ℕ}

/-- The counters of `analysis` are no part of the pages. -/
theorem HeapStore.recount {a : ℕ → ℤ} (hs : HeapStore { m with analysis := a } m' D₀ ρ S) :
    HeapStore m { m' with analysis := m.analysis } D₀ ρ S :=
  ⟨hs.dirs.heapVars rfl rfl rfl ⟨rfl, rfl, rfl, rfl, rfl, rfl⟩, ⟨hs.pages.1, hs.pages.2.same rfl⟩,
    ⟨hs.frames.struct, hs.frames.list, hs.frames.hash, hs.frames.oom, hs.frames.pool,
      hs.frames.kend⟩,
    ⟨hs.vars.bucket, hs.vars.brk, rfl, hs.vars.cr3, hs.vars.kend, hs.vars.table, hs.vars.active⟩,
    hs.read⟩

/-- The counter that `heap_free` moves down. -/
def Mem.uncount (m : Mem) (b : ℕ) : Mem :=
  { m with analysis := Function.update m.analysis b (m.analysis b - 1) }

/-- **`heap_free`** of a block apart from the free ones puts it in front. -/
theorem Threaded.push (ht : Threaded h D₀ ρ fl) (hb : heapFindBucket size = b) (hlt : b < 16)
    (hp : h.mem.InHeap p) (hapart : ∀ c, ∀ q ∈ fl c, q.toNat / 4 ≠ p.toNat / 4) :
    ∃ h', h.heapFree p size = .ok h' ∧ Threaded h' D₀ ρ (fl.push b p) ∧
      HeapStore (h.mem.uncount b) h'.mem D₀ ρ {a | a / 4 = p.toNat / 4} := by
  have hdirs : Dirs (h.mem.uncount b) D₀ ρ :=
    ht.dirs.heapVars rfl rfl rfl ⟨rfl, rfl, rfl, rfl, rfl, rfl⟩
  have hpages : HeapPages (h.mem.uncount b) D₀ ρ := ⟨ht.pages.1, ht.pages.2.same rfl⟩
  obtain ⟨m', hwrite, hstore, hread⟩ := hpages.write hdirs hp (h.bucket b)
  refine ⟨⟨m', Function.update h.bucket b p⟩, ?_, ⟨hstore.dirs, hstore.pages, fun c => ?_,
    fun c q hq => ?_⟩, hstore⟩
  · unfold LinkedHeap.heapFree
    dsimp only
    rw [hb, if_neg (show ¬17 < b by omega)]
    exact bind_eq_ok.mpr ⟨m', hwrite, rfl⟩
  · -- the links of the other blocks are as they were
    have hold : FreeList m' (h.bucket c) (fl c) :=
      (ht.lists c).congr fun q hq => hstore.read q (ht.inHeap c q hq) (hapart c q hq)
    by_cases hc : c = b
    · subst hc
      simp only [Blocks.push, Function.update_self]
      refine ⟨rfl, ?_, h.bucket c, hread, hold⟩
      rintro rfl
      exact absurd hp.1 (by decide)
    · simp only [Blocks.push, Function.update_of_ne hc]
      exact hold
  · by_cases hc : c = b
    · subst hc
      simp only [Blocks.push, Function.update_self] at hq
      rcases List.mem_cons.mp hq with rfl | hq
      · exact hstore.inHeap hp
      · exact hstore.inHeap (ht.inHeap c q hq)
    · simp only [Blocks.push, Function.update_of_ne hc] at hq
      exact hstore.inHeap (ht.inHeap c q hq)

/-- **The loop of `heap_new_slab`**: the pieces go to the list one by one. -/
theorem Threaded.pieces {slab n : ℕ} (ht : Threaded h D₀ ρ fl) (hb : b < 16)
    (hlo : KERNEL_HEAP ≤ slab) (hdvd : 4 ∣ slab) (hroom : slab + n * blockSize b ≤ h.mem.brk)
    (hold : ∀ c, ∀ q ∈ fl c, q.toNat + 4 ≤ slab) :
    ∃ h', (List.range n).foldlM (LinkedHeap.slabPiece slab b) h = .ok h' ∧
      Threaded h' D₀ ρ (Function.update fl b
        (((List.range n).map (pieceAddr slab b)).reverse ++ fl b)) ∧
      HeapStore h.mem h'.mem D₀ ρ {a | slab ≤ a} := by
  obtain ⟨hbase, htop⟩ := heap_pages
  have hlast := ht.pages.2.top
  have hpage := ht.pages.1
  obtain ⟨c, hc⟩ : ∃ c, blockSize b = 4 * c := ⟨2 ^ b, rfl⟩
  have hpos : 0 < c := by
    have hblock : 0 < blockSize b := by simp [blockSize]
    omega
  have hpiece : ∀ i < n, (pieceAddr slab b i).toNat = slab + i * blockSize b ∧
      slab + i * blockSize b + blockSize b ≤ h.mem.brk := by
    intro i hi
    have hle : (i + 1) * blockSize b ≤ n * blockSize b := Nat.mul_le_mul_right _ hi
    rw [Nat.add_mul, one_mul] at hle
    exact ⟨pieceAddr_of_lt (by omega), by omega⟩
  refine foldlM_range_ok (P := fun k h' => Threaded h' D₀ ρ (Function.update fl b
      (((List.range k).map (pieceAddr slab b)).reverse ++ fl b)) ∧
    HeapStore h.mem h'.mem D₀ ρ {a | slab ≤ a}) ⟨?_, HeapStore.refl ht.dirs ht.pages⟩ ?_
  · simp only [List.range_zero, List.map_nil, List.reverse_nil, List.nil_append,
      Function.update_eq_self]
    exact ht
  · rintro k hk h₁ ⟨ht₁, hstore₁⟩
    obtain ⟨haddr, hend⟩ := hpiece k hk
    have hin : h₁.mem.InHeap (pieceAddr slab b k) :=
      hstore₁.inHeap ⟨by omega, by omega⟩
    have happart : ∀ d, ∀ q ∈ Function.update fl b
        (((List.range k).map (pieceAddr slab b)).reverse ++ fl b) d,
        q.toNat / 4 ≠ (pieceAddr slab b k).toNat / 4 := by
      intro d q hq
      have hq' : q ∈ fl d ∨ ∃ i < k, pieceAddr slab b i = q := by
        by_cases hd : d = b
        · subst hd
          rw [Function.update_self, List.mem_append, List.mem_reverse, List.mem_map] at hq
          simp only [List.mem_range] at hq
          exact hq.symm
        · rw [Function.update_of_ne hd] at hq
          exact Or.inl hq
      rcases hq' with hq | ⟨i, hi, rfl⟩
      · have := hold d q hq
        omega
      · -- an earlier piece ends where this one starts, or before
        have hle : (i + 1) * blockSize b ≤ k * blockSize b := Nat.mul_le_mul_right _ hi
        rw [Nat.add_mul, one_mul] at hle
        rw [(hpiece i (by omega)).1, haddr]
        omega
    obtain ⟨h₂, hfree, ht₂, hstore₂⟩ :=
      ht₁.push (heapFindBucket_pow hb) hb hin happart
    have hcount : Function.update h₂.mem.analysis b (h₂.mem.analysis b + 1) = h₁.mem.analysis := by
      rw [hstore₂.vars.analysis, Mem.uncount]
      simp only [Function.update_self, sub_add_cancel, Function.update_idem,
        Function.update_eq_self]
    have hrecount := hstore₂.recount
    rw [← hcount] at hrecount
    have hpush : Blocks.push (Function.update fl b
        (((List.range k).map (pieceAddr slab b)).reverse ++ fl b)) b (pieceAddr slab b k) =
        Function.update fl b (((List.range (k + 1)).map (pieceAddr slab b)).reverse ++ fl b) := by
      simp only [Blocks.push, Function.update_self, Function.update_idem, List.range_succ,
        List.map_append, List.reverse_append, List.map_cons, List.map_nil, List.reverse_singleton,
        List.cons_append, List.nil_append]
    rw [hpush] at ht₂
    refine ⟨_, bind_eq_ok.mpr ⟨h₂, hfree, rfl⟩, ⟨hrecount.dirs, hrecount.pages, fun d => ?_,
      ht₂.inHeap⟩, hstore₁.trans (hrecount.mono fun a ha => ?_)⟩
    · exact (ht₂.lists d).congr fun _ _ => rfl
    · rw [Set.mem_ofPred_eq] at ha ⊢
      omega

/-- A growing heap leaves the words below the old break. -/
theorem Grow.read (hg : Grow m m' D₀ ρ ρ' (m.brk / 4096)) (hp : HeapPages m D₀ ρ)
    (h : Dirs m D₀ ρ) (hp' : HeapPages m' D₀ ρ') (h' : Dirs m' D₀ ρ') (hbrk : m.brk ≤ m'.brk)
    {va : U32} (hva : m.InHeap va) : m'.read va = m.read va := by
  obtain ⟨hbase, -⟩ := heap_pages
  have hva' : m'.InHeap va := ⟨hva.1, hva.2.trans_le hbrk⟩
  obtain ⟨hpte, -, hrole⟩ := hp.pte_eq h hva
  obtain ⟨hpte', -⟩ := hp'.pte_eq h' hva'
  obtain ⟨hlo, hhi⟩ := hva
  have hpage := hp.1
  have hword := hg.words (va.toNat / 4096) (by omega) (by omega)
  rw [hp'.read_eq h' hva', hp.read_eq h ⟨hlo, hhi⟩, hpte', hword, ← hpte,
    hg.frames _ (by rw [hrole]; simp) (by rw [hrole]; simp)]

theorem HeapStore.withLists (hs : HeapStore m m' D₀ ρ S) (fl : Blocks) :
    HeapStore (m.withLists fl) (m'.withLists fl) D₀ ρ S :=
  ⟨hs.dirs.heapVars rfl rfl rfl ⟨rfl, rfl, rfl, rfl, rfl, rfl⟩, ⟨hs.pages.1, hs.pages.2.same rfl⟩,
    ⟨hs.frames.struct, hs.frames.list, hs.frames.hash, hs.frames.oom, hs.frames.pool,
      hs.frames.kend⟩,
    ⟨rfl, hs.vars.brk, hs.vars.analysis, hs.vars.cr3, hs.vars.kend, hs.vars.table,
      hs.vars.active⟩, hs.read⟩

/-- **`heap_new_slab`** does to the links what the list heap does to the lists. -/
theorem Threaded.slab {slab : ℕ} {m₂ : Mem} (ht : Threaded h D₀ ρ fl)
    (hinv : HeapInv (h.mem.withLists fl) L) (hb : b < 16)
    (hv : heapValloc h.mem (slabSize b) = .ok (slab, m₂)) :
    ∃ h₁ ρ' m₁, h.heapNewSlab b = .ok h₁ ∧ heapNewSlab (h.mem.withLists fl) b = .ok m₁ ∧
      Threaded h₁ D₀ ρ' m₁.heapBucket ∧
      HeapStore m₁ (h₁.mem.withLists m₁.heapBucket) D₀ ρ' Set.univ ∧ h.mem.brk ≤ h₁.mem.brk ∧
      (∀ va, h.mem.InHeap va → h₁.mem.read va = h.mem.read va) ∧
      ∀ g, ρ g ≠ .avail → ρ' g = ρ g := by
  obtain ⟨hsize, hdvd⟩ := slabSize_eq hb
  have hpos : 0 < slabSize b := by
    rw [← hsize]
    exact Nat.mul_pos (slabSize_pos hb) (by simp [blockSize])
  obtain ⟨ρ', hdirs, hpages, hgrow⟩ := ht.pages.valloc ht.dirs hdvd hpos hv
  obtain ⟨rfl, -, m₃, hvars, hm₂⟩ := heapValloc_ok hv
  have hbrk : m₂.brk = h.mem.brk + slabSize b := by rw [hm₂]
  have hread : ∀ va, h.mem.InHeap va → m₂.read va = h.mem.read va := fun va hva =>
    hgrow.read ht.pages ht.dirs hpages hdirs (by omega) hva
  have ht₂ : Threaded ⟨m₂, h.bucket⟩ D₀ ρ' fl := by
    refine ⟨hdirs, hpages, fun c => ?_, fun c q hq => ?_⟩
    · exact (ht.lists c).congr fun q hq => hread q (ht.inHeap c q hq)
    · obtain ⟨hlo, hhi⟩ := ht.inHeap c q hq
      exact ⟨hlo, by rw [hbrk]; omega⟩
  have hold : ∀ c, ∀ q ∈ fl c, q.toNat + 4 ≤ h.mem.brk := by
    intro c q hq
    have hin := (hinv.packed.inside (c, q.toNat) ⟨q, List.mem_append_left _ hq, rfl⟩).2
    have hblock : 1 ≤ 2 ^ c := Nat.one_le_two_pow
    have hle : q.toNat + blockSize c ≤ h.mem.brk := hin
    rw [blockSize] at hle
    omega
  have hpage := ht.pages.1
  obtain ⟨h₁, hloop, ht₁, hstore⟩ := ht₂.pieces hb (show KERNEL_HEAP ≤ h.mem.brk from hinv.base)
    (by omega) (show h.mem.brk + _ * blockSize b ≤ m₂.brk by rw [hbrk, hsize]) hold
  set fl₁ := Function.update fl b (((List.range (slabSize b / (4 * 2 ^ b))).map
    (pieceAddr h.mem.brk b)).reverse ++ fl b) with hfl₁
  refine ⟨h₁, ρ', m₂.withLists fl₁, bind_eq_ok.mpr ⟨_, hv, hloop⟩,
    bind_eq_ok.mpr ⟨(h.mem.brk, m₂.withLists fl), heapValloc_lists hv, ?_⟩, ht₁,
    (hstore.withLists fl₁).mono fun _ _ => Set.mem_univ _, ?_,
    fun va hva => ?_, hgrow.roles⟩
  · dsimp only
    rw [slabPieces_eq _ hb]
    rfl
  · rw [hstore.vars.brk]
    show h.mem.brk ≤ m₂.brk
    omega
  · obtain ⟨hlo, hhi⟩ := hva
    rw [hstore.read va ⟨hlo, by show _ < m₂.brk; omega⟩, hread va ⟨hlo, hhi⟩]
    rw [Set.mem_ofPred_eq, not_le]
    exact hhi

/-! ### The calls -/

/-- An address in a block lies in no other block. -/
theorem HeapInv.outside (hinv : HeapInv m L) {c a : ℕ} {q : Ptr}
    (hp : p ∈ m.heapBucket b ++ L b) (hq : q ∈ m.heapBucket c ++ L c) (hne : ¬(c = b ∧ q = p))
    (hlo : q.toNat ≤ a) (hhi : a < q.toNat + blockSize c) :
    ¬(p.toNat ≤ a ∧ a < p.toNat + blockSize b) := by
  have hxy : ((b, p.toNat) : ℕ × ℕ) ≠ (c, q.toNat) := by
    intro he
    obtain ⟨hbc, hpq⟩ := Prod.mk.inj he
    exact hne ⟨hbc.symm, (BitVec.eq_of_toNat_eq hpq).symm⟩
  have happart := hinv.packed.apart (b, p.toNat) ⟨p, hp, rfl⟩ (c, q.toNat) ⟨q, hq, rfl⟩ hxy
  dsimp only at happart
  omega

/-- Blocks start at words and are made of words. -/
theorem HeapInv.words (hinv : HeapInv m L) (hp : p ∈ m.heapBucket b ++ L b) :
    4 ∣ p.toNat ∧ 4 ≤ blockSize b ∧ 4 ∣ blockSize b := by
  have hdvd : 4 ∣ blockSize b := ⟨2 ^ b, rfl⟩
  have hpos : 0 < blockSize b := by simp [blockSize]
  refine ⟨dvd_trans ?_ (hinv.aligned (b, p.toNat) ⟨p, hp, rfl⟩), Nat.le_of_dvd hpos hdvd, hdvd⟩
  rcases min_choice (blockSize b) 4096 with hmin | hmin
  · rw [hmin]
    exact hdvd
  · rw [hmin]
    decide

/-- The counter that `heap_alloc` moves up. -/
def Mem.count (m : Mem) (b : ℕ) : Mem :=
  { m with analysis := Function.update m.analysis b (m.analysis b + 1) }

/-- The addresses of a block. -/
def blockAt (b : ℕ) (p : Ptr) : Set ℕ := {a | p.toNat ≤ a ∧ a < p.toNat + blockSize b}

/-- Taking the first block of a list, and clearing it. -/
theorem Threaded.pop (ht : Threaded h D₀ ρ fl) (hinv : HeapInv (h.mem.withLists fl) L)
    (hne : h.bucket b ≠ 0) :
    ∃ rest next m', fl b = h.bucket b :: rest ∧ h.mem.read (h.bucket b) = .ok next ∧
      (memclr (h.mem.count b) (h.bucket b) (BitVec.ofNat 32 (4 * 2 ^ b))).out = .ok m' ∧
      Threaded ⟨m', Function.update h.bucket b next⟩ D₀ ρ (Function.update fl b rest) ∧
      HeapStore (h.mem.count b) m' D₀ ρ (blockAt b (h.bucket b)) ∧
      ∀ va : U32, va.toNat ∈ blockAt b (h.bucket b) → m'.readByte va = .ok 0 := by
  obtain ⟨p, rest, hfl⟩ :=
    List.exists_cons_of_ne_nil fun hnil => hne ((ht.lists b).first_zero.mpr hnil)
  have hlist := ht.lists b
  rw [hfl] at hlist
  obtain ⟨hfirst, -, next, hread, hrest⟩ := hlist
  rw [hfirst]
  have hmem : p ∈ fl b := by
    rw [hfl]
    exact List.mem_cons_self
  have hp : p ∈ (h.mem.withLists fl).heapBucket b ++ L b := List.mem_append_left _ hmem
  obtain ⟨hp₄, -, hb₄⟩ := hinv.words hp
  obtain ⟨hlo, hhi⟩ := hinv.packed.inside (b, p.toNat) ⟨p, hp, rfl⟩
  have hdirs : Dirs (h.mem.count b) D₀ ρ :=
    ht.dirs.heapVars rfl rfl rfl ⟨rfl, rfl, rfl, rfl, rfl, rfl⟩
  have hpages : HeapPages (h.mem.count b) D₀ ρ := ⟨ht.pages.1, ht.pages.2.same rfl⟩
  obtain ⟨m', hclear, hstore, hzero⟩ := hpages.clear hdirs hlo hhi hp₄ hb₄
  have hnodup := (List.nodup_append.mp (hinv.nodup b)).1
  rw [show (h.mem.withLists fl).heapBucket b = p :: rest from hfl] at hnodup
  -- the other free blocks are not cleared
  have hsub : ∀ c, ∀ q ∈ Function.update fl b rest c, q ∈ fl c ∧ ¬(c = b ∧ q = p) := by
    intro c q hq
    by_cases hc : c = b
    · subst hc
      rw [Function.update_self] at hq
      refine ⟨hfl ▸ List.mem_cons_of_mem p hq, fun he => ?_⟩
      exact (List.nodup_cons.mp hnodup).1 (he.2 ▸ hq)
    · rw [Function.update_of_ne hc] at hq
      exact ⟨hq, fun he => hc he.1⟩
  have hkeep : ∀ c, ∀ q ∈ Function.update fl b rest c, m'.read q = h.mem.read q := by
    intro c q hq
    obtain ⟨hmem, hother⟩ := hsub c q hq
    have hq' : q ∈ (h.mem.withLists fl).heapBucket c ++ L c := List.mem_append_left _ hmem
    refine hstore.read q (ht.inHeap c q hmem) ?_
    exact hinv.outside hp hq' hother le_rfl (by have := (hinv.words hq').2.1; omega)
  refine ⟨rest, next, m', hfl, hread, hclear, ⟨hstore.dirs, hstore.pages, fun c => ?_,
    fun c q hq => hstore.inHeap (ht.inHeap c q (hsub c q hq).1)⟩, hstore,
    fun va hva => hzero va hva.1 hva.2⟩
  by_cases hc : c = b
  · subst hc
    have hlinks := hkeep c
    rw [Function.update_self] at hlinks
    simp only [Function.update_self]
    exact hrest.congr hlinks
  · have hlinks := hkeep c
    rw [Function.update_of_ne hc] at hlinks
    simp only [Function.update_of_ne hc]
    exact (ht.lists c).congr hlinks

theorem HeapStore.count (hs : HeapStore m m' D₀ ρ S) (b : ℕ) :
    HeapStore (m.count b) (m'.count b) D₀ ρ S := by
  refine ⟨hs.dirs.heapVars rfl rfl rfl ⟨rfl, rfl, rfl, rfl, rfl, rfl⟩,
    ⟨hs.pages.1, hs.pages.2.same rfl⟩, ⟨hs.frames.struct, hs.frames.list, hs.frames.hash,
      hs.frames.oom, hs.frames.pool, hs.frames.kend⟩,
    ⟨hs.vars.bucket, hs.vars.brk, ?_, hs.vars.cr3, hs.vars.kend, hs.vars.table, hs.vars.active⟩,
    hs.read⟩
  unfold Mem.count
  rw [hs.vars.analysis]

/-- What a call of `heap_alloc` does that returns `p`: what the list heap does, and `m'` is its
memory, but the block is cleared. -/
structure Allocated (h : LinkedHeap) (D₀ : BitVec 20) (ρ : BitVec 20 → Role) (fl : Blocks)
    (size : ℕ) (p : Ptr) (h' : LinkedHeap) (ρ' : BitVec 20 → Role) (m' : Mem) : Prop where
  list : heapAlloc (h.mem.withLists fl) size = .ok (some p, m')
  threaded : Threaded h' D₀ ρ' m'.heapBucket
  store : HeapStore m' (h'.mem.withLists m'.heapBucket) D₀ ρ' Set.univ
  zero : ∀ va : U32, va.toNat ∈ blockAt (heapFindBucket size) p → h'.mem.readByte va = .ok 0
  read : ∀ va, h.mem.InHeap va → va.toNat ∉ blockAt (heapFindBucket size) p →
    h'.mem.read va = h.mem.read va
  roles : ∀ g, ρ g ≠ .avail → ρ' g = ρ g

/-- **`heap_alloc`**: it refuses, stops in `heap_valloc`, or returns a block. -/
theorem Threaded.alloc (ht : Threaded h D₀ ρ fl) (hinv : HeapInv (h.mem.withLists fl) L)
    (size : ℕ) :
    (¬heapFindBucket size < 16 ∧ h.heapAlloc size = .ok (none, h)) ∨
    (heapFindBucket size < 16 ∧ fl (heapFindBucket size) = [] ∧
      ∃ e, heapValloc h.mem (slabSize (heapFindBucket size)) = .error e ∧
        h.heapAlloc size = .error e) ∨
    heapFindBucket size < 16 ∧ ∃ p h' ρ' m', h.heapAlloc size = .ok (some p, h') ∧
      Allocated h D₀ ρ fl size p h' ρ' m' := by
  unfold LinkedHeap.heapAlloc
  dsimp only
  by_cases hb : heapFindBucket size < 16
  · right
    set b := heapFindBucket size with hbdef
    rw [if_neg (show ¬16 < b by omega)]
    -- the list is not empty after `heap_new_slab`
    have hslab : (∃ e, heapValloc h.mem (slabSize b) = .error e ∧ h.bucket b = 0) ∨ ∃ h₁ ρ₁ m₁,
        (h.bucket b = 0 ∧ h.heapNewSlab b = .ok h₁ ∧ fl b = [] ∧
            heapNewSlab (h.mem.withLists fl) b = .ok m₁ ∨
          h.bucket b ≠ 0 ∧ h₁ = h ∧ fl b ≠ [] ∧ m₁ = h.mem.withLists fl) ∧ h₁.bucket b ≠ 0 ∧
        Threaded h₁ D₀ ρ₁ m₁.heapBucket ∧ HeapInv m₁ L ∧
        HeapStore m₁ (h₁.mem.withLists m₁.heapBucket) D₀ ρ₁ Set.univ ∧
        h.mem.brk ≤ h₁.mem.brk ∧ (∀ va, h.mem.InHeap va → h₁.mem.read va = h.mem.read va) ∧
        ∀ g, ρ g ≠ .avail → ρ₁ g = ρ g := by
      by_cases hz : h.bucket b = 0
      · cases hv : heapValloc h.mem (slabSize b) with
        | error e => exact Or.inl ⟨e, rfl, hz⟩
        | ok a =>
          obtain ⟨h₁, ρ₁, m₁, hs, hlist, ht₁, hstore, hbrk, hread, hroles⟩ := ht.slab hinv hb hv
          refine Or.inr ⟨h₁, ρ₁, m₁, Or.inl ⟨hz, hs, (ht.lists b).first_zero.mp hz, hlist⟩,
            fun hz₁ => ?_, ht₁, (hinv.slab hb hlist).1, hstore, hbrk, hread, hroles⟩
          exact heapNewSlab_ne_nil hb hlist ((ht₁.lists b).first_zero.mp hz₁)
      · refine Or.inr ⟨h, ρ, h.mem.withLists fl, Or.inr ⟨hz, rfl, fun hnil => ?_, rfl⟩, hz, ht, hinv,
          (HeapStore.refl ht.dirs ht.pages).withLists fl, le_rfl, fun _ _ => rfl, fun _ _ => rfl⟩
        exact hz ((ht.lists b).first_zero.mpr hnil)
    rcases hslab with ⟨e, hv, hz⟩ | ⟨h₁, ρ₁, m₁, hslab, hne, ht₁, hinv₁, hstore₁, hbrk, hread,
      hroles⟩
    · left
      refine ⟨hb, (ht.lists b).first_zero.mp hz, e, hv, ?_⟩
      rw [if_pos hz, LinkedHeap.heapNewSlab, hv]
      rfl
    · right
      have hinv₁' : HeapInv (h₁.mem.withLists m₁.heapBucket) L := hinv₁.same hstore₁.vars.heap
      obtain ⟨rest, next, m₂, hfl, hnext, hclear, ht₂, hstore₂, hzero⟩ := ht₁.pop hinv₁' hne
      set p := h₁.bucket b with hp
      refine ⟨hb, p, ⟨m₂, Function.update h₁.bucket b next⟩, ρ₁,
        (m₁.count b).withLists (Function.update m₁.heapBucket b rest), ?_, ?_, ht₂, ?_, hzero,
        fun va hva hout => ?_, hroles⟩
      · rcases hslab with ⟨hz, hs, -⟩ | ⟨hz, rfl, -⟩
        · rw [if_pos hz]
          refine bind_eq_ok.mpr ⟨h₁, hs, (if_neg hne).trans ?_⟩
          exact bind_eq_ok.mpr ⟨next, hnext, bind_eq_ok.mpr ⟨m₂, hclear, rfl⟩⟩
        · rw [if_neg hz, pure_bind]
          refine (if_neg hne).trans ?_
          exact bind_eq_ok.mpr ⟨next, hnext, bind_eq_ok.mpr ⟨m₂, hclear, rfl⟩⟩
      · unfold heapAlloc
        dsimp only
        rw [← hbdef, if_neg (show ¬16 < b by omega)]
        rcases hslab with ⟨-, -, hnil, hlist⟩ | ⟨-, -, hcons, rfl⟩
        · rw [if_pos (show (h.mem.withLists fl).heapBucket b = [] from hnil)]
          refine bind_eq_ok.mpr ⟨m₁, hlist, ?_⟩
          rw [hfl]
          rfl
        · rw [if_neg (show ¬(h.mem.withLists fl).heapBucket b = [] from hcons), pure_bind, hfl]
          rfl
      · have hlists := ((hstore₁.count b).withLists (Function.update m₁.heapBucket b rest))
        exact hlists.trans ((hstore₂.withLists _).mono fun _ _ => Set.mem_univ _)
      · rw [hstore₂.read va ⟨hva.1, hva.2.trans_le hbrk⟩ hout]
        exact hread va hva
  · left
    exact ⟨hb, if_pos (by rw [heapFindBucket_large hb]; omega)⟩

end Calls

end Pinion
