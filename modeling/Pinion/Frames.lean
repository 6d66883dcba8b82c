/-
The frame allocator.

Frame structures lie on one free list, linked by `next` with stale `prev` links, and in
256 hash buckets, linked both ways.

* `FrameInv m F` — `F.free` is on the free list and `F.used h` in bucket `h`, every
  structure on one of them, and no two for one frame;
* `FrameInv.find_cases` — the search meets the frames in use;
* `FrameInv.takeFrame`, `FrameInv.pool` — `frame_new` from the list and from the boot
  pool;
* `FrameInv.free_cases`, `FrameInv.giveFrame`, `FrameInv.setRefc` — `frame_free` and
  `frame_ref`;
* `FrameInv.addFrame` — `frame_add`;
* `News` — what the heap does with frames: it only takes new ones.
-/
import Pinion.HeapBlocks
import Pinion.DoubleList

open Runs DoubleList

namespace Pinion

/-! ### Links and fields -/

def Mem.nextOf (m : Mem) (p : Ptr) : Option Ptr := (m.frameStruct p).next

def Mem.prevOf (m : Mem) (p : Ptr) : Option Ptr := (m.frameStruct p).prev

def Mem.addrOf (m : Mem) (p : Ptr) : U32 := (m.frameStruct p).addr

def Mem.refcOf (m : Mem) (p : Ptr) : U32 := (m.frameStruct p).refc

/-- The bucket of a frame number. -/
def bucketOf (addr : U32) : ℕ := (addr &&& 0xFF).toNat

section Fields

variable (m : Mem) (p b : Ptr) (o v : Option Ptr) (f : FrameStruct → FrameStruct)

theorem setFrame_apply :
    (m.setFrame p f).frameStruct b = if b = p then f (m.frameStruct p) else m.frameStruct b := by
  unfold Mem.setFrame
  by_cases h : b = p
  · rw [h, if_pos rfl]
    exact Function.update_self _ _ _
  · rw [if_neg h]
    exact Function.update_of_ne h _ _

/-- `setPrev` writes one `prev` link. -/
theorem setPrev_apply : (m.setPrev o v).frameStruct b =
    if o = some b then { m.frameStruct b with prev := v } else m.frameStruct b := by
  cases o with
  | none => rfl
  | some q =>
    rw [Mem.setPrev, setFrame_apply]
    by_cases h : b = q
    · rw [if_pos h, if_pos (by rw [h]), h]
    · rw [if_neg h, if_neg (by rintro ⟨⟩; exact h rfl)]

theorem setPrev_vals : (m.setPrev o v).frameList = m.frameList ∧
    (m.setPrev o v).frameHash = m.frameHash ∧ (m.setPrev o v).outOfMemory = m.outOfMemory ∧
    (m.setPrev o v).oomPool = m.oomPool ∧ (m.setPrev o v).kend = m.kend := by
  cases o <;> exact ⟨rfl, rfl, rfl, rfl, rfl⟩

theorem setPrev_phys : (m.setPrev o v).phys = m.phys := by
  cases o <;> rfl

end Fields

/-- The variables of the frame allocator are the same. -/
structure SameFrames (m m' : Mem) : Prop where
  struct : m'.frameStruct = m.frameStruct
  list : m'.frameList = m.frameList
  hash : m'.frameHash = m.frameHash
  oom : m'.outOfMemory = m.outOfMemory
  pool : m'.oomPool = m.oomPool
  kend : m'.kend = m.kend

theorem SameFrames.refl (m : Mem) : SameFrames m m := ⟨rfl, rfl, rfl, rfl, rfl, rfl⟩

/-! ### The invariant -/

/-- The frame structures: those that are free, and those in use by bucket. -/
structure FrameLists where
  free : List Ptr
  used : ℕ → List Ptr

/-- The structure is on one of the lists. -/
def FrameLists.Node (F : FrameLists) (p : Ptr) : Prop := p ∈ F.free ∨ ∃ h, p ∈ F.used h

structure FrameInv (m : Mem) (F : FrameLists) : Prop where
  path : Path m.nextOf m.frameList F.free
  linked : ∀ h, Linked m.nextOf m.prevOf none (m.frameHash h) (F.used h)
  hashed : ∀ h, ∀ p ∈ F.used h, bucketOf (m.addrOf p) = h
  counted : ∀ h, ∀ p ∈ F.used h, m.refcOf p ≠ 0
  freeNodup : F.free.Nodup
  usedNodup : ∀ h, (F.used h).Nodup
  apart : ∀ h, ∀ p ∈ F.free, p ∉ F.used h
  inj : ∀ p q, F.Node p → F.Node q → m.addrOf p = m.addrOf q → p = q
  bound : ∀ p, F.Node p → 0x800 ≤ m.addrOf p ∧ m.addrOf p < 0x100000
  oom : m.outOfMemory = true → F.free = []
  poolPage : 4096 ∣ m.oomPool.toNat
  poolTop : m.oomPool ≤ KERNEL_BOOT_SIZE
  poolPos : m.oomPool ≠ 0

theorem FrameInv.same {m m' : Mem} {F : FrameLists} (h : FrameInv m F) (hs : SameFrames m m') :
    FrameInv m' F := by
  obtain ⟨hstruct, hlist, hhash, hoom, hpool, -⟩ := hs
  have hn : m'.nextOf = m.nextOf := by funext p; rw [Mem.nextOf, hstruct, Mem.nextOf]
  have hp : m'.prevOf = m.prevOf := by funext p; rw [Mem.prevOf, hstruct, Mem.prevOf]
  have ha : m'.addrOf = m.addrOf := by funext p; rw [Mem.addrOf, hstruct, Mem.addrOf]
  have hr : m'.refcOf = m.refcOf := by funext p; rw [Mem.refcOf, hstruct, Mem.refcOf]
  refine ⟨?_, ?_, ?_, ?_, h.freeNodup, h.usedNodup, h.apart, ?_, ?_, ?_, ?_, ?_, ?_⟩
  · rw [hn, hlist]; exact h.path
  · rw [hn, hp, hhash]; exact h.linked
  · rw [ha]; exact h.hashed
  · rw [hr]; exact h.counted
  · rw [ha]; exact h.inj
  · rw [ha]; exact h.bound
  · rw [hoom]; exact h.oom
  · rw [hpool]; exact h.poolPage
  · rw [hpool]; exact h.poolTop
  · rw [hpool]; exact h.poolPos

/-- There is one way to read the lists off from memory. -/
theorem FrameInv.unique {m : Mem} {F F' : FrameLists} (h : FrameInv m F) (h' : FrameInv m F') :
    F = F' := by
  obtain ⟨free, used⟩ := F
  obtain ⟨free', used'⟩ := F'
  have hfree : free = free' := h.path.unique h'.path
  have hused : used = used' := funext fun k => (h.linked k).path.unique (h'.linked k).path
  rw [hfree, hused]

/-- A structure in use is in the bucket of its frame. -/
theorem FrameInv.mem_bucket {m : Mem} {F : FrameLists} (h : FrameInv m F) {k : ℕ} {p : Ptr}
    (hp : p ∈ F.used k) : p ∈ F.used (bucketOf (m.addrOf p)) := by
  rw [h.hashed k p hp]
  exact hp

/-! ### The search -/

theorem frameScan_path {fs : Ptr → FrameStruct} {addr : U32} {l : List Ptr} :
    ∀ {n : ℕ} {first : Option Ptr}, Path (fun p => (fs p).next) first l → l.length < n →
      frameScan fs addr n first = .ok (l.find? fun p => (fs p).addr = addr) := by
  induction l with
  | nil =>
    intro n first h hn
    obtain ⟨n, rfl⟩ := Nat.exists_eq_add_of_lt hn
    rw [show first = none from h]
    simp [frameScan]
  | cons a l ih =>
    intro n first h hn
    cases n with
    | zero => exact absurd hn (by simp)
    | succ n =>
      rw [h.1, frameScan, List.find?_cons]
      by_cases ha : (fs a).addr = addr
      · rw [if_pos ha, decide_eq_true ha]
      · rw [if_neg ha, decide_eq_false ha]
        exact ih h.2 (by simpa using hn)

/-- A bucket holds no more structures than there are frames. -/
theorem FrameInv.length_used {m : Mem} {F : FrameLists} (h : FrameInv m F) (k : ℕ) :
    (F.used k).length < addressSpace := by
  have hnodup : ((F.used k).map fun p => (m.addrOf p).toNat).Nodup := by
    refine (h.usedNodup k).map_on fun p hp q hq heq => ?_
    exact h.inj p q (Or.inr ⟨k, hp⟩) (Or.inr ⟨k, hq⟩) (BitVec.eq_of_toNat_eq heq)
  have hsub : ((F.used k).map fun p => (m.addrOf p).toNat) ⊆ List.range 0x100000 := by
    intro n hn
    obtain ⟨p, hp, rfl⟩ := List.mem_map.mp hn
    exact List.mem_range.mpr (BitVec.lt_def.mp (h.bound p (Or.inr ⟨k, hp⟩)).2)
  have hle := (hnodup.subperm hsub).length_le
  rw [List.length_map, List.length_range] at hle
  exact hle.trans_lt (by decide)

theorem FrameInv.find {m : Mem} {F : FrameLists} (h : FrameInv m F) (frame : U32) :
    frameFind m frame =
      .ok ((F.used (bucketOf (frame / PAGESZ))).find? fun p => m.addrOf p = frame / PAGESZ) :=
  frameScan_path (h.linked _).path (h.length_used _)

/-- The search meets the structure of a frame in use, and none for another frame. -/
theorem FrameInv.find_cases {m : Mem} {F : FrameLists} (h : FrameInv m F) (frame : U32) :
    (∃ p ∈ F.used (bucketOf (frame / PAGESZ)), m.addrOf p = frame / PAGESZ ∧
      frameFind m frame = .ok (some p)) ∨
    (∀ k, ∀ p ∈ F.used k, m.addrOf p ≠ frame / PAGESZ) ∧ frameFind m frame = .ok none := by
  rw [h.find]
  cases hf : (F.used (bucketOf (frame / PAGESZ))).find? fun p => m.addrOf p = frame / PAGESZ with
  | none =>
    refine Or.inr ⟨fun k p hp ha => ?_, rfl⟩
    have hmem := h.mem_bucket hp
    rw [ha] at hmem
    have hnot := List.find?_eq_none.mp hf p hmem
    exact hnot (decide_eq_true ha)
  | some p =>
    have ha := List.find?_some hf
    exact Or.inl ⟨p, List.mem_of_find?_eq_some hf, of_decide_eq_true ha, rfl⟩

/-! ### `frame_new` -/

/-- The allocator turns to the boot pool only when no frame is free. -/
theorem FrameInv.free_nil {m : Mem} {F : FrameLists} (h : FrameInv m F)
    (hempty : m.outOfMemory = true ∨ m.frameList = none) : F.free = [] := by
  rcases hempty with ht | hnone
  · exact h.oom ht
  · have hhead := h.path.head
    rw [hnone] at hhead
    exact List.head?_eq_none_iff.mp hhead.symm

/-- The boot pool: the next frame below the last one, or a panic. -/
theorem frameNewOom_ok {m m' : Mem} {f : U32} (h : frameNewOom m = .ok (f, m')) :
    f = m.oomPool - PAGESZ ∧ m.kend - KERNEL_ADDR_BASE < f ∧ m' = { m with oomPool := f } := by
  unfold frameNewOom at h
  dsimp only at h
  split at h
  · cases h
  · rename_i hroom
    cases h
    exact ⟨rfl, BitVec.not_le.mp hroom, rfl⟩

theorem FrameInv.pool_sub {m : Mem} {F : FrameLists} (h : FrameInv m F) :
    4096 ≤ m.oomPool.toNat ∧ (m.oomPool - PAGESZ).toNat = m.oomPool.toNat - 4096 := by
  have hpos : 0 < m.oomPool.toNat :=
    Nat.pos_of_ne_zero fun hz => h.poolPos (BitVec.eq_of_toNat_eq hz)
  have hge : PAGESZ.toNat ≤ m.oomPool.toNat := Nat.le_of_dvd hpos h.poolPage
  refine ⟨hge, ?_⟩
  rw [BitVec.toNat_sub_of_le (BitVec.le_def.mpr hge)]
  rfl

theorem FrameInv.pool {m m' : Mem} {F : FrameLists} {f : U32} (h : FrameInv m F)
    (hf : F.free = []) (hoom : frameNewOom { m with outOfMemory := true } = .ok (f, m')) :
    FrameInv m' F ∧ f = m.oomPool - PAGESZ ∧ m.kend - KERNEL_ADDR_BASE < f ∧
      m' = { m with outOfMemory := true, oomPool := f } := by
  obtain ⟨rfl, hroom, rfl⟩ := frameNewOom_ok hoom
  have hsub := h.pool_sub.2
  have htop := BitVec.le_def.mp h.poolTop
  refine ⟨⟨h.path, h.linked, h.hashed, h.counted, h.freeNodup, h.usedNodup, h.apart, h.inj,
    h.bound, fun _ => hf, ?_, ?_, ?_⟩, rfl, hroom, rfl⟩
  · show 4096 ∣ (m.oomPool - PAGESZ).toNat
    rw [hsub]
    exact Nat.dvd_sub h.poolPage (dvd_refl 4096)
  · show m.oomPool - PAGESZ ≤ KERNEL_BOOT_SIZE
    rw [BitVec.le_def, hsub]
    omega
  · show m.oomPool - PAGESZ ≠ 0
    intro hz
    have hlt := BitVec.lt_def.mp hroom
    rw [show (m.oomPool - PAGESZ) = 0 from hz] at hlt
    exact absurd hlt (Nat.not_lt_zero _)

/-- Taking the first structure of the free list into the bucket of its frame. -/
def Mem.takeFrame (m : Mem) (fs : Ptr) : Mem :=
  let h := bucketOf (m.addrOf fs)
  let m := { m with frameList := m.nextOf fs }
  let m := m.setFrame fs fun g => { g with next := m.frameHash h, prev := none, refc := 1 }
  let m := m.setPrev (m.frameHash h) (some fs)
  { m with frameHash := Function.update m.frameHash h (some fs) }

theorem frameNew_cases {m m' : Mem} {f : U32} (h : frameNew m = .ok (f, m')) :
    ((m.outOfMemory = true ∨ m.frameList = none) ∧
        frameNewOom { m with outOfMemory := true } = .ok (f, m')) ∨
      ∃ fs, m.outOfMemory = false ∧ m.frameList = some fs ∧ f = m.addrOf fs * PAGESZ ∧
        m' = m.takeFrame fs := by
  unfold frameNew at h
  by_cases hoom : m.outOfMemory = true
  · rw [if_pos hoom] at h
    have hm : { m with outOfMemory := true } = m := by rw [← hoom]
    exact Or.inl ⟨Or.inl hoom, hm ▸ h⟩
  · rw [if_neg hoom] at h
    split at h
    · rename_i hlist
      exact Or.inl ⟨Or.inr hlist, h⟩
    · rename_i fs hlist
      cases h
      exact Or.inr ⟨fs, by simpa using hoom, hlist, rfl, rfl⟩

theorem frameNew_oom {m : Mem} (h : m.outOfMemory = true ∨ m.frameList = none) :
    frameNew m = frameNewOom { m with outOfMemory := true } := by
  unfold frameNew
  by_cases hoom : m.outOfMemory = true
  · rw [if_pos hoom, ← hoom]
  · rw [if_neg hoom, h.resolve_left hoom]

theorem frameNew_list {m : Mem} {fs : Ptr} (hoom : m.outOfMemory = false)
    (hlist : m.frameList = some fs) :
    frameNew m = .ok (m.addrOf fs * PAGESZ, m.takeFrame fs) := by
  unfold frameNew
  rw [if_neg (by rw [hoom]; exact Bool.false_ne_true)]
  split
  · rename_i hnone
    cases hlist.symm.trans hnone
  · rename_i fs' hsome
    cases hlist.symm.trans hsome
    rfl

section Take

variable (m : Mem) (fs b : Ptr)

theorem takeFrame_struct : (m.takeFrame fs).frameStruct b =
    if m.frameHash (bucketOf (m.addrOf fs)) = some b then
      { (if b = fs then { m.frameStruct fs with
          next := m.frameHash (bucketOf (m.addrOf fs)), prev := none, refc := 1 }
        else m.frameStruct b) with prev := some fs }
    else if b = fs then { m.frameStruct fs with
      next := m.frameHash (bucketOf (m.addrOf fs)), prev := none, refc := 1 }
    else m.frameStruct b := by
  unfold Mem.takeFrame
  dsimp only
  rw [setPrev_apply, setFrame_apply]
  rfl

theorem takeFrame_vals : (m.takeFrame fs).frameList = m.nextOf fs ∧
    (m.takeFrame fs).frameHash =
      Function.update m.frameHash (bucketOf (m.addrOf fs)) (some fs) ∧
    (m.takeFrame fs).outOfMemory = m.outOfMemory ∧ (m.takeFrame fs).oomPool = m.oomPool ∧
    (m.takeFrame fs).kend = m.kend := by
  unfold Mem.takeFrame
  dsimp only
  obtain ⟨hlist, hhash, hoom, hpool, hkend⟩ := setPrev_vals
    (({ m with frameList := m.nextOf fs } : Mem).setFrame fs fun g =>
      { g with next := m.frameHash (bucketOf (m.addrOf fs)), prev := none, refc := 1 })
    (m.frameHash (bucketOf (m.addrOf fs))) (some fs)
  refine ⟨hlist, ?_, hoom, hpool, hkend⟩
  exact congrArg (Function.update · (bucketOf (m.addrOf fs)) (some fs)) hhash

theorem takeFrame_addr : (m.takeFrame fs).addrOf b = m.addrOf b := by
  rw [Mem.addrOf, takeFrame_struct]
  split
  · split
    · rename_i hb
      rw [hb]
      rfl
    · rfl
  · split
    · rename_i hb
      rw [hb]
      rfl
    · rfl

theorem takeFrame_refc : (m.takeFrame fs).refcOf b = if b = fs then 1 else m.refcOf b := by
  rw [Mem.refcOf, takeFrame_struct]
  split
  · split
    · rfl
    · rfl
  · split
    · rfl
    · rfl

theorem takeFrame_next : (m.takeFrame fs).nextOf b =
    if b = fs then m.frameHash (bucketOf (m.addrOf fs)) else m.nextOf b := by
  rw [Mem.nextOf, takeFrame_struct]
  split
  · split
    · rfl
    · rfl
  · split
    · rfl
    · rfl

end Take

/-- The first free structure comes into use. -/
def FrameLists.take (F : FrameLists) (h : ℕ) (p : Ptr) : FrameLists :=
  ⟨F.free.tail, Function.update F.used h (p :: F.used h)⟩

theorem FrameLists.mem_take {F : FrameLists} {h k : ℕ} {p q : Ptr} :
    q ∈ (F.take h p).used k ↔ (k = h ∧ q = p) ∨ q ∈ F.used k := by
  unfold FrameLists.take
  by_cases hk : k = h
  · subst hk
    simp only [Function.update_self, List.mem_cons, true_and]
  · simp only [Function.update_of_ne hk, hk, false_and, false_or]

theorem FrameLists.take_node {F : FrameLists} {h : ℕ} {p q : Ptr} {rest : List Ptr}
    (hf : F.free = p :: rest) : (F.take h p).Node q ↔ F.Node q := by
  have hfree : q ∈ F.free ↔ q = p ∨ q ∈ rest := by rw [hf, List.mem_cons]
  have htail : (F.take h p).free = rest := by rw [FrameLists.take, hf, List.tail_cons]
  simp only [FrameLists.Node, htail, FrameLists.mem_take, hfree]
  constructor
  · rintro (hq | ⟨k, ⟨-, hq⟩ | hq⟩)
    · exact Or.inl (Or.inr hq)
    · exact Or.inl (Or.inl hq)
    · exact Or.inr ⟨k, hq⟩
  · rintro ((hq | hq) | ⟨k, hq⟩)
    · exact Or.inr ⟨h, Or.inl ⟨rfl, hq⟩⟩
    · exact Or.inl hq
    · exact Or.inr ⟨k, Or.inr hq⟩

theorem FrameInv.takeFrame {m : Mem} {F : FrameLists} {fs : Ptr} (h : FrameInv m F)
    (hlist : m.frameList = some fs) (hoom : m.outOfMemory = false) :
    FrameInv (m.takeFrame fs) (F.take (bucketOf (m.addrOf fs)) fs) := by
  set k := bucketOf (m.addrOf fs) with hk
  obtain ⟨rest, hf⟩ : ∃ rest, F.free = fs :: rest := by
    cases hfree : F.free with
    | nil =>
      have hnil := h.path
      rw [hfree, hlist] at hnil
      cases hnil
    | cons a rest =>
      have hcons := h.path
      rw [hfree, hlist] at hcons
      exact ⟨rest, by rw [Option.some.inj hcons.1]⟩
  have hmem : fs ∈ F.free := by rw [hf]; exact List.mem_cons_self
  have hfs : ∀ j, fs ∉ F.used j := fun j => h.apart j fs hmem
  have hhead : ∀ j b, m.frameHash j = some b → b ∈ F.used j := by
    intro j b hb
    exact List.mem_of_head? ((h.linked j).path.head.symm.trans hb)
  obtain ⟨hvlist, hvhash, hvoom, hvpool, hvkend⟩ := takeFrame_vals m fs
  have hprev : ∀ b, (m.takeFrame fs).prevOf b =
      if b = fs then none else if m.frameHash k = some b then some fs else m.prevOf b := by
    intro b
    rw [Mem.prevOf, takeFrame_struct]
    by_cases hb : b = fs
    · have hnot : ¬m.frameHash k = some b := fun he => hfs k (hb ▸ hhead k b he)
      rw [if_neg hnot, if_pos hb, if_pos hb]
    · simp only [hb, if_false, ← hk]
      split <;> rfl
  have hnodup : rest.Nodup ∧ fs ∉ rest := by
    have hn := h.freeNodup
    rw [hf, List.nodup_cons] at hn
    exact ⟨hn.2, hn.1⟩
  have hpath : Path m.nextOf (m.nextOf fs) rest := by
    have hp := h.path
    rw [hf] at hp
    exact hp.2
  refine ⟨?_, fun j => ?_, fun j q hq => ?_, fun j q hq => ?_, ?_, fun j => ?_, fun j q hq hu => ?_,
    fun q q' hq hq' => ?_, fun q hq => ?_, fun ht => ?_, ?_, ?_, ?_⟩
  · -- the free list goes on behind `fs`
    have htail : (F.take k fs).free = rest := by rw [FrameLists.take, hf, List.tail_cons]
    rw [hvlist, htail]
    refine hpath.congr fun b hb => ?_
    rw [takeFrame_next, if_neg]
    rintro rfl
    exact hnodup.2 hb
  · rw [hvhash]
    by_cases hj : j = k
    · rw [hj, Function.update_self]
      simp only [FrameLists.take, Function.update_self]
      exact (h.linked k).push (hfs k) (fun b => takeFrame_next m fs b) hprev (h.usedNodup k)
    · rw [Function.update_of_ne hj]
      simp only [FrameLists.take, Function.update_of_ne hj]
      refine (h.linked j).congr (fun b hb => ?_) fun b hb => ?_
      · rw [takeFrame_next, if_neg]
        rintro rfl
        exact hfs j hb
      · rw [hprev, if_neg, if_neg]
        · -- a structure is in the bucket of its frame only
          intro he
          exact hj ((h.hashed j b hb).symm.trans (h.hashed k b (hhead k b he)))
        · rintro rfl
          exact hfs j hb
  · rw [takeFrame_addr]
    rcases FrameLists.mem_take.mp hq with ⟨rfl, rfl⟩ | hq
    · exact hk.symm
    · exact h.hashed j q hq
  · rw [takeFrame_refc]
    split
    · decide
    · rename_i hne
      rcases FrameLists.mem_take.mp hq with ⟨-, rfl⟩ | hq
      · exact absurd rfl hne
      · exact h.counted j q hq
  · rw [FrameLists.take, hf, List.tail_cons]
    exact hnodup.1
  · by_cases hj : j = k
    · rw [hj]
      simp only [FrameLists.take, Function.update_self]
      exact List.nodup_cons.mpr ⟨hfs k, h.usedNodup k⟩
    · simp only [FrameLists.take, Function.update_of_ne hj]
      exact h.usedNodup j
  · rw [FrameLists.take, hf, List.tail_cons] at hq
    rcases FrameLists.mem_take.mp hu with ⟨-, rfl⟩ | hu
    · exact hnodup.2 hq
    · exact h.apart j q (by rw [hf]; exact List.mem_cons_of_mem fs hq) hu
  · rw [takeFrame_addr, takeFrame_addr]
    exact h.inj q q' ((FrameLists.take_node hf).mp hq) ((FrameLists.take_node hf).mp hq')
  · rw [takeFrame_addr]
    exact h.bound q ((FrameLists.take_node hf).mp hq)
  · rw [hvoom, hoom] at ht
    cases ht
  · rw [hvpool]; exact h.poolPage
  · rw [hvpool]; exact h.poolTop
  · rw [hvpool]; exact h.poolPos

/-! ### `frame_free` -/

section Pull

variable (m : Mem) (fs b : Ptr)

/-- The structure before `fs`, or the bucket, skips it. -/
def Mem.unlink : Mem :=
  match m.prevOf fs with
  | some q => m.setFrame q fun g => { g with next := m.nextOf fs }
  | none => { m with
      frameHash := Function.update m.frameHash (bucketOf (m.addrOf fs)) (m.nextOf fs) }

theorem framePull_eq : framePull m fs = (m.unlink fs).setPrev (m.nextOf fs) (m.prevOf fs) := by
  unfold framePull Mem.unlink Mem.prevOf Mem.nextOf Mem.addrOf bucketOf
  rfl

theorem unlink_struct : (m.unlink fs).frameStruct b =
    if m.prevOf fs = some b then { m.frameStruct b with next := m.nextOf fs }
    else m.frameStruct b := by
  unfold Mem.unlink
  cases m.prevOf fs with
  | none => simp
  | some q =>
    dsimp only
    rw [setFrame_apply]
    by_cases hb : b = q
    · rw [if_pos hb, if_pos (by rw [hb]), hb]
    · rw [if_neg hb, if_neg (by rintro ⟨⟩; exact hb rfl)]

theorem framePull_struct : (framePull m fs).frameStruct b =
    if m.nextOf fs = some b then
      { (m.unlink fs).frameStruct b with prev := m.prevOf fs }
    else (m.unlink fs).frameStruct b := by
  rw [framePull_eq, setPrev_apply]

theorem framePull_vals : (framePull m fs).frameList = m.frameList ∧
    (framePull m fs).frameHash = (if m.prevOf fs = none then
      Function.update m.frameHash (bucketOf (m.addrOf fs)) (m.nextOf fs) else m.frameHash) ∧
    (framePull m fs).oomPool = m.oomPool ∧ (framePull m fs).kend = m.kend := by
  rw [framePull_eq]
  obtain ⟨hlist, hhash, -, hpool, hkend⟩ := setPrev_vals (m.unlink fs) (m.nextOf fs) (m.prevOf fs)
  rw [hlist, hhash, hpool, hkend]
  unfold Mem.unlink
  cases m.prevOf fs with
  | none => exact ⟨rfl, rfl, rfl, rfl⟩
  | some q => exact ⟨rfl, rfl, rfl, rfl⟩

/-- A structure in use goes to the front of the free list. -/
def Mem.giveFrame : Mem :=
  let m := framePull m fs
  let m := m.setFrame fs fun f => { f with prev := none, next := m.frameList }
  let m := m.setPrev m.frameList (some fs)
  { m with frameList := some fs, outOfMemory := false }

theorem giveFrame_struct : (m.giveFrame fs).frameStruct b =
    if m.frameList = some b then
      { (if b = fs then { (framePull m fs).frameStruct fs with prev := none, next := m.frameList }
        else (framePull m fs).frameStruct b) with prev := some fs }
    else if b = fs then
      { (framePull m fs).frameStruct fs with prev := none, next := m.frameList }
    else (framePull m fs).frameStruct b := by
  have hlist := (framePull_vals m fs).1
  unfold Mem.giveFrame
  dsimp only
  rw [setPrev_apply, setFrame_apply, hlist]
  have hset : ((framePull m fs).setFrame fs fun f =>
      { f with prev := none, next := m.frameList }).frameList = m.frameList := hlist
  rw [hset]

theorem framePull_data : (framePull m fs).addrOf b = m.addrOf b ∧
    (framePull m fs).refcOf b = m.refcOf b := by
  unfold Mem.addrOf Mem.refcOf
  rw [framePull_struct, unlink_struct]
  split
  · split <;> exact ⟨rfl, rfl⟩
  · split <;> exact ⟨rfl, rfl⟩

theorem giveFrame_data : (m.giveFrame fs).addrOf b = m.addrOf b ∧
    (m.giveFrame fs).refcOf b = m.refcOf b := by
  rw [← (framePull_data m fs b).1, ← (framePull_data m fs b).2]
  unfold Mem.addrOf Mem.refcOf
  rw [giveFrame_struct]
  split
  · split
    · rename_i hb
      rw [hb]
      exact ⟨rfl, rfl⟩
    · exact ⟨rfl, rfl⟩
  · split
    · rename_i hb
      rw [hb]
      exact ⟨rfl, rfl⟩
    · exact ⟨rfl, rfl⟩

theorem giveFrame_next : (m.giveFrame fs).nextOf b =
    if b = fs then m.frameList else if m.prevOf fs = some b then m.nextOf fs else m.nextOf b := by
  rw [Mem.nextOf, giveFrame_struct]
  by_cases hb : b = fs
  · simp only [hb, if_true]
    split <;> rfl
  · simp only [hb, if_false]
    have hpull : ((framePull m fs).frameStruct b).next =
        if m.prevOf fs = some b then m.nextOf fs else m.nextOf b := by
      rw [framePull_struct, unlink_struct]
      split
      · split <;> rfl
      · split <;> rfl
    rw [← hpull]
    split <;> rfl

theorem giveFrame_prev (hb : b ≠ fs) (hlist : m.frameList ≠ some b) : (m.giveFrame fs).prevOf b =
    if m.nextOf fs = some b then m.prevOf fs else m.prevOf b := by
  rw [Mem.prevOf, giveFrame_struct, if_neg hlist, if_neg hb, framePull_struct, unlink_struct]
  split
  · rfl
  · split <;> rfl

theorem giveFrame_vals : (m.giveFrame fs).frameList = some fs ∧
    (m.giveFrame fs).frameHash = (if m.prevOf fs = none then
      Function.update m.frameHash (bucketOf (m.addrOf fs)) (m.nextOf fs) else m.frameHash) ∧
    (m.giveFrame fs).outOfMemory = false ∧ (m.giveFrame fs).oomPool = m.oomPool ∧
    (m.giveFrame fs).kend = m.kend := by
  obtain ⟨-, hhash, hpool, hkend⟩ := framePull_vals m fs
  obtain ⟨-, hhash', -, hpool', hkend'⟩ := setPrev_vals
    ((framePull m fs).setFrame fs fun f =>
      { f with prev := none, next := (framePull m fs).frameList })
    (framePull m fs).frameList (some fs)
  exact ⟨rfl, hhash'.trans hhash, rfl, hpool'.trans hpool, hkend'.trans hkend⟩

end Pull

/-- A structure in use becomes the first free one. -/
def FrameLists.give (F : FrameLists) (h : ℕ) (p : Ptr) : FrameLists :=
  ⟨p :: F.free, Function.update F.used h ((F.used h).erase p)⟩

theorem FrameLists.mem_give {F : FrameLists} {h k : ℕ} {p q : Ptr} (hn : (F.used h).Nodup) :
    q ∈ (F.give h p).used k ↔ q ∈ F.used k ∧ (k = h → q ≠ p) := by
  unfold FrameLists.give
  by_cases hk : k = h
  · subst hk
    simp only [Function.update_self, hn.mem_erase_iff, true_implies, and_comm]
  · simp only [Function.update_of_ne hk, hk, false_implies, and_true]

theorem FrameInv.giveFrame {m : Mem} {F : FrameLists} {fs : Ptr} {k : ℕ} (h : FrameInv m F)
    (hfs : fs ∈ F.used k) : FrameInv (m.giveFrame fs) (F.give k fs) ∧
      ∀ q, (F.give k fs).Node q ↔ F.Node q := by
  have hk : bucketOf (m.addrOf fs) = k := h.hashed k fs hfs
  have hfree : fs ∉ F.free := fun hf => h.apart k fs hf hfs
  have honly : ∀ j, j ≠ k → fs ∉ F.used j := fun j hj hu => hj ((h.hashed j fs hu).symm.trans hk)
  obtain ⟨l₁, l₂, hsplit⟩ := List.append_of_mem hfs
  have hlinked := h.linked k
  rw [hsplit] at hlinked
  obtain ⟨hnext, hprev⟩ := hlinked.neighbours
  have hnodup := h.usedNodup k
  rw [hsplit] at hnodup
  rw [Option.or_none] at hprev
  -- the neighbours are in the same bucket
  have hprevMem : ∀ b, m.prevOf fs = some b → b ∈ F.used k := by
    intro b hb
    rw [hprev] at hb
    rw [hsplit]
    exact List.mem_append_left _ (List.mem_of_getLast? hb)
  have hnextMem : ∀ b, m.nextOf fs = some b → b ∈ F.used k := by
    intro b hb
    rw [hnext] at hb
    rw [hsplit]
    exact List.mem_append_right _ (List.mem_cons_of_mem fs (List.mem_of_head? hb))
  have hlistMem : ∀ b, m.frameList = some b → b ∈ F.free := fun b hb =>
    List.mem_of_head? (h.path.head.symm.trans hb)
  have herase : (F.used k).erase fs = l₁ ++ l₂ := by
    rw [hsplit, List.erase_append_right _ fun hmem => ?_, List.erase_cons_head]
    exact (List.nodup_append.mp hnodup).2.2 fs hmem fs List.mem_cons_self rfl
  obtain ⟨hvlist, hvhash, hvoom, hvpool, -⟩ := giveFrame_vals m fs
  have hnode : ∀ q, (F.give k fs).Node q ↔ F.Node q := by
    intro q
    constructor
    · rintro (hq | ⟨j, hq⟩)
      · rcases List.mem_cons.mp hq with rfl | hq
        · exact Or.inr ⟨k, hfs⟩
        · exact Or.inl hq
      · exact Or.inr ⟨j, ((FrameLists.mem_give (h.usedNodup k)).mp hq).1⟩
    · rintro (hq | ⟨j, hq⟩)
      · exact Or.inl (List.mem_cons_of_mem fs hq)
      · by_cases hqf : q = fs
        · exact Or.inl (by rw [hqf]; exact List.mem_cons_self)
        · exact Or.inr ⟨j, (FrameLists.mem_give (h.usedNodup k)).mpr ⟨hq, fun _ => hqf⟩⟩
  refine ⟨⟨?_, fun j => ?_, fun j q hq => ?_, fun j q hq => ?_, ?_, fun j => ?_,
    fun j q hq hu => ?_, fun q q' hq hq' => ?_, fun q hq => ?_, fun ht => ?_, ?_, ?_, ?_⟩, hnode⟩
  · -- the free list, behind the new first structure
    refine ⟨hvlist, ?_⟩
    rw [giveFrame_next, if_pos rfl]
    refine h.path.congr fun b hb => ?_
    rw [giveFrame_next, if_neg, if_neg]
    · exact fun hp => h.apart k b hb (hprevMem b hp)
    · rintro rfl
      exact hfree hb
  · have hlistNe : ∀ b, b ∈ F.used j → m.frameList ≠ some b :=
      fun b hb he => h.apart j b (hlistMem b he) hb
    by_cases hj : j = k
    · subst hj
      rw [hvhash]
      simp only [FrameLists.give, Function.update_self, herase]
      have hsub : ∀ b ∈ l₁ ++ l₂, b ∈ F.used j ∧ b ≠ fs := by
        intro b hb
        rw [← herase] at hb
        have hb' := ((h.usedNodup j).mem_erase_iff).mp hb
        exact ⟨hb'.2, hb'.1⟩
      have hpull : Linked (m.giveFrame fs).nextOf (m.giveFrame fs).prevOf none
          (if l₁ = [] then m.nextOf fs else m.frameHash j) (l₁ ++ l₂) := by
        refine hlinked.pull hnodup (fun b hb => by cases hb) (fun b hb => ?_) fun b hb => ?_
        · rw [giveFrame_next, if_neg (hsub b hb).2]
        · exact giveFrame_prev m fs b (hsub b hb).2 (hlistNe b (hsub b hb).1)
      have hempty : m.prevOf fs = none ↔ l₁ = [] := by
        rw [hprev, List.getLast?_eq_none_iff]
      rw [hk]
      by_cases hl : l₁ = []
      · rw [if_pos (hempty.mpr hl), Function.update_self]
        rw [if_pos hl] at hpull
        exact hpull
      · rw [if_neg fun hp => hl (hempty.mp hp)]
        rw [if_neg hl] at hpull
        exact hpull
    · have hhash : (m.giveFrame fs).frameHash j = m.frameHash j := by
        rw [hvhash]
        split
        · rw [hk, Function.update_of_ne hj]
        · rfl
      rw [hhash]
      simp only [FrameLists.give, Function.update_of_ne hj]
      have hother : ∀ b ∈ F.used j, b ∉ F.used k := fun b hb hb' =>
        hj ((h.hashed j b hb).symm.trans (h.hashed k b hb'))
      have hne : ∀ b ∈ F.used j, b ≠ fs := by
        rintro b hb rfl
        exact honly j hj hb
      refine (h.linked j).congr (fun b hb => ?_) fun b hb => ?_
      · rw [giveFrame_next, if_neg (hne b hb), if_neg fun hp => hother b hb (hprevMem b hp)]
      · rw [giveFrame_prev m fs b (hne b hb) (hlistNe b hb),
          if_neg fun hp => hother b hb (hnextMem b hp)]
  · rw [(giveFrame_data m fs q).1]
    exact h.hashed j q ((FrameLists.mem_give (h.usedNodup k)).mp hq).1
  · rw [(giveFrame_data m fs q).2]
    exact h.counted j q ((FrameLists.mem_give (h.usedNodup k)).mp hq).1
  · exact List.nodup_cons.mpr ⟨hfree, h.freeNodup⟩
  · by_cases hj : j = k
    · subst hj
      simp only [FrameLists.give, Function.update_self]
      exact (h.usedNodup j).erase fs
    · simp only [FrameLists.give, Function.update_of_ne hj]
      exact h.usedNodup j
  · obtain ⟨hu', hne⟩ := (FrameLists.mem_give (h.usedNodup k)).mp hu
    rcases List.mem_cons.mp hq with rfl | hq
    · by_cases hj : j = k
      · exact hne hj rfl
      · exact honly j hj hu'
    · exact h.apart j q hq hu'
  · rw [(giveFrame_data m fs q).1, (giveFrame_data m fs q').1]
    exact h.inj q q' ((hnode q).mp hq) ((hnode q').mp hq')
  · rw [(giveFrame_data m fs q).1]
    exact h.bound q ((hnode q).mp hq)
  · rw [hvoom] at ht
    cases ht
  · rw [hvpool]; exact h.poolPage
  · rw [hvpool]; exact h.poolTop
  · rw [hvpool]; exact h.poolPos

/-- A structure in use gets another count. -/
def Mem.setRefc (m : Mem) (fs : Ptr) (c : U32) : Mem := m.setFrame fs fun f => { f with refc := c }

section SetRefc

variable (m : Mem) (fs b : Ptr) (c : U32)

theorem setRefc_links : (m.setRefc fs c).nextOf b = m.nextOf b ∧
    (m.setRefc fs c).prevOf b = m.prevOf b ∧ (m.setRefc fs c).addrOf b = m.addrOf b := by
  unfold Mem.setRefc Mem.nextOf Mem.prevOf Mem.addrOf
  rw [setFrame_apply]
  split
  · rename_i hb
    rw [hb]
    exact ⟨rfl, rfl, rfl⟩
  · exact ⟨rfl, rfl, rfl⟩

theorem setRefc_refc : (m.setRefc fs c).refcOf b = if b = fs then c else m.refcOf b := by
  unfold Mem.setRefc Mem.refcOf
  rw [setFrame_apply]
  split <;> rfl

end SetRefc

theorem FrameInv.setRefc {m : Mem} {F : FrameLists} (h : FrameInv m F) (fs : Ptr) {c : U32}
    (hc : c ≠ 0) : FrameInv (m.setRefc fs c) F := by
  have hn : (m.setRefc fs c).nextOf = m.nextOf := by funext b; exact (setRefc_links m fs b c).1
  have hp : (m.setRefc fs c).prevOf = m.prevOf := by funext b; exact (setRefc_links m fs b c).2.1
  have ha : (m.setRefc fs c).addrOf = m.addrOf := by funext b; exact (setRefc_links m fs b c).2.2
  refine ⟨?_, ?_, ?_, fun k q hq => ?_, h.freeNodup, h.usedNodup, h.apart, ?_, ?_, h.oom,
    h.poolPage, h.poolTop, h.poolPos⟩
  · rw [hn]; exact h.path
  · rw [hn, hp]; exact h.linked
  · rw [ha]; exact h.hashed
  · rw [setRefc_refc]
    split
    · exact hc
    · exact h.counted k q hq
  · rw [ha]; exact h.inj
  · rw [ha]; exact h.bound

/-- A count above one is lowered to a positive one. -/
theorem refc_sub_ne {c : U32} (hpos : c.toNat ≠ 0) (hone : c ≠ 1) : c - 1 ≠ 0 := by
  have hle : (1 : U32).toNat ≤ c.toNat := Nat.one_le_iff_ne_zero.mpr hpos
  intro he
  have hnat := BitVec.toNat_sub_of_le (BitVec.le_def.mpr hle)
  rw [he] at hnat
  have hz : (0 : U32).toNat = 0 := rfl
  have ho : (1 : U32).toNat = 1 := rfl
  exact hone (BitVec.eq_of_toNat_eq (show c.toNat = 1 by omega))

/-- **`frame_free`** of a frame that is not in use does nothing; the last reference puts
its structure on the free list, another one lowers the count. -/
theorem FrameInv.free_cases {m : Mem} {F : FrameLists} (h : FrameInv m F) (frame : U32) :
    ((∀ k, ∀ p ∈ F.used k, m.addrOf p ≠ frame / PAGESZ) ∧ frameFree m frame = .ok m) ∨
    ∃ k, ∃ p ∈ F.used k, m.addrOf p = frame / PAGESZ ∧
      (m.refcOf p = 1 ∧ frameFree m frame = .ok (m.giveFrame p) ∨
        m.refcOf p ≠ 1 ∧ frameFree m frame = .ok (m.setRefc p (m.refcOf p - 1))) := by
  rcases h.find_cases frame with ⟨p, hp, ha, hf⟩ | ⟨hnone, hf⟩
  · refine Or.inr ⟨_, p, hp, ha, ?_⟩
    unfold frameFree
    rw [hf]
    by_cases hr : m.refcOf p = 1
    · exact Or.inl ⟨hr, if_pos hr⟩
    · exact Or.inr ⟨hr, if_neg hr⟩
  · refine Or.inl ⟨hnone, ?_⟩
    unfold frameFree
    rw [hf]
    rfl

/-! ### `frame_ref` and `frame_refc` -/

theorem FrameInv.ref_cases {m : Mem} {F : FrameLists} (h : FrameInv m F) (frame : U32) :
    ((∀ k, ∀ p ∈ F.used k, m.addrOf p ≠ frame / PAGESZ) ∧ frameRef m frame = .ok m ∧
      frameRefc m frame = .ok 0) ∨
    ∃ k, ∃ p ∈ F.used k, m.addrOf p = frame / PAGESZ ∧
      frameRef m frame = .ok (m.setRefc p (m.refcOf p + 1)) ∧
      frameRefc m frame = .ok (m.refcOf p) := by
  unfold frameRef frameRefc
  rcases h.find_cases frame with ⟨p, hp, ha, hf⟩ | ⟨hnone, hf⟩
  · refine Or.inr ⟨_, p, hp, ha, ?_⟩
    rw [hf]
    exact ⟨rfl, rfl⟩
  · refine Or.inl ⟨hnone, ?_⟩
    rw [hf]
    exact ⟨rfl, rfl⟩

/-! ### `frame_add` -/

/-- A structure for a new frame becomes the first free one. -/
def Mem.addFrame (m : Mem) (fs : Ptr) (n : U32) : Mem :=
  let m := m.setFrame fs fun _ => ⟨m.frameList, none, 0, n⟩
  let m := m.setPrev m.frameList (some fs)
  { m with frameList := some fs, outOfMemory := false }

theorem frameAdd_cases {m m' : Mem} {frame : U32} (h : frameAdd m frame = .ok m') :
    ∃ fs m₁, heapAlloc m 16 = .ok (some fs, m₁) ∧ m' = m₁.addFrame fs (frame / PAGESZ) := by
  obtain ⟨⟨o, m₁⟩, ha, h⟩ := bind_eq_ok.mp h
  cases o with
  | none => cases h
  | some fs =>
    cases h
    exact ⟨fs, m₁, ha, rfl⟩

section Add

variable (m : Mem) (fs b : Ptr) (n : U32)

theorem addFrame_struct : (m.addFrame fs n).frameStruct b =
    if m.frameList = some b then
      { (if b = fs then ⟨m.frameList, none, 0, n⟩ else m.frameStruct b) with prev := some fs }
    else if b = fs then ⟨m.frameList, none, 0, n⟩ else m.frameStruct b := by
  unfold Mem.addFrame
  dsimp only
  rw [setPrev_apply, setFrame_apply]
  rfl

theorem addFrame_vals : (m.addFrame fs n).frameList = some fs ∧
    (m.addFrame fs n).frameHash = m.frameHash ∧ (m.addFrame fs n).outOfMemory = false ∧
    (m.addFrame fs n).oomPool = m.oomPool ∧ (m.addFrame fs n).kend = m.kend := by
  obtain ⟨-, hhash, -, hpool, hkend⟩ :=
    setPrev_vals (m.setFrame fs fun _ => ⟨m.frameList, none, 0, n⟩) m.frameList (some fs)
  exact ⟨rfl, hhash, rfl, hpool, hkend⟩

theorem addFrame_data : (m.addFrame fs n).addrOf b = (if b = fs then n else m.addrOf b) ∧
    (m.addFrame fs n).refcOf b = (if b = fs then 0 else m.refcOf b) ∧
    (m.addFrame fs n).nextOf b = if b = fs then m.frameList else m.nextOf b := by
  unfold Mem.addrOf Mem.refcOf Mem.nextOf
  rw [addFrame_struct]
  by_cases hb : b = fs
  · simp only [hb, if_true]
    split <;> exact ⟨rfl, rfl, rfl⟩
  · simp only [hb, if_false]
    split <;> exact ⟨rfl, rfl, rfl⟩

theorem addFrame_prev (hb : b ≠ fs) (hlist : m.frameList ≠ some b) :
    (m.addFrame fs n).prevOf b = m.prevOf b := by
  rw [Mem.prevOf, addFrame_struct, if_neg hlist, if_neg hb]
  rfl

end Add

/-- A new structure becomes the first free one. -/
def FrameLists.add (F : FrameLists) (p : Ptr) : FrameLists := ⟨p :: F.free, F.used⟩

theorem FrameLists.add_node {F : FrameLists} {p q : Ptr} :
    (F.add p).Node q ↔ q = p ∨ F.Node q := by
  simp only [FrameLists.Node, FrameLists.add, List.mem_cons, or_assoc]

/-- **`frame_add`** of a frame that has no structure yet. -/
theorem FrameInv.addFrame {m : Mem} {F : FrameLists} {fs : Ptr} {n : U32} (h : FrameInv m F)
    (hfs : ¬F.Node fs) (hn : ∀ p, F.Node p → m.addrOf p ≠ n) (hlo : 0x800 ≤ n)
    (hhi : n < 0x100000) : FrameInv (m.addFrame fs n) (F.add fs) := by
  obtain ⟨hvlist, hvhash, hvoom, hvpool, -⟩ := addFrame_vals m fs n
  have hne : ∀ q, F.Node q → q ≠ fs := by
    rintro q hq rfl
    exact hfs hq
  have haddr : ∀ q, F.Node q → (m.addFrame fs n).addrOf q = m.addrOf q := by
    intro q hq
    rw [(addFrame_data m fs q n).1, if_neg (hne q hq)]
  have hself : (m.addFrame fs n).addrOf fs = n := by
    rw [(addFrame_data m fs fs n).1, if_pos rfl]
  have hnext : ∀ q, F.Node q → (m.addFrame fs n).nextOf q = m.nextOf q := by
    intro q hq
    rw [(addFrame_data m fs q n).2.2, if_neg (hne q hq)]
  have hlistNe : ∀ j, ∀ b ∈ F.used j, m.frameList ≠ some b := by
    intro j b hb he
    exact h.apart j b (List.mem_of_head? (h.path.head.symm.trans he)) hb
  refine ⟨⟨hvlist, ?_⟩, fun j => ?_, fun j q hq => ?_, fun j q hq => ?_, ?_, h.usedNodup,
    fun j q hq hu => ?_, fun q q' hq hq' he => ?_, fun q hq => ?_, fun ht => ?_, ?_, ?_, ?_⟩
  · rw [(addFrame_data m fs fs n).2.2, if_pos rfl]
    exact h.path.congr fun b hb => hnext b (Or.inl hb)
  · rw [hvhash]
    refine (h.linked j).congr (fun b hb => hnext b (Or.inr ⟨j, hb⟩)) fun b hb => ?_
    exact addFrame_prev m fs b n (hne b (Or.inr ⟨j, hb⟩)) (hlistNe j b hb)
  · rw [haddr q (Or.inr ⟨j, hq⟩)]
    exact h.hashed j q hq
  · rw [(addFrame_data m fs q n).2.1, if_neg (hne q (Or.inr ⟨j, hq⟩))]
    exact h.counted j q hq
  · exact List.nodup_cons.mpr ⟨fun hf => hfs (Or.inl hf), h.freeNodup⟩
  · rcases List.mem_cons.mp hq with rfl | hq
    · exact hfs (Or.inr ⟨j, hu⟩)
    · exact h.apart j q hq hu
  · -- the new frame is none of the old ones
    rcases FrameLists.add_node.mp hq with rfl | hold
    · rcases FrameLists.add_node.mp hq' with rfl | hold'
      · rfl
      · rw [hself, haddr q' hold'] at he
        exact absurd he.symm (hn q' hold')
    · rcases FrameLists.add_node.mp hq' with rfl | hold'
      · rw [hself, haddr q hold] at he
        exact absurd he (hn q hold)
      · rw [haddr q hold, haddr q' hold'] at he
        exact h.inj q q' hold hold' he
  · rcases FrameLists.add_node.mp hq with rfl | hq
    · rw [hself]
      exact ⟨hlo, hhi⟩
    · rw [haddr q hq]
      exact h.bound q hq
  · rw [hvoom] at ht
    cases ht
  · rw [hvpool]; exact h.poolPage
  · rw [hvpool]; exact h.poolTop
  · rw [hvpool]; exact h.poolPos

/-! ### What the heap takes -/

theorem SameFrames.trans {m₁ m₂ m₃ : Mem} (h : SameFrames m₁ m₂) (h' : SameFrames m₂ m₃) :
    SameFrames m₁ m₃ :=
  ⟨h'.struct.trans h.struct, h'.list.trans h.list, h'.hash.trans h.hash, h'.oom.trans h.oom,
    h'.pool.trans h.pool, h'.kend.trans h.kend⟩

/-- Memory after calls of `frame_new` and steps outside the frame allocator. -/
inductive News (m : Mem) : Mem → Prop
  | refl : News m m
  | same {m₁ m₂ : Mem} : News m m₁ → SameFrames m₁ m₂ → News m m₂
  | new {m₁ m₂ : Mem} {f : U32} : News m m₁ → frameNew m₁ = .ok (f, m₂) → News m m₂

theorem News.trans {m m₁ m₂ : Mem} (h : News m m₁) (h' : News m₁ m₂) : News m m₂ := by
  induction h' with
  | refl => exact h
  | same _ hs ih => exact ih.same hs
  | new _ hn ih => exact ih.new hn

/-- New frames leave every structure with its frame. -/
theorem News.addr {m m' : Mem} (h : News m m') (p : Ptr) : m'.addrOf p = m.addrOf p := by
  induction h with
  | refl => rfl
  | same _ hs ih => rw [Mem.addrOf, hs.struct, ← ih, Mem.addrOf]
  | new _ hn ih =>
    rcases frameNew_cases hn with ⟨-, hoom⟩ | ⟨fs, -, -, -, rfl⟩
    · obtain ⟨-, -, rfl⟩ := frameNewOom_ok hoom
      exact ih
    · rw [takeFrame_addr]
      exact ih

theorem write_frames {m m' : Mem} {va w : U32} (h : m.write va w = .ok m') : SameFrames m m' := by
  obtain ⟨⟨f, i⟩, -, h⟩ := bind_eq_ok.mp h
  cases h
  exact ⟨rfl, rfl, rfl, rfl, rfl, rfl⟩

theorem PageSteps.news {m m' : Mem} (h : PageSteps m m') : News m m' := by
  induction h with
  | refl => exact .refl
  | write _ hw ih => exact ih.same (write_frames hw)
  | new _ hn ih => exact ih.new hn

theorem heapValloc_news {m m' : Mem} {size a : ℕ} (h : heapValloc m size = .ok (a, m')) :
    News m m' := by
  obtain ⟨-, -, m₁, hsteps, rfl⟩ := heapValloc_steps h
  exact hsteps.news.same ⟨rfl, rfl, rfl, rfl, rfl, rfl⟩

theorem heapFree_frames (m : Mem) (p : Ptr) (size : ℕ) : SameFrames m (heapFree m p size) := by
  unfold heapFree
  dsimp only
  split <;> exact ⟨rfl, rfl, rfl, rfl, rfl, rfl⟩

theorem slabPieces_frames (slab b : ℕ) (l : List ℕ) :
    ∀ m : Mem, SameFrames m (l.foldl (slabPiece slab b) m) := by
  induction l with
  | nil => exact SameFrames.refl
  | cons i l ih =>
    intro m
    have hfree := heapFree_frames m (BitVec.ofNat 32 (slab + 4 * (i * 2 ^ b))) (4 * 2 ^ b)
    have hpiece : SameFrames m (slabPiece slab b m i) :=
      hfree.trans ⟨rfl, rfl, rfl, rfl, rfl, rfl⟩
    exact hpiece.trans (ih _)

theorem heapNewSlab_news {m m' : Mem} {b : ℕ} (h : heapNewSlab m b = .ok m') : News m m' := by
  obtain ⟨⟨slab, m₁⟩, h₁, h⟩ := bind_eq_ok.mp h
  cases h
  exact (heapValloc_news h₁).same (slabPieces_frames _ _ _ _)

theorem heapAlloc_news {m m' : Mem} {size : ℕ} {o : Option Ptr}
    (h : heapAlloc m size = .ok (o, m')) : News m m' := by
  by_cases hb : heapFindBucket size < 16
  · obtain ⟨m₁, p, rest, hslab, -, -, rfl⟩ := heapAlloc_cases hb h
    have h₁ : News m m₁ := by
      rcases hslab with rfl | ⟨-, hs⟩
      · exact .refl
      · exact heapNewSlab_news hs
    exact h₁.same ⟨rfl, rfl, rfl, rfl, rfl, rfl⟩
  · simp only [heapAlloc, heapFindBucket_large hb, show (16 : ℕ) < 17 by omega, if_true] at h
    cases h
    exact .refl

end Pinion
