/-
The frame allocator keeps reference counts.

The abstract allocator is a map from frame numbers to counts, and a set of boot frames
that have been handed out.

* `RefMap`, `RefMap.New`, `RefMap.Step`, `RefMap.Run` — the abstract allocator;
* `Tracks m F r` — the lists in memory hold what the map says;
* `Tracks.new`, `Tracks.free`, `Tracks.ref`, `Tracks.add` — one simulation lemma per
  operation;
* `frames_refine` — every run of the allocator is a run of the map.
-/
import Pinion.Frames

open Runs DoubleList

namespace Pinion

/-! ### The abstract allocator -/

/-- Counts by frame number, `none` for a frame that was never added, and the boot frames
handed out so far. -/
structure RefMap where
  count : U32 → Option ℕ
  pool : Set U32

namespace RefMap

def empty : RefMap := ⟨fun _ => none, ∅⟩

def set (r : RefMap) (n : U32) (c : ℕ) : RefMap :=
  { r with count := Function.update r.count n (some c) }

/-- One reference more to a frame in use. -/
def ref (r : RefMap) (n : U32) : RefMap :=
  match r.count n with
  | some (c + 1) => r.set n (c + 2)
  | _ => r

/-- One reference less to a frame in use. -/
def free (r : RefMap) (n : U32) : RefMap :=
  match r.count n with
  | some (c + 1) => r.set n c
  | _ => r

end RefMap

/-- A whole frame above the kernel, whose first free byte is at `low`, in the memory it
was booted with. -/
def BootFrame (low f : U32) : Prop :=
  4096 ∣ f.toNat ∧ low < f ∧ f.toNat + 4096 ≤ KERNEL_BOOT_SIZE.toNat

/-- A new frame is an added one with count 0 or, when there is none, a boot frame that
was not handed out before. -/
inductive RefMap.New (low : U32) (r : RefMap) : U32 → RefMap → Prop
  | frame {f : U32} : 4096 ∣ f.toNat → r.count (f / PAGESZ) = some 0 →
      New low r f (r.set (f / PAGESZ) 1)
  | boot {f : U32} : (∀ n, r.count n ≠ some 0) → f ∉ r.pool → BootFrame low f →
      New low r f { r with pool := insert f r.pool }

/-- Any number of new frames. -/
inductive RefMap.News (low : U32) (r : RefMap) : RefMap → Prop
  | refl : News low r r
  | new {r₁ r₂ : RefMap} {f : U32} : News low r r₁ → r₁.New low f r₂ → News low r r₂

/-- The calls of the allocator.  A frame is named by any address in it. -/
inductive FrameOp
  | add (frame : U32)
  | new
  | ref (frame : U32)
  | free (frame : U32)
  deriving DecidableEq

def FrameOp.run (m : Mem) : FrameOp → Except Stop (Option U32 × Mem)
  | .add frame => do return (none, ← frameAdd m frame)
  | .new => do
    let (frame, m) ← frameNew m
    return (some frame, m)
  | .ref frame => do return (none, ← frameRef m frame)
  | .free frame => do return (none, ← frameFree m frame)

/-- The calls on the map; `frame_add` first takes what the heap needs. -/
inductive RefMap.Step (low : U32) (r : RefMap) : FrameOp → Option U32 → RefMap → Prop
  | add {r₁ : RefMap} {f : U32} : r.News low r₁ → r₁.count (f / PAGESZ) = none →
      Step low r (.add f) none (r₁.set (f / PAGESZ) 0)
  | new {r₁ : RefMap} {f : U32} : r.New low f r₁ → Step low r .new (some f) r₁
  | ref {f : U32} : Step low r (.ref f) none (r.ref (f / PAGESZ))
  | free {f : U32} : Step low r (.free f) none (r.free (f / PAGESZ))

/-- A sequence of calls with their results, from the empty map. -/
inductive RefMap.Run (low : U32) : List FrameOp → List (Option U32) → RefMap → Prop
  | start : Run low [] [] .empty
  | step {ops : List FrameOp} {outs : List (Option U32)} {r r' : RefMap} {op : FrameOp}
      {out : Option U32} : Run low ops outs r → r.Step low op out r' →
      Run low (ops ++ [op]) (outs ++ [out]) r'

theorem RefMap.set_self (r : RefMap) (n : U32) (c : ℕ) : (r.set n c).count n = some c :=
  Function.update_self _ _ _

theorem RefMap.set_of_ne {r : RefMap} {n k : U32} (c : ℕ) (h : k ≠ n) :
    (r.set n c).count k = r.count k :=
  Function.update_of_ne h _ _

/-- Setting the count of a known frame leaves the known frames. -/
theorem RefMap.set_known {r : RefMap} {n : U32} {c : ℕ} (h : r.count n ≠ none) (k : U32) :
    (r.set n c).count k ≠ none ↔ r.count k ≠ none := by
  by_cases hk : k = n
  · rw [hk, RefMap.set_self]
    exact iff_of_true (Option.some_ne_none c) h
  · rw [RefMap.set_of_ne c hk]

/-! ### The lists hold the map -/

structure Tracks (m : Mem) (F : FrameLists) (r : RefMap) : Prop where
  inv : FrameInv m F
  known : ∀ n, r.count n ≠ none ↔ ∃ p, F.Node p ∧ m.addrOf p = n
  free : ∀ p ∈ F.free, r.count (m.addrOf p) = some 0
  used : ∀ k, ∀ p ∈ F.used k, r.count (m.addrOf p) = some (m.refcOf p).toNat
  pool : ∀ f, f ∈ r.pool ↔ 4096 ∣ f.toNat ∧ m.oomPool ≤ f ∧ f < KERNEL_BOOT_SIZE

theorem Tracks.same {m m' : Mem} {F : FrameLists} {r : RefMap} (h : Tracks m F r)
    (hs : SameFrames m m') : Tracks m' F r := by
  have ha : m'.addrOf = m.addrOf := by funext p; rw [Mem.addrOf, hs.struct, Mem.addrOf]
  have hr : m'.refcOf = m.refcOf := by funext p; rw [Mem.refcOf, hs.struct, Mem.refcOf]
  refine ⟨h.inv.same hs, ?_, ?_, ?_, ?_⟩
  · rw [ha]; exact h.known
  · rw [ha]; exact h.free
  · rw [ha, hr]; exact h.used
  · rw [hs.pool]; exact h.pool

/-- One structure moves between the lists, or changes its count. -/
theorem Tracks.move {m m' : Mem} {F F' : FrameLists} {r : RefMap} {p : Ptr} {c : ℕ}
    (h : Tracks m F r) (hinv : FrameInv m' F') (hnode : ∀ q, F'.Node q ↔ F.Node q)
    (haddr : ∀ q, m'.addrOf q = m.addrOf q) (hpool : m'.oomPool = m.oomPool) (hp : F.Node p)
    (hfree : ∀ q ∈ F'.free, q = p ∧ c = 0 ∨ q ≠ p ∧ q ∈ F.free)
    (hused : ∀ k, ∀ q ∈ F'.used k, q = p ∧ c = (m'.refcOf p).toNat ∨
      q ≠ p ∧ q ∈ F.used k ∧ m'.refcOf q = m.refcOf q) :
    Tracks m' F' (r.set (m.addrOf p) c) := by
  have hknown : r.count (m.addrOf p) ≠ none := (h.known _).mpr ⟨p, hp, rfl⟩
  -- the other structures are for other frames
  have hother : ∀ q, F.Node q → q ≠ p → m.addrOf q ≠ m.addrOf p := fun q hq hne he =>
    hne (h.inv.inj q p hq hp he)
  refine ⟨hinv, fun n => ?_, fun q hq => ?_, fun k q hq => ?_, ?_⟩
  · rw [RefMap.set_known hknown, h.known]
    simp only [hnode, haddr]
  · rw [haddr]
    rcases hfree q hq with ⟨rfl, rfl⟩ | ⟨hne, hq⟩
    · exact RefMap.set_self _ _ _
    · rw [RefMap.set_of_ne c (hother q (Or.inl hq) hne)]
      exact h.free q hq
  · rw [haddr]
    rcases hused k q hq with ⟨rfl, rfl⟩ | ⟨hne, hq, hr⟩
    · exact RefMap.set_self _ _ _
    · rw [RefMap.set_of_ne c (hother q (Or.inr ⟨k, hq⟩) hne), hr]
      exact h.used k q hq
  · rw [hpool]
    exact h.pool

/-- With an empty free list no count is zero. -/
theorem Tracks.no_free {m : Mem} {F : FrameLists} {r : RefMap} (h : Tracks m F r)
    (hf : F.free = []) (n : U32) : r.count n ≠ some 0 := by
  intro hn
  obtain ⟨p, hp, rfl⟩ := (h.known n).mp (by rw [hn]; exact Option.some_ne_none 0)
  rcases hp with hp | ⟨k, hp⟩
  · rw [hf] at hp
    cases hp
  · rw [h.used k p hp] at hn
    exact h.inv.counted k p hp (BitVec.eq_of_toNat_eq (Option.some.inj hn))

/-! ### `frame_new` -/

theorem frameNo_mul {n : U32} (h : n < 0x100000) :
    n * PAGESZ / PAGESZ = n ∧ 4096 ∣ (n * PAGESZ).toNat := by
  have hn : n.toNat < 0x100000 := BitVec.lt_def.mp h
  have hmul : (n * PAGESZ).toNat = n.toNat * 4096 := by
    rw [BitVec.toNat_mul, show PAGESZ.toNat = 4096 from rfl]
    exact Nat.mod_eq_of_lt (by omega)
  constructor
  · apply BitVec.eq_of_toNat_eq
    rw [BitVec.toNat_udiv, hmul, show PAGESZ.toNat = 4096 from rfl]
    exact Nat.mul_div_cancel n.toNat (by decide)
  · rw [hmul]
    exact Nat.dvd_mul_left 4096 n.toNat

/-- The frames of the boot pool, after one more. -/
theorem FrameInv.pool_insert {m : Mem} {F : FrameLists} (h : FrameInv m F) (g : U32) :
    (4096 ∣ g.toNat ∧ m.oomPool - PAGESZ ≤ g ∧ g < KERNEL_BOOT_SIZE) ↔
      g = m.oomPool - PAGESZ ∨ 4096 ∣ g.toNat ∧ m.oomPool ≤ g ∧ g < KERNEL_BOOT_SIZE := by
  obtain ⟨hge, hsub⟩ := h.pool_sub
  have htop := BitVec.le_def.mp h.poolTop
  have hpage := h.poolPage
  have hsize : KERNEL_BOOT_SIZE.toNat = 0x800000 := rfl
  simp only [BitVec.le_def, BitVec.lt_def, BitVec.toNat_eq, hsub]
  omega

theorem Tracks.new {m m' : Mem} {F : FrameLists} {r : RefMap} {f : U32} (h : Tracks m F r)
    (hn : frameNew m = .ok (f, m')) :
    ∃ F' r', r.New (m.kend - KERNEL_ADDR_BASE) f r' ∧ Tracks m' F' r' ∧
      (∀ p, F'.Node p ↔ F.Node p) ∧ m'.kend = m.kend := by
  rcases frameNew_cases hn with ⟨hempty, hoom⟩ | ⟨fs, hoom, hlist, rfl, rfl⟩
  · have hnil : F.free = [] := h.inv.free_nil hempty
    obtain ⟨hinv, hf, hroom, rfl⟩ := h.inv.pool hnil hoom
    have hself : 4096 ∣ f.toNat ∧ f ≤ f ∧ f < KERNEL_BOOT_SIZE := by
      have hins := (h.inv.pool_insert f).mpr (Or.inl hf)
      rw [← hf] at hins
      exact hins
    have hpool : f ∉ r.pool := by
      rw [h.pool]
      rintro ⟨-, hle, -⟩
      obtain ⟨hge, hsub⟩ := h.inv.pool_sub
      have hle' := BitVec.le_def.mp hle
      rw [hf, hsub] at hle'
      omega
    have hboot : BootFrame (m.kend - KERNEL_ADDR_BASE) f := by
      refine ⟨hself.1, hroom, ?_⟩
      have hlt := BitVec.lt_def.mp hself.2.2
      have hsize : KERNEL_BOOT_SIZE.toNat = 0x800000 := rfl
      have hdvd := hself.1
      omega
    refine ⟨F, _, .boot (h.no_free hnil) hpool hboot, ?_, fun _ => Iff.rfl, rfl⟩
    refine ⟨hinv, h.known, h.free, h.used, fun g => ?_⟩
    rw [Set.mem_insert_iff, h.pool, hf]
    exact (h.inv.pool_insert g).symm
  · have hmem : fs ∈ F.free := List.mem_of_head? (h.inv.path.head.symm.trans hlist)
    obtain ⟨hdiv, hdvd⟩ := frameNo_mul (h.inv.bound fs (Or.inl hmem)).2
    obtain ⟨rest, hrest⟩ : ∃ rest, F.free = fs :: rest := by
      have hhead := h.inv.path.head.symm.trans hlist
      obtain ⟨rest, hrest⟩ := List.head?_eq_some_iff.mp hhead
      exact ⟨rest, hrest⟩
    have hnew : r.New (m.kend - KERNEL_ADDR_BASE) (m.addrOf fs * PAGESZ)
        (r.set (m.addrOf fs) 1) := by
      have hcount := h.free fs hmem
      rw [← hdiv] at hcount
      have hframe : r.New (m.kend - KERNEL_ADDR_BASE) (m.addrOf fs * PAGESZ) _ :=
        .frame hdvd hcount
      rw [hdiv] at hframe
      exact hframe
    refine ⟨F.take (bucketOf (m.addrOf fs)) fs, _, hnew, ?_, fun p => FrameLists.take_node hrest,
      (takeFrame_vals m fs).2.2.2.2⟩
    have hnodup := h.inv.freeNodup
    rw [hrest, List.nodup_cons] at hnodup
    refine h.move (h.inv.takeFrame hlist hoom) (fun q => FrameLists.take_node hrest)
      (fun q => takeFrame_addr m fs q) (takeFrame_vals m fs).2.2.2.1 (Or.inl hmem)
      (fun q hq => ?_) fun k q hq => ?_
    · rw [FrameLists.take, hrest, List.tail_cons] at hq
      refine Or.inr ⟨?_, by rw [hrest]; exact List.mem_cons_of_mem fs hq⟩
      rintro rfl
      exact hnodup.1 hq
    · by_cases hqf : q = fs
      · refine Or.inl ⟨hqf, ?_⟩
        rw [takeFrame_refc, if_pos rfl]
        rfl
      · refine Or.inr ⟨hqf, ?_⟩
        rw [takeFrame_refc, if_neg hqf]
        rcases FrameLists.mem_take.mp hq with ⟨-, he⟩ | hq
        · exact absurd he hqf
        · exact ⟨hq, rfl⟩

/-- `frame_new` stops only when no frame is left. -/
theorem Tracks.new_error {m : Mem} {F : FrameLists} {r : RefMap} {e : Stop} (h : Tracks m F r)
    (hn : frameNew m = .error e) :
    e = .panic "out of memory" ∧ (∀ n, r.count n ≠ some 0) ∧
      ∀ f, BootFrame (m.kend - KERNEL_ADDR_BASE) f → f ∈ r.pool := by
  have hoom : F.free = [] ∧ frameNewOom { m with outOfMemory := true } = .error e := by
    unfold frameNew at hn
    split at hn
    · rename_i ht
      have hm : { m with outOfMemory := true } = m := by rw [← ht]
      exact ⟨h.inv.free_nil (Or.inl ht), hm ▸ hn⟩
    · split at hn
      · rename_i hnone
        exact ⟨h.inv.free_nil (Or.inr hnone), hn⟩
      · cases hn
  obtain ⟨hnil, hn⟩ := hoom
  unfold frameNewOom at hn
  dsimp only at hn
  split at hn
  · rename_i hlow
    cases hn
    refine ⟨rfl, h.no_free hnil, fun f hf => (h.pool f).mpr ?_⟩
    obtain ⟨hpage, hlt, htop⟩ := hf
    obtain ⟨hge, hsub⟩ := h.inv.pool_sub
    have hlow' := BitVec.le_def.mp hlow
    have hlt' := BitVec.lt_def.mp hlt
    have hdvd := h.inv.poolPage
    rw [hsub] at hlow'
    refine ⟨hpage, BitVec.le_def.mpr ?_, BitVec.lt_def.mpr ?_⟩ <;> omega
  · cases hn

/-- The calls of `frame_new` that the heap makes. -/
theorem Tracks.news {m m' : Mem} {F : FrameLists} {r : RefMap} (h : Tracks m F r)
    (hn : News m m') : ∃ F' r', r.News (m.kend - KERNEL_ADDR_BASE) r' ∧ Tracks m' F' r' ∧
      (∀ p, F'.Node p ↔ F.Node p) ∧ m'.kend = m.kend := by
  induction hn with
  | refl => exact ⟨F, r, .refl, h, fun _ => Iff.rfl, rfl⟩
  | same _ hs ih =>
    obtain ⟨F', r', hr, ht, hnode, hkend⟩ := ih
    exact ⟨F', r', hr, ht.same hs, hnode, hs.kend.trans hkend⟩
  | new _ hf ih =>
    obtain ⟨F₁, r₁, hr, ht, hnode, hkend⟩ := ih
    obtain ⟨F', r', hnew, ht', hnode', hkend'⟩ := ht.new hf
    rw [hkend] at hnew
    exact ⟨F', r', hr.new hnew, ht', fun p => (hnode' p).trans (hnode p), hkend'.trans hkend⟩

/-! ### `frame_ref`, `frame_free` and `frame_refc` -/

/-- A frame no structure in use is for has no positive count. -/
theorem Tracks.not_used {m : Mem} {F : FrameLists} {r : RefMap} {n : U32} (h : Tracks m F r)
    (hn : ∀ k, ∀ p ∈ F.used k, m.addrOf p ≠ n) : r.count n = none ∨ r.count n = some 0 := by
  cases hc : r.count n with
  | none => exact Or.inl rfl
  | some c =>
    obtain ⟨p, hp | ⟨k, hp⟩, rfl⟩ := (h.known n).mp (by rw [hc]; exact Option.some_ne_none c)
    · exact Or.inr (hc.symm.trans (h.free p hp))
    · exact absurd rfl (hn k p hp)

theorem Tracks.refc {m : Mem} {F : FrameLists} {r : RefMap} (h : Tracks m F r) (f : U32) :
    ∃ c, frameRefc m f = .ok c ∧ c.toNat = (r.count (f / PAGESZ)).getD 0 := by
  rcases h.inv.ref_cases f with ⟨hnone, -, hc⟩ | ⟨k, p, hp, ha, -, hc⟩
  · refine ⟨0, hc, ?_⟩
    rcases h.not_used hnone with hn | hn <;> rw [hn] <;> rfl
  · refine ⟨m.refcOf p, hc, ?_⟩
    rw [← ha, h.used k p hp]
    rfl

/-- Another count for a structure in use. -/
theorem Tracks.setRefc {m : Mem} {F : FrameLists} {r : RefMap} {p : Ptr} {k : ℕ} {c : U32}
    (h : Tracks m F r) (hp : p ∈ F.used k) (hc : c ≠ 0) :
    Tracks (m.setRefc p c) F (r.set (m.addrOf p) c.toNat) := by
  refine h.move (h.inv.setRefc p hc) (fun q => Iff.rfl) (fun q => (setRefc_links m p q c).2.2) rfl
    (Or.inr ⟨k, hp⟩) (fun q hq => ?_) fun j q hq => ?_
  · refine Or.inr ⟨?_, hq⟩
    rintro rfl
    exact h.inv.apart k q hq hp
  · by_cases hqp : q = p
    · refine Or.inl ⟨hqp, ?_⟩
      rw [setRefc_refc, if_pos rfl]
    · refine Or.inr ⟨hqp, hq, ?_⟩
      rw [setRefc_refc, if_neg hqp]

theorem Tracks.ref {m : Mem} {F : FrameLists} {r : RefMap} {f : U32} (h : Tracks m F r)
    (hc : frameRefc m f ≠ .ok 0xFFFFFFFF) :
    ∃ m', frameRef m f = .ok m' ∧ Tracks m' F (r.ref (f / PAGESZ)) ∧ SameVars m m' := by
  rcases h.inv.ref_cases f with ⟨hnone, hr, -⟩ | ⟨k, p, hp, ha, hr, hrefc⟩
  · refine ⟨m, hr, ?_, SameVars.refl m⟩
    have hsame : r.ref (f / PAGESZ) = r := by
      unfold RefMap.ref
      rcases h.not_used hnone with hn | hn <;> rw [hn]
    rw [hsame]
    exact h
  · rw [hrefc] at hc
    have hlt : (m.refcOf p).toNat + 1 < 2 ^ 32 := by
      have hmax : (m.refcOf p).toNat ≠ 0xFFFFFFFF := fun he =>
        hc (congrArg Except.ok (BitVec.eq_of_toNat_eq he))
      have := (m.refcOf p).isLt
      omega
    have hnat : (m.refcOf p + 1).toNat = (m.refcOf p).toNat + 1 := by
      rw [BitVec.toNat_add]
      exact Nat.mod_eq_of_lt hlt
    have hne : m.refcOf p + 1 ≠ 0 := fun he => by
      rw [he] at hnat
      cases hnat
    refine ⟨_, hr, ?_, ⟨rfl, rfl, rfl, rfl, rfl, rfl, rfl⟩⟩
    have ht := h.setRefc hp hne
    rw [hnat] at ht
    have hset : r.ref (f / PAGESZ) = r.set (m.addrOf p) ((m.refcOf p).toNat + 1) := by
      have hpos : (m.refcOf p).toNat ≠ 0 := fun hz =>
        h.inv.counted k p hp (BitVec.eq_of_toNat_eq hz)
      obtain ⟨c, hcnt⟩ := Nat.exists_eq_succ_of_ne_zero hpos
      unfold RefMap.ref
      rw [← ha, h.used k p hp, hcnt]
    rw [hset]
    exact ht

theorem Tracks.freed {m : Mem} {F : FrameLists} {r : RefMap} (h : Tracks m F r) (f : U32) :
    ∃ m' F', frameFree m f = .ok m' ∧ Tracks m' F' (r.free (f / PAGESZ)) ∧
      ∀ p, F'.Node p ↔ F.Node p := by
  rcases h.inv.free_cases f with ⟨hnone, hr⟩ | ⟨k, p, hp, ha, hr⟩
  · refine ⟨m, F, hr, ?_, fun _ => Iff.rfl⟩
    have hsame : r.free (f / PAGESZ) = r := by
      unfold RefMap.free
      rcases h.not_used hnone with hn | hn <;> rw [hn]
    rw [hsame]
    exact h
  · have hpos : (m.refcOf p).toNat ≠ 0 := fun hz =>
      h.inv.counted k p hp (BitVec.eq_of_toNat_eq hz)
    have hset : r.free (f / PAGESZ) = r.set (m.addrOf p) ((m.refcOf p).toNat - 1) := by
      obtain ⟨c, hcnt⟩ := Nat.exists_eq_succ_of_ne_zero hpos
      unfold RefMap.free
      rw [← ha, h.used k p hp, hcnt]
      rfl
    rw [hset]
    rcases hr with ⟨hone, hr⟩ | ⟨hone, hr⟩
    · obtain ⟨hinv, hnode⟩ := h.inv.giveFrame hp
      refine ⟨_, F.give k p, hr, ?_, hnode⟩
      have hzero : (m.refcOf p).toNat - 1 = 0 := by rw [hone]; rfl
      rw [hzero]
      refine h.move hinv hnode (fun q => (giveFrame_data m p q).1) (giveFrame_vals m p).2.2.2.1
        (Or.inr ⟨k, hp⟩) (fun q hq => ?_) fun j q hq => ?_
      · rcases List.mem_cons.mp hq with rfl | hold
        · exact Or.inl ⟨rfl, rfl⟩
        · refine Or.inr ⟨?_, hold⟩
          rintro rfl
          exact h.inv.apart k q hold hp
      · obtain ⟨hold, hne⟩ := (FrameLists.mem_give (h.inv.usedNodup k)).mp hq
        refine Or.inr ⟨?_, hold, (giveFrame_data m p q).2⟩
        rintro rfl
        exact hne ((h.inv.hashed j q hold).symm.trans (h.inv.hashed k q hp)) rfl
    · have hnat : (m.refcOf p - 1).toNat = (m.refcOf p).toNat - 1 := by
        have hle : (1 : U32).toNat ≤ (m.refcOf p).toNat := Nat.one_le_iff_ne_zero.mpr hpos
        rw [BitVec.toNat_sub_of_le (BitVec.le_def.mpr hle)]
        rfl
      have hne : m.refcOf p - 1 ≠ 0 := refc_sub_ne hpos hone
      refine ⟨_, F, hr, ?_, fun _ => Iff.rfl⟩
      have ht := h.setRefc hp hne
      rw [hnat] at ht
      exact ht

/-! ### `frame_add` -/

/-- The structures are blocks of the heap, in use. -/
def FrameLists.InHeap (F : FrameLists) (m : Mem) : Prop :=
  ∃ L, HeapInv m L ∧ ∀ p, F.Node p → p ∈ L 2

theorem FrameLists.InHeap.same {F F' : FrameLists} {m m' : Mem} (h : F.InHeap m)
    (hs : SameHeap m m') (hnode : ∀ p, F'.Node p ↔ F.Node p) : F'.InHeap m' := by
  obtain ⟨L, hL, hin⟩ := h
  exact ⟨L, hL.same hs, fun p hp => hin p ((hnode p).mp hp)⟩

theorem addFrame_vars (m : Mem) (fs : Ptr) (n : U32) :
    SameVars m (m.addFrame fs n) ∧ (m.addFrame fs n).phys = m.phys := by
  have hset : SameVars m (m.setFrame fs fun _ => ⟨m.frameList, none, 0, n⟩) :=
    ⟨rfl, rfl, rfl, rfl, rfl, rfl, rfl⟩
  have hprev := hset.trans (setPrev_vars _ m.frameList (some fs))
  refine ⟨⟨hprev.bucket, hprev.brk, hprev.analysis, hprev.cr3, hprev.kend, hprev.table,
    hprev.active⟩, ?_⟩
  exact setPrev_phys (m.setFrame fs fun _ => ⟨m.frameList, none, 0, n⟩) m.frameList (some fs)

theorem addFrame_heap (m : Mem) (fs : Ptr) (n : U32) : SameHeap m (m.addFrame fs n) :=
  (addFrame_vars m fs n).1.heap

theorem Tracks.added {m m' : Mem} {F : FrameLists} {r : RefMap} {f : U32} (h : Tracks m F r)
    (hin : F.InHeap m) (hadd : frameAdd m f = .ok m') (hnew : r.count (f / PAGESZ) = none)
    (hboot : KERNEL_BOOT_SIZE ≤ f) :
    ∃ F' r', r.Step (m.kend - KERNEL_ADDR_BASE) (.add f) none r' ∧ Tracks m' F' r' ∧
      F'.InHeap m' ∧ m'.kend = m.kend ∧
      ∀ n, r'.count n ≠ none ↔ r.count n ≠ none ∨ n = f / PAGESZ := by
  obtain ⟨fs, m₁, halloc, rfl⟩ := frameAdd_cases hadd
  obtain ⟨F₁, r₁, hnews, h₁, hnode, hkend⟩ := h.news (heapAlloc_news halloc)
  obtain ⟨L, hL, hnodes⟩ := hin
  have hsize : heapFindBucket 16 = 2 := by decide
  obtain ⟨p, hp, hfresh, hL', -⟩ := hL.allocated hsize (by decide) halloc
  cases hp
  -- the frames known before are those known after the heap took its own
  have hknown : ∀ n, r₁.count n ≠ none ↔ r.count n ≠ none := by
    intro n
    have haddr : ∀ q, m₁.addrOf q = m.addrOf q := News.addr (heapAlloc_news halloc)
    rw [h₁.known, h.known]
    simp only [hnode, haddr]
  have hnone : r₁.count (f / PAGESZ) = none := by
    by_contra hc
    exact (hknown _).mp hc hnew
  have hfs : ¬F₁.Node fs := fun hf => hfresh (hnodes fs ((hnode fs).mp hf))
  have hother : ∀ q, F₁.Node q → m₁.addrOf q ≠ f / PAGESZ := fun q hq he =>
    (h₁.known _).mpr ⟨q, hq, he⟩ hnone
  have hnum : (f / PAGESZ).toNat = f.toNat / 4096 := BitVec.toNat_udiv
  have hle : 0x800000 ≤ f.toNat := BitVec.le_def.mp hboot
  have hlo : (0x800 : U32) ≤ f / PAGESZ := by
    rw [BitVec.le_def, hnum, show (0x800 : U32).toNat = 0x800 from rfl]
    omega
  have hhi : f / PAGESZ < 0x100000 := by
    rw [BitVec.lt_def, hnum, show (0x100000 : U32).toNat = 0x100000 from rfl]
    have := f.isLt
    omega
  have hinv := h₁.inv.addFrame hfs hother hlo hhi
  have haddr : ∀ q, F₁.Node q → (m₁.addFrame fs (f / PAGESZ)).addrOf q = m₁.addrOf q := by
    intro q hq
    rw [(addFrame_data m₁ fs q _).1, if_neg]
    rintro rfl
    exact hfs hq
  have hself : (m₁.addFrame fs (f / PAGESZ)).addrOf fs = f / PAGESZ := by
    rw [(addFrame_data m₁ fs fs _).1, if_pos rfl]
  refine ⟨F₁.add fs, _, .add hnews hnone, ⟨hinv, fun n => ?_, fun q hq => ?_, fun k q hq => ?_,
    ?_⟩, ?_, ?_, fun n => ?_⟩
  · by_cases hn : n = f / PAGESZ
    · rw [hn, RefMap.set_self]
      exact iff_of_true (Option.some_ne_none 0) ⟨fs, Or.inl List.mem_cons_self, hself⟩
    · rw [RefMap.set_of_ne 0 hn, h₁.known]
      constructor
      · rintro ⟨q, hq, rfl⟩
        exact ⟨q, FrameLists.add_node.mpr (Or.inr hq), haddr q hq⟩
      · rintro ⟨q, hq, rfl⟩
        rcases FrameLists.add_node.mp hq with rfl | hold
        · exact absurd hself hn
        · exact ⟨q, hold, (haddr q hold).symm⟩
  · rcases List.mem_cons.mp hq with rfl | hold
    · rw [hself]
      exact RefMap.set_self _ _ _
    · rw [haddr q (Or.inl hold), RefMap.set_of_ne 0 (hother q (Or.inl hold))]
      exact h₁.free q hold
  · have hold : F₁.Node q := Or.inr ⟨k, hq⟩
    have hrefc : (m₁.addFrame fs (f / PAGESZ)).refcOf q = m₁.refcOf q := by
      rw [(addFrame_data m₁ fs q _).2.1, if_neg]
      rintro rfl
      exact hfs hold
    rw [haddr q hold, hrefc, RefMap.set_of_ne 0 (hother q hold)]
    exact h₁.used k q hq
  · rw [(addFrame_vals m₁ fs _).2.2.2.1]
    exact h₁.pool
  · refine ⟨L.push 2 fs, hL'.same (addFrame_heap m₁ fs _), fun q hq => ?_⟩
    rcases FrameLists.add_node.mp hq with rfl | hold
    · exact mem_push_self 2 q
    · exact mem_push_of_mem (hnodes q ((hnode q).mp hold))
  · rw [(addFrame_vals m₁ fs _).2.2.2.2]
    exact hkend
  · by_cases hn : n = f / PAGESZ
    · rw [hn, RefMap.set_self]
      exact iff_of_true (Option.some_ne_none 0) (Or.inr rfl)
    · rw [RefMap.set_of_ne 0 hn, hknown]
      exact ⟨Or.inl, fun ho => ho.resolve_right hn⟩

/-! ### Runs of the allocator -/

/-- The frame allocator and the heap before `init` runs. -/
structure ColdFrames (m : Mem) : Prop where
  list : m.frameList = none
  hash : ∀ k, m.frameHash k = none
  oom : m.outOfMemory = true
  pool : m.oomPool = KERNEL_BOOT_SIZE
  brk : m.brk = KERNEL_HEAP
  bucket : ∀ b, m.heapBucket b = []

/-- The number of a frame that one of the calls adds. -/
def AddedBy (ops : List FrameOp) (n : U32) : Prop := ∃ f, .add f ∈ ops ∧ f / PAGESZ = n

/-- After the calls `ops`, which led to `m`: a frame that is added is a new one outside
the boot memory, and a count that is raised stays below `2 ^ 32`. -/
def FrameOp.Allowed (ops : List FrameOp) (m : Mem) : FrameOp → Prop
  | .add f => KERNEL_BOOT_SIZE ≤ f ∧ ¬AddedBy ops (f / PAGESZ)
  | .ref f => frameRefc m f ≠ .ok 0xFFFFFFFF
  | _ => True

/-- Sequences of calls with their results. -/
inductive FrameRun (m₀ : Mem) : List FrameOp → List (Option U32) → Mem → Prop
  | start : FrameRun m₀ [] [] m₀
  | step {ops : List FrameOp} {outs : List (Option U32)} {m m' : Mem} {op : FrameOp}
      {out : Option U32} : FrameRun m₀ ops outs m → op.Allowed ops m →
      op.run m = .ok (out, m') → FrameRun m₀ (ops ++ [op]) (outs ++ [out]) m'

/-- The frame has one structure, and it is either on the free list or in the bucket of
the frame. -/
def FrameLists.OnOne (F : FrameLists) (m : Mem) (n : U32) : Prop :=
  ∃ p, m.addrOf p = n ∧ (∀ q, F.Node q → m.addrOf q = n → q = p) ∧
    (p ∈ F.free ∧ (∀ k, p ∉ F.used k) ∨ p ∉ F.free ∧ ∀ k, p ∈ F.used k ↔ k = bucketOf n)

theorem Tracks.onOne {m : Mem} {F : FrameLists} {r : RefMap} {n : U32} (h : Tracks m F r)
    (hn : r.count n ≠ none) : F.OnOne m n := by
  obtain ⟨p, hp, rfl⟩ := (h.known n).mp hn
  refine ⟨p, rfl, fun q hq he => h.inv.inj q p hq hp he, ?_⟩
  rcases hp with hp | ⟨j, hp⟩
  · exact Or.inl ⟨hp, fun k => h.inv.apart k p hp⟩
  · refine Or.inr ⟨fun hf => h.inv.apart j p hf hp, fun k => ⟨fun hk => ?_, ?_⟩⟩
    · exact (h.inv.hashed k p hk).symm
    · rintro rfl
      exact h.inv.mem_bucket hp

theorem ColdFrames.tracks {m : Mem} (h : ColdFrames m) :
    Tracks m ⟨[], fun _ => []⟩ .empty ∧ FrameLists.InHeap ⟨[], fun _ => []⟩ m := by
  have hnode : ∀ p, ¬FrameLists.Node ⟨[], fun _ => []⟩ p := by
    rintro p (hp | ⟨k, hp⟩) <;> cases hp
  refine ⟨⟨⟨h.list, h.hash, ?_, ?_, List.nodup_nil, fun _ => List.nodup_nil, ?_, ?_, ?_,
    fun _ => rfl, ?_, ?_, ?_⟩, fun n => ?_, ?_, ?_, fun f => ?_⟩, _,
    HeapInv.start h.brk h.bucket, fun p hp => absurd hp (hnode p)⟩
  · exact fun k p hp => nomatch hp
  · exact fun k p hp => nomatch hp
  · exact fun k p hp => nomatch hp
  · exact fun p q hp => absurd hp (hnode p)
  · exact fun p hp => absurd hp (hnode p)
  · rw [h.pool]; decide
  · rw [h.pool]; exact BitVec.le_refl _
  · rw [h.pool]; decide
  · exact iff_of_false (fun hne => hne rfl) fun ⟨p, hp, _⟩ => hnode p hp
  · exact fun p hp => nomatch hp
  · exact fun k p hp => nomatch hp
  · refine iff_of_false (Set.notMem_empty f) fun ⟨_, hle, hlt⟩ => ?_
    rw [h.pool] at hle
    exact absurd hlt (BitVec.not_lt.mpr hle)

theorem RefMap.ref_known (r : RefMap) (n k : U32) :
    (r.ref n).count k ≠ none ↔ r.count k ≠ none := by
  unfold RefMap.ref
  split
  · rename_i c hc
    exact RefMap.set_known (by rw [hc]; exact Option.some_ne_none _) k
  · exact Iff.rfl

theorem RefMap.free_known (r : RefMap) (n k : U32) :
    (r.free n).count k ≠ none ↔ r.count k ≠ none := by
  unfold RefMap.free
  split
  · rename_i c hc
    exact RefMap.set_known (by rw [hc]; exact Option.some_ne_none _) k
  · exact Iff.rfl

theorem RefMap.New.known {low f : U32} {r r' : RefMap} (h : r.New low f r') (k : U32) :
    r'.count k ≠ none ↔ r.count k ≠ none := by
  cases h with
  | frame _ hc => exact RefMap.set_known (by rw [hc]; exact Option.some_ne_none _) k
  | boot => exact Iff.rfl

/-- An added frame is one that was added before or by the last call. -/
theorem addedBy_snoc {ops : List FrameOp} {op : FrameOp} {n : U32} :
    AddedBy (ops ++ [op]) n ↔ AddedBy ops n ∨ ∃ f, op = .add f ∧ f / PAGESZ = n := by
  unfold AddedBy
  simp only [List.mem_append, List.mem_singleton, or_and_right, exists_or, eq_comm]

/-- The run of the map that goes with a run of the allocator. -/
theorem FrameRun.tracks {m₀ m : Mem} {ops : List FrameOp} {outs : List (Option U32)}
    (h : FrameRun m₀ ops outs m) (hcold : ColdFrames m₀) :
    ∃ r F, RefMap.Run (m₀.kend - KERNEL_ADDR_BASE) ops outs r ∧ Tracks m F r ∧ F.InHeap m ∧
      m.kend = m₀.kend ∧ ∀ n, r.count n ≠ none ↔ AddedBy ops n := by
  induction h with
  | start =>
    obtain ⟨ht, hin⟩ := hcold.tracks
    refine ⟨_, _, .start, ht, hin, rfl, fun n => ?_⟩
    exact iff_of_false (fun hne => hne rfl) fun ⟨f, hf, _⟩ => nomatch hf
  | @step ops outs m m' op out _ hok hrun ih =>
    obtain ⟨r, F, hr, ht, hin, hkend, hadded⟩ := ih
    have hkeep : ∀ {r' : RefMap}, (∀ n, r'.count n ≠ none ↔ r.count n ≠ none) →
        (∀ f, op ≠ .add f) → ∀ n, r'.count n ≠ none ↔ AddedBy (ops ++ [op]) n := by
      intro r' hr' hop n
      rw [hr', hadded, addedBy_snoc]
      exact ⟨Or.inl, fun ho => ho.resolve_right fun ⟨f, hf, _⟩ => hop f hf⟩
    cases op with
    | add f =>
      obtain ⟨m₁, hadd, heq⟩ := bind_eq_ok.mp hrun
      cases heq
      have hnone : r.count (f / PAGESZ) = none := by
        by_contra hc
        exact hok.2 ((hadded _).mp hc)
      obtain ⟨F', r', hstep, ht', hin', hkend', hknown⟩ := ht.added hin hadd hnone hok.1
      rw [hkend] at hstep
      refine ⟨r', F', hr.step hstep, ht', hin', hkend'.trans hkend, fun n => ?_⟩
      rw [hknown, hadded, addedBy_snoc]
      refine or_congr_right ⟨?_, ?_⟩
      · rintro rfl
        exact ⟨f, rfl, rfl⟩
      · rintro ⟨g, hg, rfl⟩
        cases hg
        rfl
    | new =>
      obtain ⟨⟨f, m₁⟩, hnew, heq⟩ := bind_eq_ok.mp hrun
      cases heq
      obtain ⟨F', r', hstep, ht', hnode, hkend'⟩ := ht.new hnew
      rw [hkend] at hstep
      exact ⟨r', F', hr.step (.new hstep), ht', hin.same (frameNew_vars hnew).heap hnode,
        hkend'.trans hkend, hkeep hstep.known fun f => by simp⟩
    | ref f =>
      obtain ⟨m₁, href, heq⟩ := bind_eq_ok.mp hrun
      cases heq
      obtain ⟨m₂, href', ht', hvars⟩ := ht.ref hok
      cases href.symm.trans href'
      exact ⟨_, F, hr.step .ref, ht', hin.same hvars.heap fun _ => Iff.rfl,
        hvars.kend.trans hkend, hkeep (r.ref_known _) fun f => by simp⟩
    | free f =>
      obtain ⟨m₁, hfree, heq⟩ := bind_eq_ok.mp hrun
      cases heq
      obtain ⟨m₂, F', hfree', ht', hnode⟩ := ht.freed f
      cases hfree.symm.trans hfree'
      have hvars := frameFree_vars hfree
      exact ⟨_, F', hr.step .free, ht', hin.same hvars.heap hnode, hvars.kend.trans hkend,
        hkeep (r.free_known _) fun f => by simp⟩

/-- **The frame allocator refines a map of reference counts**, over every sequence of
calls: the results are those of the map, `frame_refc` reads it, the structures of the
added frames are on one list each, and `frame_new` stops only when no frame is left. -/
theorem frames_refine {m₀ m : Mem} {ops : List FrameOp} {outs : List (Option U32)}
    (hcold : ColdFrames m₀) (h : FrameRun m₀ ops outs m) :
    ∃ (r : RefMap) (F : FrameLists), RefMap.Run (m₀.kend - KERNEL_ADDR_BASE) ops outs r ∧
      (∀ n, r.count n ≠ none ↔ AddedBy ops n) ∧
      (∀ f, ∃ c, frameRefc m f = .ok c ∧ c.toNat = (r.count (f / PAGESZ)).getD 0) ∧
      (∀ n, AddedBy ops n → F.OnOne m n) ∧
      (∀ p ∈ F.free, r.count (m.addrOf p) = some 0) ∧
      (∀ k, ∀ p ∈ F.used k, r.count (m.addrOf p) ≠ some 0) ∧
      (Path m.nextOf m.frameList F.free ∧ F.free.Nodup) ∧
      (∀ k, Linked m.nextOf m.prevOf none (m.frameHash k) (F.used k) ∧ (F.used k).Nodup) ∧
      (∀ e, frameNew m = .error e → e = .panic "out of memory" ∧ (∀ n, r.count n ≠ some 0) ∧
        ∀ f, BootFrame (m₀.kend - KERNEL_ADDR_BASE) f → f ∈ r.pool) ∧
      ∀ f, (∃ m', frameRef m f = .ok m') ∧ ∃ m', frameFree m f = .ok m' := by
  obtain ⟨r, F, hr, ht, -, hkend, hadded⟩ := h.tracks hcold
  refine ⟨r, F, hr, hadded, ht.refc, fun n hn => ht.onOne ((hadded n).mpr hn), ht.free,
    fun k p hp hz => ?_, ⟨ht.inv.path, ht.inv.freeNodup⟩,
    fun k => ⟨ht.inv.linked k, ht.inv.usedNodup k⟩, fun e he => ?_, fun f => ⟨?_, ?_⟩⟩
  · rw [ht.used k p hp] at hz
    exact ht.inv.counted k p hp (BitVec.eq_of_toNat_eq (Option.some.inj hz))
  · rw [← hkend]
    exact ht.new_error he
  · rcases ht.inv.ref_cases f with ⟨-, hr, -⟩ | ⟨k, p, -, -, hr, -⟩ <;> exact ⟨_, hr⟩
  · obtain ⟨m', -, hfree, -⟩ := ht.freed f
    exact ⟨m', hfree⟩

/-- One frame is added, allocated, referenced and freed once; in between the list is empty
and a boot frame is allocated. -/
theorem frames_refine_boot : ∃ m, FrameRun flatMem
      [.add 0x800000, .new, .new, .ref 0x800000, .free 0x800123]
      [none, some 0x800000, some 0x7FE000, none, none] m ∧
    ∃ (r : RefMap) (F : FrameLists), RefMap.Run (flatMem.kend - KERNEL_ADDR_BASE)
      [.add 0x800000, .new, .new, .ref 0x800000, .free 0x800123]
      [none, some 0x800000, some 0x7FE000, none, none] r ∧ F.OnOne m 0x800 ∧
      r.count 0x800 = some 1 := by
  have hcold : ColdFrames flatMem := ⟨rfl, fun _ => rfl, rfl, rfl, rfl, fun _ => rfl⟩
  have hrun : ((frameAdd flatMem 0x800000).toOption.any fun m₁ =>
      (frameNew m₁).toOption.any fun x₂ => decide (x₂.1 = 0x800000) &&
      (frameNew x₂.2).toOption.any fun x₃ => decide (x₃.1 = 0x7FE000) &&
      (frameRefc x₃.2 0x800000).toOption.any fun c => decide (c ≠ 0xFFFFFFFF) &&
      (frameRef x₃.2 0x800000).toOption.any fun m₄ =>
      (frameFree m₄ 0x800123).toOption.any fun m₅ =>
      (frameRefc m₅ 0x800000).toOption.any fun c => decide (c = 1)) = true := by
    decide +kernel
  simp only [Option.any_eq_true, Bool.and_eq_true, decide_eq_true_eq, toOption_eq_some] at hrun
  obtain ⟨m₁, h₁, ⟨f₂, m₂⟩, h₂, rfl, ⟨f₃, m₃⟩, h₃, rfl, c, hc, hmax, m₄, h₄, m₅, h₅,
    c', hc', rfl⟩ :=
    hrun
  have hfirst : FrameOp.Allowed [] flatMem (.add 0x800000) :=
    ⟨by decide, fun ⟨f, hf, _⟩ => nomatch hf⟩
  have hrun₁ := FrameRun.start.step hfirst (show FrameOp.run flatMem (.add 0x800000) = _ by
    rw [FrameOp.run, h₁]; rfl)
  have hrun₂ := hrun₁.step (show FrameOp.Allowed _ m₁ .new from trivial)
    (show FrameOp.run m₁ .new = _ by
    rw [FrameOp.run, h₂]; rfl)
  have hrun₃ := hrun₂.step (show FrameOp.Allowed _ m₂ .new from trivial)
    (show FrameOp.run m₂ .new = _ by
    rw [FrameOp.run, h₃]; rfl)
  have hbelow : FrameOp.Allowed [.add 0x800000, .new, .new] m₃ (.ref 0x800000) := by
    show frameRefc m₃ 0x800000 ≠ .ok 0xFFFFFFFF
    rw [hc]
    exact fun he => hmax (Except.ok.inj he)
  have hrun₄ := hrun₃.step hbelow
    (show FrameOp.run m₃ (.ref 0x800000) = _ by rw [FrameOp.run, h₄]; rfl)
  have hrun₅ := hrun₄.step (show FrameOp.Allowed _ m₄ (.free 0x800123) from trivial)
    (show FrameOp.run m₄ (.free 0x800123) = _ by rw [FrameOp.run, h₅]; rfl)
  refine ⟨m₅, hrun₅, ?_⟩
  obtain ⟨r, F, hr, hadded, hcount, hone, -⟩ := frames_refine hcold hrun₅
  have hmem : AddedBy [.add 0x800000, .new, .new, .ref 0x800000, .free 0x800123] 0x800 :=
    ⟨0x800000, List.mem_cons_self, by decide⟩
  refine ⟨r, F, hr, hone _ hmem, ?_⟩
  obtain ⟨c, hc₁, hc₂⟩ := hcount 0x800000
  cases hc'.symm.trans hc₁
  have hknown := (hadded 0x800).mpr hmem
  rw [show (0x800000 : U32) / PAGESZ = 0x800 from by decide] at hc₂
  cases hn : r.count 0x800 with
  | none => exact absurd hn hknown
  | some k =>
    rw [hn] at hc₂
    exact congrArg some hc₂.symm

end Pinion
