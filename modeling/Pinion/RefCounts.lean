/-
The reference counts of frames, as `frame_refc` reads them.

* `lower` — one count of a family goes down, and `foldl_lower`, a list of them;
* `Mem.refs m` — the count of every frame;
* `FrameInv.tracks` — the frame lists hold a map of counts;
* `Supply.take`, `Supply.give`, `Supply.share` — `frame_new` while the pool is not used,
  `frame_free` and `frame_ref`, one count each;
* `Supply.unused` — what `frame_new` may return has count 0.
-/
import Pinion.Supply

open Runs

namespace Pinion

/-! ### Lowering counts -/

section Lower

variable {α : Type} [DecidableEq α] {r : α → ℕ} {a : α}

/-- One count goes down. -/
def lower (r : α → ℕ) (a : α) : α → ℕ := Function.update r a (r a - 1)

theorem lower_self : lower r a a = r a - 1 := Function.update_self _ _ _

theorem lower_of_ne {b : α} (h : b ≠ a) : lower r a b = r b := Function.update_of_ne h _ _

theorem foldl_lower_snoc (l : List α) (r : α → ℕ) (a : α) :
    (l ++ [a]).foldl lower r = lower (l.foldl lower r) a := by
  rw [List.foldl_append]
  rfl

theorem foldl_lower_of_not_mem {l : List α} (h : a ∉ l) : l.foldl lower r a = r a := by
  induction l generalizing r with
  | nil => rfl
  | cons b l ih =>
    obtain ⟨hne, hl⟩ := not_or.mp fun hor => h (List.mem_cons.mpr hor)
    rw [List.foldl_cons, ih hl, lower_of_ne hne]

/-- A list without duplicates lowers each of its counts by one. -/
theorem foldl_lower {l : List α} (hl : l.Nodup) (h : a ∈ l) : l.foldl lower r a = r a - 1 := by
  induction l generalizing r with
  | nil => exact absurd h List.not_mem_nil
  | cons b l ih =>
    obtain ⟨hb, hl⟩ := List.nodup_cons.mp hl
    rw [List.foldl_cons]
    rcases List.mem_cons.mp h with rfl | hmem
    · rw [foldl_lower_of_not_mem hb, lower_self]
    · have hne : a ≠ b := fun he => hb (he ▸ hmem)
      rw [ih hl hmem, lower_of_ne hne]

end Lower

/-! ### The count of a frame -/

/-- The address of a frame. -/
def frameAddr (g : BitVec 20) : U32 := g.setWidth 32 * PAGESZ

theorem frameNo_addr (g : BitVec 20) : frameNo (frameAddr g) = g := by
  have hnat : (g.setWidth 32).toNat = g.toNat := by
    rw [BitVec.toNat_setWidth]
    exact Nat.mod_eq_of_lt (by have := g.isLt; omega)
  have hlt : g.setWidth 32 < (0x100000 : U32) := by
    rw [BitVec.lt_def, hnat]
    exact g.isLt
  exact BitVec.eq_of_toNat_eq ((frameNo_mul_toNat hlt).trans hnat)

/-- The reference count of a frame. -/
def Mem.refs (m : Mem) (g : BitVec 20) : ℕ :=
  match frameRefc m (frameAddr g) with
  | .ok c => c.toNat
  | .error _ => 0

theorem div_eq_iff {f f' : U32} : f / PAGESZ = f' / PAGESZ ↔ frameNo f = frameNo f' := by
  rw [BitVec.toNat_eq, frameNo_div, frameNo_div, ← BitVec.toNat_eq]

/-- Any address in the frame will do. -/
theorem refs_eq {m : Mem} {f c : U32} (h : frameRefc m f = .ok c) :
    m.refs (frameNo f) = c.toNat := by
  have hdiv : frameAddr (frameNo f) / PAGESZ = f / PAGESZ := div_eq_iff.mpr (frameNo_addr _)
  have hsame : frameRefc m (frameAddr (frameNo f)) = frameRefc m f := by
    unfold frameRefc frameFind
    rw [hdiv]
  rw [Mem.refs, hsame, h]

theorem refs_same {m m' : Mem} (h : SameFrames m m') : m'.refs = m.refs := by
  funext g
  have hfind : frameFind m' (frameAddr g) = frameFind m (frameAddr g) := by
    unfold frameFind
    rw [h.struct, h.hash]
  unfold Mem.refs frameRefc
  rw [hfind, h.struct]

section Tracks

variable {m m' : Mem} {F : FrameLists} {r : RefMap} {f : U32} {A : Set (BitVec 20)}

theorem Tracks.refs (h : Tracks m F r) (f : U32) :
    m.refs (frameNo f) = (r.count (f / PAGESZ)).getD 0 := by
  obtain ⟨c, hc, hcount⟩ := h.refc f
  rw [refs_eq hc, hcount]

/-- The counts, when one entry of the map has changed. -/
theorem Tracks.refs_set {F' : FrameLists} {c : ℕ} (h : Tracks m F r)
    (h' : Tracks m' F' (r.set (f / PAGESZ) c)) :
    m'.refs = Function.update m.refs (frameNo f) c := by
  funext g
  rw [← frameNo_addr g, h'.refs]
  by_cases hg : frameNo (frameAddr g) = frameNo f
  · rw [hg, Function.update_self, div_eq_iff.mpr hg, RefMap.set_self]
    rfl
  · rw [Function.update_of_ne hg, RefMap.set_of_ne _ (fun he => hg (div_eq_iff.mp he)), h.refs]

open Classical in
/-- The lists hold a map of counts. -/
theorem FrameInv.tracks (h : FrameInv m F) : ∃ r, Tracks m F r := by
  let count : U32 → Option ℕ := fun n =>
    if ∃ p ∈ F.free, m.addrOf p = n then some 0
    else if hu : ∃ p k, p ∈ F.used k ∧ m.addrOf p = n then some (m.refcOf hu.choose).toNat
    else none
  have hfree : ∀ p ∈ F.free, count (m.addrOf p) = some 0 := fun p hp => if_pos ⟨p, hp, rfl⟩
  have hused : ∀ k, ∀ p ∈ F.used k, count (m.addrOf p) = some (m.refcOf p).toNat := by
    intro k p hp
    have hnot : ¬∃ q ∈ F.free, m.addrOf q = m.addrOf p := by
      rintro ⟨q, hq, he⟩
      have heq := h.inj q p (Or.inl hq) (Or.inr ⟨k, hp⟩) he
      exact h.apart k p (heq ▸ hq) hp
    have hu : ∃ q k, q ∈ F.used k ∧ m.addrOf q = m.addrOf p := ⟨p, k, hp, rfl⟩
    -- the structure that is chosen is the one at hand
    obtain ⟨j, hj, he⟩ := hu.choose_spec
    have heq : hu.choose = p := h.inj _ p (Or.inr ⟨j, hj⟩) (Or.inr ⟨k, hp⟩) he
    simp only [count]
    rw [if_neg hnot, dif_pos hu, heq]
  refine ⟨⟨count, {f | 4096 ∣ f.toNat ∧ m.oomPool ≤ f ∧ f < KERNEL_BOOT_SIZE}⟩, h, fun n => ?_,
    hfree, hused, fun f => Iff.rfl⟩
  constructor
  · intro hn
    by_cases hf : ∃ p ∈ F.free, m.addrOf p = n
    · obtain ⟨p, hp, he⟩ := hf
      exact ⟨p, Or.inl hp, he⟩
    · by_cases hu : ∃ p k, p ∈ F.used k ∧ m.addrOf p = n
      · obtain ⟨p, k, hp, he⟩ := hu
        exact ⟨p, Or.inr ⟨k, hp⟩, he⟩
      · refine absurd ?_ hn
        show count n = none
        simp only [count]
        rw [if_neg hf, dif_neg hu]
  · rintro ⟨p, hp | ⟨k, hp⟩, rfl⟩
    · show count _ ≠ none
      rw [hfree p hp]
      exact Option.some_ne_none _
    · show count _ ≠ none
      rw [hused k p hp]
      exact Option.some_ne_none _

theorem Supply.tracks (h : Supply m A) : ∃ F r, Tracks m F r := by
  obtain ⟨F, hinv, -⟩ := h
  obtain ⟨r, hr⟩ := hinv.tracks
  exact ⟨F, r, hr⟩

/-- **`frame_new`**, when it does not use the boot pool, returns a frame with count 0 and
sets its count to 1. -/
theorem Supply.take (h : Supply m A) (hnew : frameNew m = .ok (f, m'))
    (hpool : m'.oomPool = m.oomPool) :
    m.refs (frameNo f) = 0 ∧ m'.refs = Function.update m.refs (frameNo f) 1 := by
  obtain ⟨F, r, ht⟩ := h.tracks
  obtain ⟨F', r', hr, ht', -, -⟩ := ht.new hnew
  cases hr with
  | frame hdvd hcount =>
    refine ⟨?_, ht.refs_set ht'⟩
    rw [ht.refs, hcount]
    rfl
  | boot hno hout hboot =>
    -- the frame would be in the pool before and not in it after the call
    have hin := (ht'.pool f).mp (Set.mem_insert f r.pool)
    rw [hpool, ← ht.pool] at hin
    exact absurd hin hout

/-- Such a frame lies above the boot frames. -/
theorem Supply.take_high (h : Supply m A) (hnew : frameNew m = .ok (f, m'))
    (hpool : m'.oomPool = m.oomPool) : 0x800 ≤ (frameNo f).toNat := by
  obtain ⟨F, r, ht⟩ := h.tracks
  obtain ⟨F', r', hr, ht', -, -⟩ := ht.new hnew
  cases hr with
  | frame hdvd hcount =>
    obtain ⟨p, hp, ha⟩ := (ht.known (f / PAGESZ)).mp (by rw [hcount]; exact Option.some_ne_none _)
    have hbound := BitVec.le_def.mp (ht.inv.bound p hp).1
    rw [ha, frameNo_div] at hbound
    exact hbound
  | boot hno hout hboot =>
    have hin := (ht'.pool f).mp (Set.mem_insert f r.pool)
    rw [hpool, ← ht.pool] at hin
    exact absurd hin hout

/-- **`frame_free`** lowers one count. -/
theorem Supply.give (h : Supply m A) (hfree : frameFree m f = .ok m') :
    m'.refs = lower m.refs (frameNo f) := by
  obtain ⟨F, r, ht⟩ := h.tracks
  obtain ⟨m₁, F', hm₁, ht', -⟩ := ht.freed f
  cases hfree.symm.trans hm₁
  have hcount := ht.refs f
  -- a frame that is not in use keeps its entry
  have hkeep (hz : m.refs (frameNo f) = 0) (hr : r.free (f / PAGESZ) = r) :
      m'.refs = lower m.refs (frameNo f) := by
    rw [hr] at ht'
    have hsame : m'.refs = m.refs := by
      funext g
      rw [← frameNo_addr g, ht'.refs, ht.refs]
    rw [hsame, lower, hz, Nat.zero_sub, ← hz, Function.update_eq_self]
  cases hc : r.count (f / PAGESZ) with
  | none => exact hkeep (by rw [hcount, hc]; rfl) (by rw [RefMap.free, hc])
  | some c =>
    cases c with
    | zero => exact hkeep (by rw [hcount, hc]; rfl) (by rw [RefMap.free, hc])
    | succ c =>
      have hset : r.free (f / PAGESZ) = r.set (f / PAGESZ) c := by rw [RefMap.free, hc]
      rw [hset] at ht'
      have hone : m.refs (frameNo f) - 1 = c := by
        rw [hcount, hc]
        rfl
      rw [ht.refs_set ht', lower, hone]

/-- **`frame_ref`** of a frame in use raises one count. -/
theorem Supply.share (h : Supply m A) (hpos : 0 < m.refs (frameNo f))
    (hmax : frameRefc m f ≠ .ok 0xFFFFFFFF) (href : frameRef m f = .ok m') :
    Supply m' A ∧ m'.refs = Function.update m.refs (frameNo f) (m.refs (frameNo f) + 1) := by
  obtain ⟨F, r, ht⟩ := h.tracks
  obtain ⟨m₁, hm₁, ht', -⟩ := ht.ref hmax
  cases href.symm.trans hm₁
  refine ⟨?_, ?_⟩
  · obtain ⟨F', hinv, hfree, hpool⟩ := h
    rcases hinv.ref_cases f with ⟨-, hr, -⟩ | ⟨k, p, hp, -, hr, hc⟩
    · cases href.symm.trans hr
      exact ⟨F', hinv, hfree, hpool⟩
    · cases href.symm.trans hr
      have hne : m.refcOf p + 1 ≠ 0 := by
        intro hz
        refine hmax (hc.trans (congrArg Except.ok ?_))
        rw [← BitVec.add_sub_cancel (m.refcOf p) 1, hz]
        rfl
      refine ⟨F', hinv.setRefc p hne, fun q hq => ?_, hpool⟩
      rw [(setRefc_links m p q _).2.2]
      exact hfree q hq
  · have hcount := ht.refs f
    cases hc : r.count (f / PAGESZ) with
    | none =>
      rw [hcount, hc] at hpos
      exact absurd hpos (lt_irrefl 0)
    | some c =>
      rw [hcount, hc] at hpos
      obtain ⟨c, rfl⟩ := Nat.exists_eq_succ_of_ne_zero (Nat.pos_iff_ne_zero.mp hpos)
      have hset : r.ref (f / PAGESZ) = r.set (f / PAGESZ) (c + 2) := by rw [RefMap.ref, hc]
      rw [hset] at ht'
      have hone : m.refs (frameNo f) + 1 = c + 2 := by
        rw [hcount, hc]
        rfl
      rw [ht.refs_set ht', hone]

/-- A frame without a structure in use has count 0. -/
theorem FrameInv.refs_zero (h : FrameInv m F)
    (hnot : ∀ k, ∀ p ∈ F.used k, m.addrOf p ≠ f / PAGESZ) : m.refs (frameNo f) = 0 := by
  rcases h.ref_cases f with ⟨-, -, hc⟩ | ⟨k, p, hp, ha, -⟩
  · rw [refs_eq hc]
    rfl
  · exact absurd ha (hnot k p hp)

/-- What `frame_new` may return is not in use. -/
theorem Supply.unused (h : Supply m A) : Supply m {g | g ∈ A ∧ m.refs g = 0} := by
  obtain ⟨F, hinv, hfree, hpool⟩ := h
  refine ⟨F, hinv, fun p hp => ⟨hfree p hp, hinv.refs_zero fun k q hq he => ?_⟩,
    fun f hd hlo hhi => ⟨hpool f hd hlo hhi, hinv.refs_zero fun k q hq he => ?_⟩⟩
  · rw [(frameNo_mul (hinv.bound p (Or.inl hp)).2).1] at he
    have heq := hinv.inj q p (Or.inr ⟨k, hq⟩) (Or.inl hp) he
    exact hinv.apart k p hp (heq ▸ hq)
  · -- the frames that were added lie above the boot frames
    have hbound := BitVec.le_def.mp (hinv.bound q (Or.inr ⟨k, hq⟩)).1
    have hnum : (f / PAGESZ).toNat = f.toNat / 4096 := by rw [frameNo_div, frameNo_toNat]
    rw [he, hnum] at hbound
    have hlt := BitVec.lt_def.mp hhi
    have htop := BitVec.le_def.mp hinv.poolTop
    have h800 : (0x800 : U32).toNat = 0x800 := rfl
    have hsize : KERNEL_BOOT_SIZE.toNat = 0x800000 := rfl
    omega

end Tracks

end Pinion
