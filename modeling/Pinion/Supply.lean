/-
The frames `frame_new` may return.

`Supply m A` says that they are all in `A`.  An allocation takes its frame out of `A`,
freeing a frame puts it back.

* `Supply.new`, `Supply.free` — one lemma per operation;
* `Frees G m m'` — calls of `frame_free` on frames in `G`, and steps outside the
  allocator.
-/
import Pinion.FrameMap
import Pinion.Paging

open Runs

namespace Pinion

/-- Every frame that `frame_new` may return, now or after more allocations, is in `A`. -/
def Supply (m : Mem) (A : Set (BitVec 20)) : Prop :=
  ∃ F, FrameInv m F ∧ (∀ p ∈ F.free, frameNo (m.addrOf p * PAGESZ) ∈ A) ∧
    ∀ f : U32, 4096 ∣ f.toNat → m.kend - KERNEL_ADDR_BASE < f → f < m.oomPool → frameNo f ∈ A

theorem Supply.same {m m' : Mem} {A : Set (BitVec 20)} (h : Supply m A) (hs : SameFrames m m') :
    Supply m' A := by
  obtain ⟨F, hinv, hfree, hpool⟩ := h
  have ha : m'.addrOf = m.addrOf := by funext p; rw [Mem.addrOf, hs.struct, Mem.addrOf]
  refine ⟨F, hinv.same hs, ?_, ?_⟩
  · rw [ha]; exact hfree
  · rw [hs.kend, hs.pool]; exact hpool

theorem Supply.mono {m : Mem} {A B : Set (BitVec 20)} (h : Supply m A) (hAB : A ⊆ B) :
    Supply m B := by
  obtain ⟨F, hinv, hfree, hpool⟩ := h
  exact ⟨F, hinv, fun p hp => hAB (hfree p hp), fun f hd hlo hhi => hAB (hpool f hd hlo hhi)⟩

/-- The number of a frame and the number in its structure. -/
theorem frameNo_mul_toNat {n : U32} (h : n < 0x100000) :
    (frameNo (n * PAGESZ)).toNat = n.toNat := by
  have hdiv := congrArg BitVec.toNat (frameNo_mul h).1
  rw [BitVec.toNat_udiv] at hdiv
  rw [frameNo_toNat]
  exact hdiv

theorem frameNo_div (f : U32) : (f / PAGESZ).toNat = (frameNo f).toNat := by
  rw [frameNo_toNat, BitVec.toNat_udiv]
  rfl

theorem frameNew_phys {m m' : Mem} {f : U32} (h : frameNew m = .ok (f, m')) :
    m'.phys = m.phys := by
  rcases frameNew_cases h with ⟨-, hoom⟩ | ⟨fs, -, -, -, rfl⟩
  · obtain ⟨-, -, rfl⟩ := frameNewOom_ok hoom
    rfl
  · exact setPrev_phys _ _ _

/-- **`frame_new`** returns a frame of the supply, which leaves it. -/
theorem Supply.new {m m' : Mem} {A : Set (BitVec 20)} {f : U32} (h : Supply m A)
    (hnew : frameNew m = .ok (f, m')) :
    frameNo f ∈ A ∧ Supply m' (A \ {frameNo f}) ∧ 4096 ∣ f.toNat ∧ f ≠ 0 := by
  obtain ⟨F, hinv, hfree, hpool⟩ := h
  rcases frameNew_cases hnew with ⟨hempty, hoom⟩ | ⟨fs, hoom, hlist, rfl, rfl⟩
  · have hnil : F.free = [] := hinv.free_nil hempty
    obtain ⟨hinv', hf, hroom, rfl⟩ := hinv.pool hnil hoom
    obtain ⟨hge, hsub⟩ := hinv.pool_sub
    rw [← hf] at hsub
    have hdvd : 4096 ∣ f.toNat := by
      rw [hsub]
      exact Nat.dvd_sub hinv.poolPage (dvd_refl 4096)
    have hlt : f < m.oomPool := by
      rw [BitVec.lt_def]
      omega
    refine ⟨hpool f hdvd hroom hlt, ⟨F, hinv', ?_, ?_⟩, hdvd, ?_⟩
    · intro p hp
      rw [hnil] at hp
      cases hp
    · intro g hd hlo hhi
      refine ⟨hpool g hd hlo (BitVec.lt_trans hhi hlt), fun he => ?_⟩
      have hno := congrArg BitVec.toNat (show frameNo g = frameNo f from he)
      rw [frameNo_toNat, frameNo_toNat] at hno
      have hhi' := BitVec.lt_def.mp hhi
      have hroom' : g.toNat < f.toNat := hhi'
      omega
    · rintro rfl
      exact absurd hroom (by simp)
  · have hmem : fs ∈ F.free := List.mem_of_head? (hinv.path.head.symm.trans hlist)
    have hbound := hinv.bound fs (Or.inl hmem)
    obtain ⟨rest, hrest⟩ := List.head?_eq_some_iff.mp (hinv.path.head.symm.trans hlist)
    have hnodup := hinv.freeNodup
    rw [hrest, List.nodup_cons] at hnodup
    have hvals := takeFrame_vals m fs
    refine ⟨hfree fs hmem, ⟨_, hinv.takeFrame hlist hoom, ?_, ?_⟩, (frameNo_mul hbound.2).2, ?_⟩
    · intro p hp
      rw [FrameLists.take, hrest, List.tail_cons] at hp
      have hpf : p ∈ F.free := by rw [hrest]; exact List.mem_cons_of_mem fs hp
      rw [takeFrame_addr]
      refine ⟨hfree p hpf, fun he => ?_⟩
      have hno := congrArg BitVec.toNat
        (show frameNo (m.addrOf p * PAGESZ) = frameNo (m.addrOf fs * PAGESZ) from he)
      rw [frameNo_mul_toNat (hinv.bound p (Or.inl hpf)).2, frameNo_mul_toNat hbound.2] at hno
      have hpe := hinv.inj p fs (Or.inl hpf) (Or.inl hmem) (BitVec.eq_of_toNat_eq hno)
      exact hnodup.1 (hpe ▸ hp)
    · intro g hd hlo hhi
      rw [hvals.2.2.2.2] at hlo
      rw [hvals.2.2.2.1] at hhi
      refine ⟨hpool g hd hlo hhi, fun he => ?_⟩
      -- a boot frame is below the frames that were added
      have hno := congrArg BitVec.toNat (show frameNo g = frameNo (m.addrOf fs * PAGESZ) from he)
      rw [frameNo_toNat, frameNo_mul_toNat hbound.2] at hno
      have hhi' := BitVec.lt_def.mp hhi
      have htop := BitVec.le_def.mp hinv.poolTop
      have hlow := BitVec.le_def.mp hbound.1
      have h800 : (0x800 : U32).toNat = 0x800 := rfl
      have hsize : KERNEL_BOOT_SIZE.toNat = 0x800000 := rfl
      omega
    · intro hz
      have hno := frameNo_mul_toNat hbound.2
      rw [hz] at hno
      have hlow := BitVec.le_def.mp hbound.1
      have h800 : (0x800 : U32).toNat = 0x800 := rfl
      have hzero : (frameNo 0).toNat = 0 := rfl
      omega

/-- **`frame_free`** puts at most its frame back. -/
theorem Supply.free {m m' : Mem} {A : Set (BitVec 20)} {f : U32} (h : Supply m A)
    (hfr : frameFree m f = .ok m') : Supply m' (insert (frameNo f) A) := by
  obtain ⟨F, hinv, hfree, hpool⟩ := h
  rcases hinv.free_cases f with ⟨-, heq⟩ | ⟨k, p, hp, ha, ⟨-, heq⟩ | ⟨hone, heq⟩⟩
  · cases hfr.symm.trans heq
    exact Supply.mono ⟨F, hinv, hfree, hpool⟩ (Set.subset_insert _ _)
  · cases hfr.symm.trans heq
    have hvals := giveFrame_vals m p
    refine ⟨_, (hinv.giveFrame hp).1, fun q hq => ?_, ?_⟩
    · rw [(giveFrame_data m p q).1]
      rcases List.mem_cons.mp hq with rfl | hold
      · refine Set.mem_insert_iff.mpr (Or.inl (BitVec.eq_of_toNat_eq ?_))
        rw [frameNo_mul_toNat (hinv.bound q (Or.inr ⟨k, hp⟩)).2, ha, frameNo_div]
      · exact Set.mem_insert_of_mem _ (hfree q hold)
    · intro g hd hlo hhi
      rw [hvals.2.2.2.2] at hlo
      rw [hvals.2.2.2.1] at hhi
      exact Set.mem_insert_of_mem _ (hpool g hd hlo hhi)
  · cases hfr.symm.trans heq
    have hpos : (m.refcOf p).toNat ≠ 0 := fun hz =>
      hinv.counted k p hp (BitVec.eq_of_toNat_eq hz)
    refine Supply.mono ⟨F, hinv.setRefc p (refc_sub_ne hpos hone), fun q hq => ?_, hpool⟩
      (Set.subset_insert _ _)
    rw [(setRefc_links m p q _).2.2]
    exact hfree q hq

theorem Supply.free_ok {m : Mem} {A : Set (BitVec 20)} (h : Supply m A) (f : U32) :
    ∃ m', frameFree m f = .ok m' := by
  obtain ⟨F, hinv, -⟩ := h
  rcases hinv.free_cases f with ⟨-, heq⟩ | ⟨k, p, -, -, ⟨-, heq⟩ | ⟨-, heq⟩⟩ <;> exact ⟨_, heq⟩

/-- **`frame_add`** puts a frame into the supply that had no structure. -/
theorem Supply.add {m : Mem} {A : Set (BitVec 20)} {F : FrameLists} {fs : Ptr} {n : U32}
    (h : Supply m A) (hF : FrameInv m F) (hfs : ¬F.Node fs)
    (hn : ∀ p, F.Node p → m.addrOf p ≠ n) (hlo : 0x800 ≤ n) (hhi : n < 0x100000) :
    Supply (m.addFrame fs n) (insert (frameNo (n * PAGESZ)) A) := by
  obtain ⟨F', hinv, hfree, hpool⟩ := h
  obtain rfl := hinv.unique hF
  obtain ⟨-, -, -, hvpool, hvkend⟩ := addFrame_vals m fs n
  refine ⟨_, hF.addFrame hfs hn hlo hhi, fun p hp => ?_, fun f hd hlow hhigh => ?_⟩
  · rw [(addFrame_data m fs p n).1]
    split
    · exact Set.mem_insert _ _
    · rename_i hne
      exact Set.mem_insert_of_mem _ (hfree p ((List.mem_cons.mp hp).resolve_left hne))
  · rw [hvkend] at hlow
    rw [hvpool] at hhigh
    exact Set.mem_insert_of_mem _ (hpool f hd hlow hhigh)

/-! ### Giving frames back -/

/-- Memory after calls of `frame_free` on frames in `G`, and steps outside the frame
allocator. -/
inductive Frees (G : Set (BitVec 20)) (m : Mem) : Mem → Prop
  | refl : Frees G m m
  | same {m₁ m₂ : Mem} : Frees G m m₁ → SameFrames m₁ m₂ → Frees G m m₂
  | free {m₁ m₂ : Mem} {f : U32} : Frees G m m₁ → frameNo f ∈ G → frameFree m₁ f = .ok m₂ →
      Frees G m m₂

theorem Frees.supply {G A : Set (BitVec 20)} {m m' : Mem} (h : Frees G m m') (hA : Supply m A) :
    Supply m' (A ∪ G) := by
  induction h with
  | refl => exact hA.mono Set.subset_union_left
  | same _ hs ih => exact ih.same hs
  | free _ hf hfr ih =>
    refine (ih.free hfr).mono (Set.insert_subset (Or.inr hf) subset_rfl)

theorem frameFree_phys {m m' : Mem} {A : Set (BitVec 20)} {f : U32} (h : Supply m A)
    (hfr : frameFree m f = .ok m') : m'.phys = m.phys := by
  obtain ⟨F, hinv, -⟩ := h
  rcases hinv.free_cases f with ⟨-, heq⟩ | ⟨k, p, -, -, ⟨-, heq⟩ | ⟨-, heq⟩⟩
  · cases hfr.symm.trans heq
    rfl
  · cases hfr.symm.trans heq
    have hunlink : (m.unlink p).phys = m.phys := by
      unfold Mem.unlink
      cases m.prevOf p <;> rfl
    have hpull : (framePull m p).phys = m.phys := by
      rw [framePull_eq, setPrev_phys, hunlink]
    exact (setPrev_phys _ _ _).trans hpull
  · cases hfr.symm.trans heq
    rfl

end Pinion
