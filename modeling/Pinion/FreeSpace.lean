/-
The frames `space_free` gives back.

* `spaceFreeR` — `space_free`, noting its calls of `frame_free`;
* `Mem.spaceFrees m S n` — the frames of the first `n` entries of the directory `S`, in the
  order in which `space_free` gives them back;
* `Lowering` — memory and calls during the outer loop, and `LoweringTable`, during the
  inner one;
* `Mem.Unshared` — no frame of the user part is there twice;
* `spaceFree_refs` — then `space_free` calls `frame_free` once for each of its frames, and
  lowers the count of each by one and no other count.
-/
import Pinion.Spaces
import Pinion.RefCounts
import Pinion.Traced

open Runs

namespace Pinion

/-! ### The calls of `frame_free` -/

/-- Computations that note the frames they free. -/
abbrev Releases := Traced Stop U32

def Mem.release (m : Mem) (frame : U32) : Releases Mem := Traced.note frame (frameFree m frame)

def spaceFreeEntryR (m : Mem) (a : U32) : Releases Mem := do
  let e ← m.read a
  let m ← if e &&& PF_PRES ≠ 0 then m.release (pageUfmt e) else pure m
  m.write a 0

def spaceFreeTableR (m : Mem) (i : ℕ) : Releases Mem :=
  (List.range 1024).foldlM (fun m j =>
    spaceFreeEntryR m (extblAddr (BitVec.ofNat 32 i * 1024 + BitVec.ofNat 32 j))) m

def spaceFreeSegmentR (m : Mem) (i : ℕ) : Releases Mem := do
  if (← m.read (exmapAddr (BitVec.ofNat 32 i))) &&& PF_PRES ≠ 0 then
    let m ← spaceFreeTableR m i
    let m ← m.release (pageUfmt (← m.read (exmapAddr (BitVec.ofNat 32 i))))
    m.write (exmapAddr (BitVec.ofNat 32 i)) 0
  else pure m

def spaceFreeR (m : Mem) (space : U32) : Releases Mem := do
  let m ← spaceExmap m space
  let m ← (List.range 768).foldlM spaceFreeSegmentR m
  m.release space

/-! Without the notes they are the functions of the kernel. -/

section Out

variable (m : Mem) (a space : U32) (i : ℕ)

theorem spaceFreeEntryR_out : (spaceFreeEntryR m a).out = spaceFreeEntry m a := by
  unfold spaceFreeEntryR spaceFreeEntry
  rw [Traced.out_bind]
  refine bind_congr fun e => ?_
  dsimp only
  split
  · rw [Traced.out_bind]
    rfl
  · rfl

theorem spaceFreeTableR_out : (spaceFreeTableR m i).out = spaceFreeTable m i := by
  unfold spaceFreeTableR spaceFreeTable
  rw [Traced.out_foldlM]
  simp only [spaceFreeEntryR_out]

theorem spaceFreeSegmentR_out : (spaceFreeSegmentR m i).out = spaceFreeSegment m i := by
  unfold spaceFreeSegmentR spaceFreeSegment
  rw [Traced.out_bind]
  refine bind_congr fun e => ?_
  split
  · rw [Traced.out_bind, spaceFreeTableR_out]
    refine bind_congr fun m₁ => ?_
    rw [Traced.out_bind]
    refine bind_congr fun w => ?_
    rw [Traced.out_bind]
    rfl
  · rfl

theorem spaceFreeR_out : (spaceFreeR m space).out = spaceFree m space := by
  unfold spaceFreeR
  rw [Traced.out_bind]
  refine bind_congr fun m₁ => ?_
  rw [Traced.out_bind, Traced.out_foldlM]
  simp only [spaceFreeSegmentR_out]
  rfl

end Out

section Log

variable {m m₁ m₂ : Mem} {a e space : U32} {i : ℕ}

/-- The call that one word gives rise to. -/
theorem spaceFreeEntryR_log (h : m.read a = .ok e)
    (hfree : Pres e → frameFree m (pageUfmt e) = .ok m₁) :
    (spaceFreeEntryR m a).log = if Pres e then [pageUfmt e] else [] := by
  unfold spaceFreeEntryR
  rw [h, Traced.ok_bind]
  by_cases hp : Pres e
  · rw [if_pos (show e &&& PF_PRES ≠ 0 from hp), if_pos hp, Traced.log_bind_ok (hfree hp)]
    rfl
  · rw [if_neg (show ¬e &&& PF_PRES ≠ 0 from hp), if_neg hp]
    rfl

/-- The calls for one entry. -/
theorem spaceFreeSegmentR_log (h : m.read (exmapAddr (BitVec.ofNat 32 i)) = .ok e) (hp : Pres e)
    (htable : spaceFreeTable m i = .ok m₁)
    (h₁ : m₁.read (exmapAddr (BitVec.ofNat 32 i)) = .ok e)
    (hfree : frameFree m₁ (pageUfmt e) = .ok m₂) :
    (spaceFreeSegmentR m i).log = (spaceFreeTableR m i).log ++ [pageUfmt e] := by
  unfold spaceFreeSegmentR
  rw [h, Traced.ok_bind, if_pos (show e &&& PF_PRES ≠ 0 from hp),
    Traced.log_bind_ok ((spaceFreeTableR_out m i).trans htable), h₁, Traced.ok_bind,
    Traced.log_bind_ok hfree]
  rfl

theorem spaceFreeSegmentR_log_absent (h : m.read (exmapAddr (BitVec.ofNat 32 i)) = .ok e)
    (hp : ¬Pres e) : (spaceFreeSegmentR m i).log = [] := by
  unfold spaceFreeSegmentR
  rw [h, Traced.ok_bind, if_neg (show ¬e &&& PF_PRES ≠ 0 from hp)]
  rfl

theorem spaceFreeR_log (h : spaceExmap m space = .ok m₁)
    (hloop : ((List.range 768).foldlM spaceFreeSegmentR m₁).out = .ok m₂) :
    (spaceFreeR m space).log =
      ((List.range 768).foldlM spaceFreeSegmentR m₁).log ++ [space] := by
  unfold spaceFreeR
  rw [h, Traced.ok_bind, Traced.log_bind_ok hloop]
  rfl

end Log

/-! ### The frames in order -/

/-- The frames that the first `n` words of a table map. -/
def Mem.tableFrees (m : Mem) (T : BitVec 20) (n : ℕ) : List (BitVec 20) :=
  (List.range n).filterMap fun j =>
    if Pres (m.phys T (BitVec.ofNat 10 j)) then some (frameNo (m.phys T (BitVec.ofNat 10 j)))
    else none

/-- The frames that the first `n` entries of a directory map, and their tables. -/
def Mem.spaceFrees (m : Mem) (S : BitVec 20) (n : ℕ) : List (BitVec 20) :=
  (List.range n).flatMap fun i =>
    if Pres (m.phys S (BitVec.ofNat 10 i)) then
      m.tableFrees (frameNo (m.phys S (BitVec.ofNat 10 i))) 1024 ++
        [frameNo (m.phys S (BitVec.ofNat 10 i))]
    else []

section Order

variable {m : Mem} {S T g : BitVec 20} {n : ℕ}

theorem tableFrees_pres (h : Pres (m.phys T (BitVec.ofNat 10 n))) :
    m.tableFrees T (n + 1) = m.tableFrees T n ++ [frameNo (m.phys T (BitVec.ofNat 10 n))] := by
  unfold Mem.tableFrees
  rw [List.range_succ, List.filterMap_append]
  simp [h]

theorem tableFrees_absent (h : ¬Pres (m.phys T (BitVec.ofNat 10 n))) :
    m.tableFrees T (n + 1) = m.tableFrees T n := by
  unfold Mem.tableFrees
  rw [List.range_succ, List.filterMap_append]
  simp [h]

theorem spaceFrees_pres (h : Pres (m.phys S (BitVec.ofNat 10 n))) :
    m.spaceFrees S (n + 1) = m.spaceFrees S n ++
      m.tableFrees (frameNo (m.phys S (BitVec.ofNat 10 n))) 1024 ++
        [frameNo (m.phys S (BitVec.ofNat 10 n))] := by
  unfold Mem.spaceFrees
  rw [List.range_succ, List.flatMap_append, List.flatMap_singleton, if_pos h, List.append_assoc]

theorem spaceFrees_absent (h : ¬Pres (m.phys S (BitVec.ofNat 10 n))) :
    m.spaceFrees S (n + 1) = m.spaceFrees S n := by
  unfold Mem.spaceFrees
  rw [List.range_succ, List.flatMap_append, List.flatMap_singleton, if_neg h, List.append_nil]

theorem mem_tableFrees : g ∈ m.tableFrees T n ↔ ∃ j < n, Pres (m.phys T (BitVec.ofNat 10 j)) ∧
    frameNo (m.phys T (BitVec.ofNat 10 j)) = g := by
  unfold Mem.tableFrees
  rw [List.mem_filterMap]
  simp only [List.mem_range, Option.ite_none_right_eq_some, Option.some.injEq]

theorem mem_spaceFrees : g ∈ m.spaceFrees S n ↔ ∃ i < n, Pres (m.phys S (BitVec.ofNat 10 i)) ∧
    (g ∈ m.tableFrees (frameNo (m.phys S (BitVec.ofNat 10 i))) 1024 ∨
      frameNo (m.phys S (BitVec.ofNat 10 i)) = g) := by
  unfold Mem.spaceFrees
  rw [List.mem_flatMap]
  refine exists_congr fun i => and_congr List.mem_range ?_
  by_cases hp : Pres (m.phys S (BitVec.ofNat 10 i))
  · rw [if_pos hp, List.mem_append, List.mem_singleton, eq_comm (a := g)]
    simp only [hp, true_and]
  · rw [if_neg hp]
    simp only [hp, List.not_mem_nil, false_and]

theorem ofNat_toNat_ten (e : BitVec 10) : BitVec.ofNat 10 e.toNat = e :=
  BitVec.eq_of_toNat_eq (by rw [BitVec.toNat_ofNat]; exact Nat.mod_eq_of_lt e.isLt)

theorem toNat_ofNat_ten {i : ℕ} (hi : i < 1024) : (BitVec.ofNat 10 i).toNat = i := by
  rw [BitVec.toNat_ofNat]
  exact Nat.mod_eq_of_lt hi

/-- The list has the frames `space_free` gives back, the directory apart. -/
theorem mem_spaceFrees_iff : g ∈ m.spaceFrees S 768 ↔ m.UserLeaf S g ∨ m.UserTab S g := by
  rw [mem_spaceFrees]
  constructor
  · rintro ⟨i, hi, hp, hg | hg⟩
    · obtain ⟨j, hj, hpj, hgj⟩ := mem_tableFrees.mp hg
      refine Or.inl ⟨_, BitVec.ofNat 10 j, ⟨BitVec.ofNat 10 i, ?_, hp, rfl⟩, hpj, hgj⟩
      rw [toNat_ofNat_ten (by omega)]
      exact hi
    · refine Or.inr ⟨BitVec.ofNat 10 i, ?_, hp, hg⟩
      rw [toNat_ofNat_ten (by omega)]
      exact hi
  · rintro (⟨T, j, ⟨e, he, hp, rfl⟩, hpj, hgj⟩ | ⟨e, he, hp, hg⟩)
    · refine ⟨e.toNat, he, by rw [ofNat_toNat_ten]; exact hp, Or.inl (mem_tableFrees.mpr ?_)⟩
      rw [ofNat_toNat_ten]
      exact ⟨j.toNat, j.isLt, by rw [ofNat_toNat_ten]; exact ⟨hpj, hgj⟩⟩
    · exact ⟨e.toNat, he, by rw [ofNat_toNat_ten]; exact ⟨hp, Or.inr hg⟩⟩

end Order

/-! ### The loops -/

/-- Memory during the outer loop, and the calls made so far: entries below `k` have been
given back, and the tables of the others are as they were. -/
structure Lowering (m₀ : Mem) (S : BitVec 20) (k : ℕ) (L : List U32) (m : Mem) : Prop where
  freeing : FreeingSpace m₀ S k m
  later : ∀ e : BitVec 10, k ≤ e.toNat → e.toNat < 768 → Pres (m₀.phys S e) →
    m.phys (frameNo (m₀.phys S e)) = m₀.phys (frameNo (m₀.phys S e))
  calls : L.map frameNo = m₀.spaceFrees S k
  refs : m.refs = (m₀.spaceFrees S k).foldl lower m₀.refs

/-- The same during the inner loop for the table `T` of entry `i`: words below `k` have
been given back. -/
structure LoweringTable (m₀ : Mem) (S T : BitVec 20) (i k : ℕ) (L : List U32) (m : Mem) :
    Prop where
  freeing : FreeingSpace m₀ S i m
  later : ∀ e : BitVec 10, i + 1 ≤ e.toNat → e.toNat < 768 → Pres (m₀.phys S e) →
    m.phys (frameNo (m₀.phys S e)) = m₀.phys (frameNo (m₀.phys S e))
  words : ∀ j : BitVec 10, k ≤ j.toNat → m.phys T j = m₀.phys T j
  calls : L.map frameNo = m₀.tableFrees T k
  refs : m.refs = (m₀.spaceFrees S i ++ m₀.tableFrees T k).foldl lower m₀.refs

/-- No table stands in two entries of the user part. -/
def Mem.TabsApart (m : Mem) (S : BitVec 20) : Prop :=
  ∀ e e' : BitVec 10, e.toNat < 768 → e'.toNat < 768 → Pres (m.phys S e) → Pres (m.phys S e') →
    frameNo (m.phys S e) = frameNo (m.phys S e') → e = e'

section Loops

variable {m₀ m : Mem} {S T : BitVec 20} {A : Set (BitVec 20)} {i : ℕ} {L : List U32}

/-- The words of a frame that is no later table. -/
theorem Mem.TabsApart.later (h : m₀.TabsApart S) (hi : i < 768)
    (hp : Pres (m₀.phys S (BitVec.ofNat 10 i)))
    (hT : frameNo (m₀.phys S (BitVec.ofNat 10 i)) = T) {e : BitVec 10} (hlt : i + 1 ≤ e.toNat)
    (he : e.toNat < 768) (hpe : Pres (m₀.phys S e)) : frameNo (m₀.phys S e) ≠ T := by
  intro heq
  have hin := toNat_ofNat_ten (show i < 1024 by omega)
  have hei := h e (BitVec.ofNat 10 i) he (by rw [hin]; exact hi) hpe hp (heq.trans hT.symm)
  rw [hei, hin] at hlt
  omega

theorem sameFrames_poke (m : Mem) (f : BitVec 20) (j : BitVec 10) (w : U32) :
    SameFrames m (m.poke f j w) := ⟨rfl, rfl, rfl, rfl, rfl, rfl⟩

/-- One turn of the inner loop lowers the count of the frame that its word maps. -/
theorem LoweringTable.turn {k : ℕ} (h : LoweringTable m₀ S T i k L m) (hs : ShowsSpace m₀ S)
    (hA : Supply m₀ A) (hapart : m₀.TabsApart S) (hi : i < 768) (hk : k < 1024)
    (hp : Pres (m₀.phys S (BitVec.ofNat 10 i)))
    (hT : frameNo (m₀.phys S (BitVec.ofNat 10 i)) = T) :
    ∃ m', (spaceFreeEntryR m
        (extblAddr (BitVec.ofNat 32 i * 1024 + BitVec.ofNat 32 k))).out = .ok m' ∧
      LoweringTable m₀ S T i (k + 1) (L ++ (spaceFreeEntryR m
        (extblAddr (BitVec.ofNat 32 i * 1024 + BitVec.ofNat 32 k))).log) m' := by
  obtain ⟨m₁, hm₁, hF, hphys, hpres, habs⟩ := h.freeing.turn hs hA hi hk hp hT
  have hkn := toNat_ofNat_ten hk
  have hw : m.phys T (BitVec.ofNat 10 k) = m₀.phys T (BitVec.ofNat 10 k) := h.words _ hkn.ge
  have hread := read_eq (h.freeing.extbl hs le_rfl hi hk hp)
  rw [hT, hw] at hread
  rw [hw] at hpres habs
  rw [spaceFreeEntryR_out, spaceFreeEntryR_log hread hpres]
  refine ⟨_, hm₁, hF, fun e hlt he hpe => ?_, fun j hj => ?_, ?_, ?_⟩
  · funext j
    rw [poke_of_ne _ _ _ _ _ _ (Or.inl (hapart.later hi hp hT hlt he hpe)), hphys,
      h.later e hlt he hpe]
  · rw [poke_of_ne, hphys, h.words j (by omega)]
    refine Or.inr fun hjk => ?_
    rw [hjk, hkn] at hj
    omega
  · rw [List.map_append, h.calls]
    by_cases hpw : Pres (m₀.phys T (BitVec.ofNat 10 k))
    · rw [if_pos hpw, tableFrees_pres hpw, List.map_singleton, pageUfmt_frame]
    · rw [if_neg hpw, tableFrees_absent hpw, List.map_nil, List.append_nil]
  · rw [refs_same (sameFrames_poke m₁ T _ 0)]
    by_cases hpw : Pres (m₀.phys T (BitVec.ofNat 10 k))
    · have hgive := (h.freeing.frees.supply hA).give (hpres hpw)
      rw [pageUfmt_frame, h.refs] at hgive
      rw [hgive, tableFrees_pres hpw, ← List.append_assoc, foldl_lower_snoc]
    · rw [habs hpw, h.refs, tableFrees_absent hpw]

/-- One turn of the outer loop lowers the counts of a table and of the frames it maps. -/
theorem Lowering.entry (h : Lowering m₀ S i L m) (hs : ShowsSpace m₀ S) (hA : Supply m₀ A)
    (hapart : m₀.TabsApart S) (hi : i < 768) :
    ∃ m', (spaceFreeSegmentR m i).out = .ok m' ∧
      Lowering m₀ S (i + 1) (L ++ (spaceFreeSegmentR m i).log) m' := by
  have hin := toNat_ofNat_ten (show i < 1024 by omega)
  have hread : ∀ {m}, FreeingSpace m₀ S i m →
      m.read (exmapAddr (BitVec.ofNat 32 i)) = .ok (m₀.phys S (BitVec.ofNat 10 i)) := by
    intro m hm
    rw [read_eq (hm.exmap hs (by omega) (by omega)), hm.dir _ hin.ge]
  rw [spaceFreeSegmentR_out]
  by_cases hp : Pres (m₀.phys S (BitVec.ofNat 10 i))
  · set T := frameNo (m₀.phys S (BitVec.ofNat 10 i)) with hT
    have hstart : LoweringTable m₀ S T i 0 [] m := by
      refine ⟨h.freeing, fun e hlt => h.later e (by omega), fun j _ => ?_, rfl, ?_⟩
      · rw [hT, h.later _ hin.ge (by rw [hin]; exact hi) hp]
      · rw [h.refs]
        exact congrArg (List.foldl lower m₀.refs) (List.append_nil _).symm
    obtain ⟨m₁, hm₁, h₁⟩ := Traced.foldlM_range_log (P := LoweringTable m₀ S T i) hstart
      fun k hk L s hs' => hs'.turn hs hA hapart hi hk hp hT.symm
    have hloop : spaceFreeTable m i = .ok m₁ := (spaceFreeTableR_out m i).symm.trans hm₁
    obtain ⟨m₂, hm₂, hphys, hseg, hF⟩ := h.freeing.close hs hA hi hp hloop h₁.freeing
    rw [spaceFreeSegmentR_log (hread h.freeing) hp hloop (hread h₁.freeing) hm₂]
    refine ⟨_, hseg, hF, fun e hlt he hpe => ?_, ?_, ?_⟩
    · -- the directory itself is no table
      have hne : frameNo (m₀.phys S e) ≠ S := (hs.tabNe _ ⟨e, he, hpe, rfl⟩).1
      funext j
      rw [poke_of_ne _ _ _ _ _ _ (Or.inl hne), hphys, h₁.later e hlt he hpe]
    · rw [spaceFrees_pres hp, List.map_append, h.calls, List.map_append, List.map_singleton,
        pageUfmt_frame, ← List.append_assoc]
      exact congrArg (fun l => m₀.spaceFrees S i ++ l ++ [T]) h₁.calls
    · have hgive := (h₁.freeing.frees.supply hA).give hm₂
      rw [pageUfmt_frame, h₁.refs] at hgive
      rw [refs_same (sameFrames_poke m₂ S _ 0), hgive, spaceFrees_pres hp, foldl_lower_snoc]
  · obtain ⟨hseg, hF⟩ := h.freeing.skip hs hi hp
    rw [spaceFreeSegmentR_log_absent (hread h.freeing) hp, List.append_nil]
    refine ⟨m, hseg, hF, fun e hlt => h.later e (by omega), ?_, ?_⟩
    · rw [h.calls, spaceFrees_absent hp]
    · rw [h.refs, spaceFrees_absent hp]

/-- **`space_free`** calls `frame_free` for the frames of the user part in turn, and for the
directory, and each call lowers a count. -/
theorem spaceFree_lowers (h : SelfMapped m) {space : U32} (hA : Supply m A)
    (hs : ShowsSpace (m.poke m.dir 1022 (dirEntry space)) (frameNo space))
    (hapart : (m.poke m.dir 1022 (dirEntry space)).TabsApart (frameNo space)) :
    ∃ m', spaceFree m space = .ok m' ∧
      FreeingSpace (m.poke m.dir 1022 (dirEntry space)) (frameNo space) 768 m' ∧
      (spaceFreeR m space).log.map frameNo =
        (m.poke m.dir 1022 (dirEntry space)).spaceFrees (frameNo space) 768 ++ [frameNo space] ∧
      m'.refs = ((m.poke m.dir 1022 (dirEntry space)).spaceFrees (frameNo space) 768 ++
        [frameNo space]).foldl lower m.refs := by
  set m₀ := m.poke m.dir 1022 (dirEntry space) with hm₀
  have hsame : SameFrames m m₀ := sameFrames_poke m _ _ _
  have hA₀ : Supply m₀ A := hA.same hsame
  have hexmap := spaceExmap_eq h space
  have hstart : Lowering m₀ (frameNo space) 0 [] m₀ :=
    ⟨FreeingSpace.refl m₀ _, fun _ _ _ _ => rfl, rfl, rfl⟩
  obtain ⟨m₁, hm₁, h₁⟩ := Traced.foldlM_range_log (P := Lowering m₀ (frameNo space)) hstart
    fun i hi L m hm => hm.entry hs hA₀ hapart hi
  obtain ⟨m₂, hm₂, hF₂, -⟩ := h₁.freeing.free hA₀ (Or.inr (Or.inr rfl))
  refine ⟨m₂, ?_, hF₂, ?_, ?_⟩
  · rw [← spaceFreeR_out]
    unfold spaceFreeR
    rw [hexmap, Traced.ok_bind, Traced.out_bind, hm₁]
    exact hm₂
  · rw [spaceFreeR_log hexmap hm₁, List.map_append, h₁.calls]
    rfl
  · have hgive := (h₁.freeing.frees.supply hA₀).give hm₂
    rw [hgive, h₁.refs, refs_same hsame, foldl_lower_snoc]

end Loops

/-! ### Without sharing -/

/-- No frame of the user part is there twice. -/
structure Mem.Unshared (m : Mem) (S : BitVec 20) : Prop where
  tabs : m.TabsApart S
  leaves : ∀ e e' j j' : BitVec 10, e.toNat < 768 → e'.toNat < 768 → Pres (m.phys S e) →
    Pres (m.phys S e') → Pres (m.phys (frameNo (m.phys S e)) j) →
    Pres (m.phys (frameNo (m.phys S e')) j') →
    frameNo (m.phys (frameNo (m.phys S e)) j) = frameNo (m.phys (frameNo (m.phys S e')) j') →
      e = e' ∧ j = j'
  leaf : ∀ g, m.UserLeaf S g → ¬m.UserTab S g ∧ g ≠ S
  tab : ¬m.UserTab S S

/-- `space_free` of a directory calls `frame_free` once for each frame in `G` and for no
other, which lowers the counts in `G` by one. -/
structure Released (m m' : Mem) (space : U32) (G : Set (BitVec 20)) : Prop where
  free : spaceFree m space = .ok m'
  once : ((spaceFreeR m space).log.map frameNo).Nodup
  calls : ∀ g, g ∈ (spaceFreeR m space).log.map frameNo ↔ g ∈ G
  lowered : ∀ g ∈ G, m'.refs g = m.refs g - 1
  kept : ∀ g ∉ G, m'.refs g = m.refs g

section Unshared

variable {m : Mem} {S : BitVec 20} {A : Set (BitVec 20)}

theorem ofNat_ten_inj {i j : ℕ} (hi : i < 1024) (hj : j < 1024)
    (h : BitVec.ofNat 10 i = BitVec.ofNat 10 j) : i = j := by
  have hnat := congrArg BitVec.toNat h
  rwa [toNat_ofNat_ten hi, toNat_ofNat_ten hj] at hnat

/-- The frames of one entry, its table at the end. -/
theorem Mem.Unshared.entry_nodup (h : m.Unshared S) {i : ℕ} (hi : i < 768)
    (hp : Pres (m.phys S (BitVec.ofNat 10 i))) :
    (m.tableFrees (frameNo (m.phys S (BitVec.ofNat 10 i))) 1024 ++
      [frameNo (m.phys S (BitVec.ofNat 10 i))]).Nodup := by
  have hin := toNat_ofNat_ten (show i < 1024 by omega)
  have hlt : (BitVec.ofNat 10 i).toNat < 768 := by rw [hin]; exact hi
  rw [List.nodup_append']
  refine ⟨?_, List.nodup_singleton _, ?_⟩
  · refine List.pairwise_filterMap.mpr (List.pairwise_lt_range.imp_of_mem ?_)
    intro j j' hj hj' hjj g hg g' hg' heq
    rw [List.mem_range] at hj hj'
    rw [Option.ite_none_right_eq_some] at hg hg'
    obtain ⟨hpj, hgj⟩ := hg
    obtain ⟨hpj', hgj'⟩ := hg'
    have hsame := (Option.some.inj hgj).trans (heq.trans (Option.some.inj hgj').symm)
    have hj₂ := (h.leaves _ _ _ _ hlt hlt hp hp hpj hpj' hsame).2
    rw [ofNat_ten_inj hj hj' hj₂] at hjj
    exact lt_irrefl _ hjj
  · rw [List.disjoint_singleton]
    intro hg
    obtain ⟨j, -, hpj, hgj⟩ := mem_tableFrees.mp hg
    exact (h.leaf _ ⟨_, _, ⟨_, hlt, hp, rfl⟩, hpj, hgj⟩).1 ⟨_, hlt, hp, rfl⟩

/-- A frame of two entries stands in one place. -/
theorem Mem.Unshared.entry_unique (h : m.Unshared S) {i i' : ℕ} (hi : i < 768) (hi' : i' < 768)
    {g : BitVec 20} (hp : Pres (m.phys S (BitVec.ofNat 10 i)))
    (hp' : Pres (m.phys S (BitVec.ofNat 10 i')))
    (hg : g ∈ m.tableFrees (frameNo (m.phys S (BitVec.ofNat 10 i))) 1024 ∨
      frameNo (m.phys S (BitVec.ofNat 10 i)) = g)
    (hg' : g ∈ m.tableFrees (frameNo (m.phys S (BitVec.ofNat 10 i'))) 1024 ∨
      frameNo (m.phys S (BitVec.ofNat 10 i')) = g) : i = i' := by
  have hlt : (BitVec.ofNat 10 i).toNat < 768 := by
    rw [toNat_ofNat_ten (by omega)]
    exact hi
  have hlt' : (BitVec.ofNat 10 i').toNat < 768 := by
    rw [toNat_ofNat_ten (by omega)]
    exact hi'
  refine ofNat_ten_inj (show i < 1024 by omega) (show i' < 1024 by omega) ?_
  rcases hg with hg | hg <;> rcases hg' with hg' | hg'
  · obtain ⟨j, -, hpj, hgj⟩ := mem_tableFrees.mp hg
    obtain ⟨j', -, hpj', hgj'⟩ := mem_tableFrees.mp hg'
    exact (h.leaves _ _ _ _ hlt hlt' hp hp' hpj hpj' (hgj.trans hgj'.symm)).1
  · obtain ⟨j, -, hpj, hgj⟩ := mem_tableFrees.mp hg
    exact absurd ⟨_, hlt', hp', hg'⟩ (h.leaf g ⟨_, _, ⟨_, hlt, hp, rfl⟩, hpj, hgj⟩).1
  · obtain ⟨j', -, hpj', hgj'⟩ := mem_tableFrees.mp hg'
    exact absurd ⟨_, hlt, hp, hg⟩ (h.leaf g ⟨_, _, ⟨_, hlt', hp', rfl⟩, hpj', hgj'⟩).1
  · exact h.tabs _ _ hlt hlt' hp hp' (hg.trans hg'.symm)

/-- No frame is given back twice. -/
theorem Mem.Unshared.nodup (h : m.Unshared S) : (m.spaceFrees S 768 ++ [S]).Nodup := by
  rw [List.nodup_append']
  refine ⟨List.nodup_flatMap.mpr ⟨fun i hi => ?_, List.pairwise_lt_range.imp_of_mem ?_⟩,
    List.nodup_singleton S, ?_⟩
  · split
    · rename_i hp
      exact h.entry_nodup (List.mem_range.mp hi) hp
    · exact List.nodup_nil
  · intro i i' hi hi' hlt
    rw [List.mem_range] at hi hi'
    refine List.disjoint_left.mpr fun g hg hg' => ?_
    dsimp only at hg hg'
    split at hg
    · split at hg'
      · rename_i hp hp'
        rw [List.mem_append, List.mem_singleton, eq_comm (a := g)] at hg hg'
        exact absurd (h.entry_unique hi hi' hp hp' hg hg') hlt.ne
      · exact List.not_mem_nil hg'
    · exact List.not_mem_nil hg
  · rw [List.disjoint_singleton, mem_spaceFrees_iff]
    rintro (hl | ht)
    · exact (h.leaf S hl).2 rfl
    · exact h.tab ht

/-- **`space_free`** of a directory whose user part shares no frame gives back each of its
frames once. -/
theorem spaceFree_refs (hm : SelfMapped m) {space : U32} (hA : Supply m A)
    (hs : ShowsSpace (m.poke m.dir 1022 (dirEntry space)) (frameNo space))
    (h : (m.poke m.dir 1022 (dirEntry space)).Unshared (frameNo space)) :
    ∃ m', FreeingSpace (m.poke m.dir 1022 (dirEntry space)) (frameNo space) 768 m' ∧
      Released m m' space ((m.poke m.dir 1022 (dirEntry space)).spaceFrames (frameNo space)) := by
  obtain ⟨m', hm', hF, hlog, hrefs⟩ := spaceFree_lowers hm hA hs h.tabs
  have hmem : ∀ g, g ∈ (m.poke m.dir 1022 (dirEntry space)).spaceFrees (frameNo space) 768 ++
      [frameNo space] ↔ g ∈ (m.poke m.dir 1022 (dirEntry space)).spaceFrames (frameNo space) := by
    intro g
    rw [List.mem_append, mem_spaceFrees_iff, List.mem_singleton, or_assoc]
    exact Iff.rfl
  refine ⟨m', hF, hm', ?_, fun g => ?_, fun g hg => ?_, fun g hg => ?_⟩
  · rw [hlog]
    exact h.nodup
  · rw [hlog]
    exact hmem g
  · rw [hrefs, foldl_lower h.nodup ((hmem g).mpr hg)]
  · rw [hrefs, foldl_lower_of_not_mem fun hin => hg ((hmem g).mp hin)]

end Unshared

end Pinion
