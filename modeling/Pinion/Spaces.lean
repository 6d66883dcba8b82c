/-
Cloning and freeing address spaces, through physical memory.

* `Mem.cloned m f` — memory after `space_clone` into the frame `f`;
* `spaceClone_eq` — `space_clone` computes it;
* `FreedSpace` — what `space_free` leaves of the directory and its tables;
* `spaceFree_freed` — it ends there.
-/
import Pinion.Supply

open Runs

namespace Pinion

/-! ### `space_clone` -/

/-- The entry that names a directory. -/
def dirEntry (f : U32) : U32 := pageFmt f (PF_PRES ||| PF_RW)

theorem dirEntry_pres (f : U32) : Pres (dirEntry f) := (pageFmt_rw f).pres

theorem dirEntry_frame (f : U32) : frameNo (dirEntry f) = frameNo f := pageFmt_frame f _

/-- The directory `space_clone` builds: nothing for user space, the entries of the loaded
directory above it, and itself. -/
def Mem.cloneDir (m : Mem) (f : U32) : BitVec 10 → U32 := fun i =>
  if i.toNat < 768 then 0 else if i.toNat < 1022 then m.phys m.dir i else dirEntry f

def Mem.cloned (m : Mem) (f : U32) : Mem :=
  ((m.poke (m.tab TMP_SRC) (ptx TMP_SRC) (dirEntry f)).poke m.dir 1022 (dirEntry f)).fill
    (frameNo f) (m.cloneDir f)

theorem fill_comm {m : Mem} {f g : BitVec 20} (h : f ≠ g) (c c' : BitVec 10 → U32) :
    (m.fill f c).fill g c' = (m.fill g c').fill f c := by
  unfold Mem.fill
  rw [Function.update_comm h.symm]

theorem fill_poke {m : Mem} {f g : BitVec 20} (h : f ≠ g) (c : BitVec 10 → U32) (i : BitVec 10)
    (w : U32) : (m.fill f c).poke g i w = (m.poke g i w).fill f c := by
  unfold Mem.poke
  rw [fill_of_ne m f g c h.symm, fill_comm h]

theorem fill_poke_self (m : Mem) (f : BitVec 20) (c : BitVec 10 → U32) (i : BitVec 10) (w : U32) :
    (m.fill f c).poke f i w = m.fill f (Function.update c i w) := by
  unfold Mem.poke
  rw [fill_self, fill_fill]

theorem tmpSrc_pdx : pdx TMP_SRC = 1020 := by decide

section Clone

variable {m m₁ : Mem} {f : U32}

/-- A new directory, empty but for its own entry. -/
theorem spaceAlloc_eq (h : SelfMapped m) (hnew : frameNew m = .ok (f, m₁))
    (hphys : m₁.phys = m.phys) (hcr3 : m₁.cr3 = m.cr3) (hsrc : Pres (m.phys m.dir 1020))
    (hd : frameNo f ≠ m.dir) (ht : frameNo f ≠ m.tab TMP_SRC) (htd : m.tab TMP_SRC ≠ m.dir) :
    spaceAlloc m = .ok (f, (m₁.poke (m.tab TMP_SRC) (ptx TMP_SRC) (dirEntry f)).fill (frameNo f)
      (Function.update (fun _ => 0) 1023 (dirEntry f))) := by
  have h₁ := h.same hphys hcr3
  have hdir : m₁.dir = m.dir := congrArg frameNo hcr3
  have htab : m₁.tab TMP_SRC = m.tab TMP_SRC := by rw [Mem.tab, Mem.tab, hphys, hdir]
  set T := m.tab TMP_SRC with hT
  set w := dirEntry f with hw
  have hset : pageSet m₁ TMP_SRC w = .ok (m₁.poke T (ptx TMP_SRC) w) := by
    rw [h₁.set_present (by rw [tmpSrc_pdx, hphys, hdir]; exact hsrc), htab]
  -- the words of the new frame, seen at `TMP_SRC`
  have htrans : ∀ c, ∀ i < 1024, ((m₁.poke T (ptx TMP_SRC) w).fill (frameNo f) c).translate
      (TMP_SRC + 4 * BitVec.ofNat 32 i) = .ok (frameNo f, BitVec.ofNat 10 i) := by
    intro c i hi
    obtain ⟨hpd, hpt, hpw⟩ := tmpSrc_indices hi
    have hcur : ((m₁.poke T (ptx TMP_SRC) w).fill (frameNo f) c).dir = m.dir := hdir
    have hpde : ((m₁.poke T (ptx TMP_SRC) w).fill (frameNo f) c).phys m.dir 1020 =
        m.phys m.dir 1020 := by
      rw [fill_of_ne _ _ _ _ hd.symm, poke_of_ne _ _ _ _ _ _ (Or.inl htd.symm), hphys]
    have hTe : frameNo (m.phys m.dir 1020) = T := by rw [hT, Mem.tab, tmpSrc_pdx]
    have hpte : ((m₁.poke T (ptx TMP_SRC) w).fill (frameNo f) c).phys T 16 = w := by
      rw [fill_of_ne _ _ _ _ ht.symm]
      exact poke_self m₁ T 16 w
    rw [translate_eq, hpd, hpt, hpw, hcur, hpde, hTe, hpte, hw, dirEntry_frame]
    · rw [hpd, hcur, hpde]; exact hsrc
    · rw [hpd, hpt, hcur, hpde, hTe, hpte]; exact dirEntry_pres f
  have hclear := clearPage_eq htrans
  have hlast : TMP_SRC + 4 * (PGE_MAP >>> 22) = TMP_SRC + 4 * BitVec.ofNat 32 1023 := by decide
  unfold spaceAlloc
  refine bind_eq_ok.mpr ⟨_, hnew, ?_⟩
  refine bind_eq_ok.mpr ⟨_, hset, ?_⟩
  refine bind_eq_ok.mpr ⟨_, hclear, ?_⟩
  rw [hlast]
  refine bind_eq_ok.mpr ⟨_, write_eq (htrans _ 1023 (by omega)) w, ?_⟩
  rw [fill_poke_self]
  rfl

/-- A directory that is mapped at entry 1022 shows its entries at `exmap`. -/
theorem exmap_eq {m : Mem} {S : BitVec 20} (hp : Pres (m.phys m.dir 1022))
    (hS : frameNo (m.phys m.dir 1022) = S) (hp' : Pres (m.phys S 1023))
    (hS' : frameNo (m.phys S 1023) = S) {i : ℕ} (hi : i < 1024) :
    m.translate (exmapAddr (BitVec.ofNat 32 i)) = .ok (S, BitVec.ofNat 10 i) := by
  obtain ⟨hpd, hpt, hpw⟩ := exmapAddr_indices hi
  rw [translate_eq, hpd, hpt, hpw, hS, hS']
  · rw [hpd]; exact hp
  · rw [hpd, hpt, hS]; exact hp'

theorem spaceExmap_eq (h : SelfMapped m) (space : U32) :
    spaceExmap m space = .ok (m.poke m.dir 1022 (dirEntry space)) :=
  write_eq (h.cmap (show (TMP_MAP >>> 22 : U32).toNat = (1022 : BitVec 10).toNat by decide)) _

/-- The loop of `space_clone` copies the entries of the loaded directory. -/
theorem cloneLoop_eq {S : BitVec 20} (h : SelfMapped m) (hS : S ≠ m.dir)
    (hp : Pres (m.phys m.dir 1022)) (hm : frameNo (m.phys m.dir 1022) = S)
    (hp' : Pres (m.phys S 1023)) (hm' : frameNo (m.phys S 1023) = S) :
    (List.range' 768 255).foldlM (fun m i => do
      m.write (exmapAddr (BitVec.ofNat 32 i)) (← m.read (cmapAddr (BitVec.ofNat 32 i)))) m =
    .ok (m.fill S fun i =>
      if 768 ≤ i.toNat ∧ i.toNat < 1023 then m.phys m.dir i else m.phys S i) := by
  let copied : ℕ → BitVec 10 → U32 := fun k i =>
    if 768 ≤ i.toNat ∧ i.toNat < 768 + k then m.phys m.dir i else m.phys S i
  have hstart : m = m.fill S (copied 0) := by
    have hzero : copied 0 = m.phys S := by
      funext i
      exact if_neg (by omega)
    rw [hzero, fill_phys]
  have hturn : ∀ k < 255, ∀ s, s = m.fill S (copied k) → ∃ s',
      (s.read (cmapAddr (BitVec.ofNat 32 (768 + k))) >>= fun v =>
        s.write (exmapAddr (BitVec.ofNat 32 (768 + k))) v) = .ok s' ∧
      s' = m.fill S (copied (k + 1)) := by
    rintro k hk s rfl
    have hcur : (m.fill S (copied k)).dir = m.dir := rfl
    have hD : ∀ e, (m.fill S (copied k)).phys m.dir e = m.phys m.dir e := by
      intro e
      rw [fill_of_ne _ _ _ _ hS.symm]
    -- the copy keeps its entry for itself
    have hown : (m.fill S (copied k)).phys S 1023 = m.phys S 1023 := by
      rw [fill_self]
      refine if_neg ?_
      simp only [BitVec.reduceToNat]
      omega
    have hself : SelfMapped (m.fill S (copied k)) :=
      ⟨by rw [hcur, hD]; exact h.pres, by rw [hcur, hD]; exact h.self⟩
    have hnat : (BitVec.ofNat 32 (768 + k)).toNat = (BitVec.ofNat 10 (768 + k)).toNat := by
      rw [BitVec.toNat_ofNat, BitVec.toNat_ofNat]
      omega
    have hread := read_eq (hself.cmap hnat)
    have hwrite : (m.fill S (copied k)).translate (exmapAddr (BitVec.ofNat 32 (768 + k))) =
        .ok (S, BitVec.ofNat 10 (768 + k)) := by
      refine exmap_eq ?_ ?_ ?_ ?_ (by omega)
      · rw [hcur, hD]; exact hp
      · rw [hcur, hD]; exact hm
      · rw [hown]; exact hp'
      · rw [hown]; exact hm'
    refine ⟨_, bind_eq_ok.mpr ⟨_, hread, write_eq hwrite _⟩, ?_⟩
    rw [fill_poke_self, hcur, hD]
    congr 1
    funext i
    have hik : i = BitVec.ofNat 10 (768 + k) ↔ i.toNat = 768 + k := by
      rw [BitVec.toNat_eq, BitVec.toNat_ofNat, Nat.mod_eq_of_lt (show 768 + k < 2 ^ 10 by omega)]
    rw [Function.update_apply]
    simp only [copied]
    split
    · rename_i hi
      have hi' := hik.mp hi
      rw [if_pos (by omega), hi]
    · rename_i hi
      have hne : i.toNat ≠ 768 + k := fun he => hi (hik.mpr he)
      by_cases hlt : 768 ≤ i.toNat ∧ i.toNat < 768 + k
      · rw [if_pos hlt, if_pos (by omega)]
      · rw [if_neg hlt, if_neg (by omega)]
  obtain ⟨m', hloop, hend⟩ :=
    foldlM_range_ok (P := fun k s => s = m.fill S (copied k)) hstart hturn
  rw [List.range'_eq_map_range, List.foldlM_map]
  exact hloop.trans (congrArg Except.ok hend)

/-- **`space_clone`** copies the upper part of the loaded directory. -/
theorem spaceClone_eq (h : SelfMapped m) (hnew : frameNew m = .ok (f, m₁))
    (hphys : m₁.phys = m.phys) (hcr3 : m₁.cr3 = m.cr3) (hsrc : Pres (m.phys m.dir 1020))
    (hd : frameNo f ≠ m.dir) (ht : frameNo f ≠ m.tab TMP_SRC) (htd : m.tab TMP_SRC ≠ m.dir) :
    spaceClone m = .ok (f, m₁.cloned f) := by
  have hdir : m₁.dir = m.dir := congrArg frameNo hcr3
  have htab : m₁.tab TMP_SRC = m.tab TMP_SRC := by rw [Mem.tab, Mem.tab, hphys, hdir]
  have halloc := spaceAlloc_eq h hnew hphys hcr3 hsrc hd ht htd
  set T := m.tab TMP_SRC with hT
  set w := dirEntry f with hw
  set m₂ := (m₁.poke T (ptx TMP_SRC) w).fill (frameNo f) (Function.update (fun _ => 0) 1023 w)
    with hm₂
  have hdir₂ : m₂.dir = m.dir := hdir
  have hD₂ : ∀ e, m₂.phys m.dir e = m.phys m.dir e := by
    intro e
    rw [hm₂, fill_of_ne _ _ _ _ hd.symm, poke_of_ne _ _ _ _ _ _ (Or.inl htd.symm), hphys]
  have h₂ : SelfMapped m₂ := ⟨by rw [hdir₂, hD₂]; exact h.pres, by rw [hdir₂, hD₂]; exact h.self⟩
  have hex := spaceExmap_eq h₂ f
  rw [hdir₂] at hex
  set m₃ := m₂.poke m.dir 1022 w with hm₃
  have hdir₃ : m₃.dir = m.dir := hdir
  have hm₃e : m₃.phys m.dir 1022 = w := by rw [hm₃, poke_self]
  have hm₃o : ∀ e, e ≠ 1022 → m₃.phys m.dir e = m.phys m.dir e := by
    intro e he
    rw [hm₃, poke_of_ne _ _ _ _ _ _ (Or.inr he), hD₂]
  have hm₃f : m₃.phys (frameNo f) = Function.update (fun _ => 0) 1023 w := by
    funext i
    rw [hm₃, poke_of_ne _ _ _ _ _ _ (Or.inl hd), hm₂, fill_self]
  have hown : m₃.phys (frameNo f) 1023 = w := by rw [hm₃f, Function.update_self]
  have hlast : (1023 : BitVec 10) ≠ 1022 := by decide
  have h₃ : SelfMapped m₃ :=
    ⟨by rw [hdir₃, hm₃o _ hlast]; exact h.pres, by rw [hdir₃, hm₃o _ hlast]; exact h.self⟩
  have hloop := cloneLoop_eq h₃ (S := frameNo f) (by rw [hdir₃]; exact hd)
    (by rw [hdir₃, hm₃e]; exact dirEntry_pres f) (by rw [hdir₃, hm₃e]; exact dirEntry_frame f)
    (by rw [hown]; exact dirEntry_pres f) (by rw [hown]; exact dirEntry_frame f)
  rw [hdir₃] at hloop
  -- the copy is the directory `cloneDir`
  have hcopy : (fun i : BitVec 10 => if 768 ≤ i.toNat ∧ i.toNat < 1023 then m₃.phys m.dir i
      else m₃.phys (frameNo f) i) = m₁.cloneDir f := by
    funext i
    have hlt : i.toNat < 1024 := i.isLt
    rw [hm₃f]
    unfold Mem.cloneDir
    by_cases hlo : i.toNat < 768
    · rw [if_pos hlo, if_neg (by omega), Function.update_of_ne]
      rintro rfl
      simp at hlo
    · rw [if_neg hlo]
      by_cases hhi : i.toNat < 1022
      · rw [if_pos hhi, if_pos (by omega), hm₃o, hphys, hdir]
        rintro rfl
        simp at hhi
      · rw [if_neg hhi]
        by_cases htop : i.toNat = 1022
        · have hie : i = 1022 := BitVec.eq_of_toNat_eq htop
          rw [if_pos (by omega), hie, hm₃e]
        · have hie : i = 1023 := BitVec.eq_of_toNat_eq (show i.toNat = 1023 by omega)
          rw [if_neg (by omega), hie, Function.update_self]
  have hfinal : m₃.fill (frameNo f) (m₁.cloneDir f) = m₁.cloned f := by
    rw [hm₃, hm₂, fill_poke hd, fill_fill, Mem.cloned, htab, hdir]
  rw [hcopy, hfinal] at hloop
  unfold spaceClone
  refine bind_eq_ok.mpr ⟨_, halloc, ?_⟩
  refine bind_eq_ok.mpr ⟨_, hex, ?_⟩
  exact bind_eq_ok.mpr ⟨_, hloop, rfl⟩

end Clone

/-! ### `pctx_new` -/

/-- A new entry of the context table. -/
def Mem.withCtx (m : Mem) (i : ℕ) (f : U32) : Mem :=
  { m with pctxTable := Function.update m.pctxTable i f }

theorem withCtx_self (m : Mem) (i : ℕ) (f : U32) : (m.withCtx i f).pctxTable i = f :=
  Function.update_self _ _ _

theorem withCtx_of_ne (m : Mem) {i j : ℕ} (f : U32) (h : j ≠ i) :
    (m.withCtx i f).pctxTable j = m.pctxTable j := Function.update_of_ne h _ _

/-- The first `pctx_new` clones twice. -/
theorem pctxNew_first {m m₁ m₂ : Mem} {f g : U32} {i : ℕ} (h₀ : m.pctxTable 0 = 0)
    (hc : spaceClone m = .ok (f, m₁))
    (hi : ((List.range PCTX_COUNT).find? fun i => (m₁.withCtx 0 f).pctxTable i = 0) = some i)
    (hc' : spaceClone (m₁.withCtx 0 f) = .ok (g, m₂)) : pctxNew m = .ok (i, m₂.withCtx i g) := by
  unfold Mem.withCtx at hi hc' ⊢
  unfold pctxNew
  rw [if_pos h₀, hc, show (Except.ok (f, m₁) : Except Stop _) = pure (f, m₁) from rfl, pure_bind]
  dsimp only at hi ⊢
  rw [pure_bind]
  dsimp only
  rw [hi]
  dsimp only
  rw [hc']
  rfl

/-! ### `space_free` -/

/-- The table of a user segment of an address space. -/
def Mem.UserTab (m : Mem) (S T : BitVec 20) : Prop :=
  ∃ e : BitVec 10, e.toNat < 768 ∧ Pres (m.phys S e) ∧ frameNo (m.phys S e) = T

/-- A frame mapped in the user part of an address space. -/
def Mem.UserLeaf (m : Mem) (S g : BitVec 20) : Prop :=
  ∃ T j, m.UserTab S T ∧ Pres (m.phys T j) ∧ frameNo (m.phys T j) = g

/-- The frames `space_free` gives back. -/
def Mem.spaceFrames (m : Mem) (S : BitVec 20) : Set (BitVec 20) :=
  {g | m.UserLeaf S g ∨ m.UserTab S g ∨ g = S}

/-- Memory during `space_free` of the directory `S`: entries below `k` are gone, and
words of the tables are as they were or zero. -/
structure FreeingSpace (m₀ : Mem) (S : BitVec 20) (k : ℕ) (m : Mem) : Prop where
  vars : SameVars m₀ m
  frees : Frees (m₀.spaceFrames S) m₀ m
  other : ∀ g, g ≠ S → ¬m₀.UserTab S g → m.phys g = m₀.phys g
  dir : ∀ e : BitVec 10, k ≤ e.toNat → m.phys S e = m₀.phys S e
  tab : ∀ T, m₀.UserTab S T → ∀ j, m.phys T j = m₀.phys T j ∨ m.phys T j = 0

section Free

variable {m₀ m : Mem} {S : BitVec 20} {A : Set (BitVec 20)}

/-- What the loops of `space_free` rely on: the loaded directory shows `S`, and neither
is a table of `S`. -/
structure ShowsSpace (m : Mem) (S : BitVec 20) : Prop where
  ne : S ≠ m.dir
  pres : Pres (m.phys m.dir 1022)
  shown : frameNo (m.phys m.dir 1022) = S
  selfPres : Pres (m.phys S 1023)
  self : frameNo (m.phys S 1023) = S
  tabNe : ∀ T, m.UserTab S T → T ≠ S ∧ T ≠ m.dir

theorem FreeingSpace.refl (m : Mem) (S : BitVec 20) : FreeingSpace m S 0 m :=
  ⟨SameVars.refl m, .refl, fun _ _ _ => rfl, fun _ _ => rfl, fun _ _ _ => Or.inl rfl⟩

theorem FreeingSpace.loaded {k : ℕ} (h : FreeingSpace m₀ S k m) (hs : ShowsSpace m₀ S) :
    m.dir = m₀.dir ∧ m.phys m₀.dir = m₀.phys m₀.dir := by
  refine ⟨congrArg frameNo h.vars.cr3, h.other _ hs.ne.symm fun ht => ?_⟩
  exact (hs.tabNe _ ht).2 rfl

theorem FreeingSpace.exmap {k i : ℕ} (h : FreeingSpace m₀ S k m) (hs : ShowsSpace m₀ S)
    (hk : k ≤ 1023) (hi : i < 1024) :
    m.translate (exmapAddr (BitVec.ofNat 32 i)) = .ok (S, BitVec.ofNat 10 i) := by
  obtain ⟨hdir, hD⟩ := h.loaded hs
  have hself : m.phys S 1023 = m₀.phys S 1023 := h.dir 1023 (by simpa using hk)
  refine exmap_eq ?_ ?_ ?_ ?_ hi
  · rw [hdir, hD]; exact hs.pres
  · rw [hdir, hD]; exact hs.shown
  · rw [hself]; exact hs.selfPres
  · rw [hself]; exact hs.self

theorem FreeingSpace.extbl {k i j : ℕ} (h : FreeingSpace m₀ S k m) (hs : ShowsSpace m₀ S)
    (hk : k ≤ i) (hi : i < 768) (hj : j < 1024) (hp : Pres (m₀.phys S (BitVec.ofNat 10 i))) :
    m.translate (extblAddr (BitVec.ofNat 32 i * 1024 + BitVec.ofNat 32 j)) =
      .ok (frameNo (m₀.phys S (BitVec.ofNat 10 i)), BitVec.ofNat 10 j) := by
  obtain ⟨hdir, hD⟩ := h.loaded hs
  obtain ⟨hpd, hpt, hpw⟩ := extblAddr_indices (show i < 1022 by omega) hj
  have hSi : m.phys S (BitVec.ofNat 10 i) = m₀.phys S (BitVec.ofNat 10 i) := by
    refine h.dir _ ?_
    rw [BitVec.toNat_ofNat]
    omega
  rw [translate_eq, hpd, hpt, hpw, hdir, hD, hs.shown, hSi]
  · rw [hpd, hdir, hD]; exact hs.pres
  · rw [hpd, hpt, hdir, hD, hs.shown, hSi]; exact hp

/-- A frame of the space is given back. -/
theorem FreeingSpace.free {k : ℕ} (h : FreeingSpace m₀ S k m) (hA : Supply m₀ A) {f : U32}
    (hf : frameNo f ∈ m₀.spaceFrames S) :
    ∃ m', frameFree m f = .ok m' ∧ FreeingSpace m₀ S k m' ∧ m'.phys = m.phys := by
  have hsup := h.frees.supply hA
  obtain ⟨m', hm'⟩ := hsup.free_ok f
  have hphys := frameFree_phys hsup hm'
  refine ⟨m', hm', ⟨h.vars.trans (frameFree_vars hm'), h.frees.free hf hm', ?_, ?_, ?_⟩, hphys⟩
  · rw [hphys]; exact h.other
  · rw [hphys]; exact h.dir
  · rw [hphys]; exact h.tab

/-- A word of a table is cleared. -/
theorem FreeingSpace.clear {k : ℕ} {T : BitVec 20} (h : FreeingSpace m₀ S k m)
    (hs : ShowsSpace m₀ S) (hT : m₀.UserTab S T) (j : BitVec 10) :
    FreeingSpace m₀ S k (m.poke T j 0) := by
  have hTS := (hs.tabNe T hT).1
  refine ⟨h.vars.trans ⟨rfl, rfl, rfl, rfl, rfl, rfl, rfl⟩,
    h.frees.same ⟨rfl, rfl, rfl, rfl, rfl, rfl⟩,
    fun g hg ht => ?_, fun e he => ?_, fun T' hT' i => ?_⟩
  · funext i
    have hgT : g ≠ T := by
      rintro rfl
      exact ht hT
    rw [poke_of_ne _ _ _ _ _ _ (Or.inl hgT), h.other g hg ht]
  · rw [poke_of_ne _ _ _ _ _ _ (Or.inl hTS.symm)]
    exact h.dir e he
  · by_cases hTi : T' = T ∧ i = j
    · obtain ⟨rfl, rfl⟩ := hTi
      exact Or.inr (poke_self _ _ _ _)
    · rw [poke_of_ne _ _ _ _ _ _ (not_and_or.mp hTi)]
      exact h.tab T' hT' i

/-- One turn of the inner loop: a frame that is mapped is given back, and its word is
cleared. -/
theorem FreeingSpace.turn {i j : ℕ} (h : FreeingSpace m₀ S i m) (hs : ShowsSpace m₀ S)
    (hA : Supply m₀ A) (hi : i < 768) (hj : j < 1024) (hp : Pres (m₀.phys S (BitVec.ofNat 10 i)))
    {T : BitVec 20} (hT : frameNo (m₀.phys S (BitVec.ofNat 10 i)) = T) :
    ∃ m₁, spaceFreeEntry m (extblAddr (BitVec.ofNat 32 i * 1024 + BitVec.ofNat 32 j)) =
        .ok (m₁.poke T (BitVec.ofNat 10 j) 0) ∧
      FreeingSpace m₀ S i (m₁.poke T (BitVec.ofNat 10 j) 0) ∧ m₁.phys = m.phys ∧
      (Pres (m.phys T (BitVec.ofNat 10 j)) →
        frameFree m (pageUfmt (m.phys T (BitVec.ofNat 10 j))) = .ok m₁) ∧
      (¬Pres (m.phys T (BitVec.ofNat 10 j)) → m₁ = m) := by
  have hin : (BitVec.ofNat 10 i).toNat = i := by
    rw [BitVec.toNat_ofNat]
    exact Nat.mod_eq_of_lt (by omega)
  have htab : m₀.UserTab S T := ⟨BitVec.ofNat 10 i, by rw [hin]; exact hi, hp, hT⟩
  have htr := h.extbl hs le_rfl hi hj hp
  rw [hT] at htr
  set w := m.phys T (BitVec.ofNat 10 j) with hw
  by_cases hpw : Pres w
  · -- the word is still the one the table had
    have hleaf : frameNo (pageUfmt w) ∈ m₀.spaceFrames S := by
      rw [pageUfmt_frame]
      rcases h.tab T htab (BitVec.ofNat 10 j) with he | he
      · rw [← hw] at he
        exact Or.inl ⟨T, _, htab, he ▸ hpw, congrArg frameNo he.symm⟩
      · rw [← hw] at he
        rw [he] at hpw
        exact absurd hpw not_pres_zero
    obtain ⟨m₁, hm₁, hF, hphys⟩ := h.free hA hleaf
    have htr₁ := hF.extbl hs le_rfl hi hj hp
    rw [hT] at htr₁
    refine ⟨m₁, ?_, hF.clear hs htab _, hphys, fun _ => hm₁, fun hn => absurd hpw hn⟩
    refine bind_eq_ok.mpr ⟨w, read_eq htr, (if_pos hpw).trans ?_⟩
    exact bind_eq_ok.mpr ⟨m₁, hm₁, write_eq htr₁ 0⟩
  · refine ⟨m, ?_, h.clear hs htab _, rfl, fun hpos => absurd hpos hpw, fun _ => rfl⟩
    refine bind_eq_ok.mpr ⟨w, read_eq htr, (if_neg hpw).trans ?_⟩
    exact bind_eq_ok.mpr ⟨m, rfl, write_eq htr 0⟩

/-- The inner loop of `space_free`. -/
def spaceFreeTable (m : Mem) (i : ℕ) : Except Stop Mem :=
  (List.range 1024).foldlM (fun m j =>
    spaceFreeEntry m (extblAddr (BitVec.ofNat 32 i * 1024 + BitVec.ofNat 32 j))) m

/-- One turn of its outer loop. -/
def spaceFreeSegment (m : Mem) (i : ℕ) : Except Stop Mem := do
  if (← m.read (exmapAddr (BitVec.ofNat 32 i))) &&& PF_PRES ≠ 0 then
    let m ← spaceFreeTable m i
    let m ← frameFree m (pageUfmt (← m.read (exmapAddr (BitVec.ofNat 32 i))))
    m.write (exmapAddr (BitVec.ofNat 32 i)) 0
  else pure m

/-- The inner loop gives back the frames of one segment. -/
theorem FreeingSpace.segment {i : ℕ} (h : FreeingSpace m₀ S i m) (hs : ShowsSpace m₀ S)
    (hA : Supply m₀ A) (hi : i < 768) (hp : Pres (m₀.phys S (BitVec.ofNat 10 i))) :
    ∃ m', spaceFreeTable m i = .ok m' ∧ FreeingSpace m₀ S i m' :=
  foldlM_range_ok (P := fun _ m => FreeingSpace m₀ S i m) h fun j hj m hm => by
    obtain ⟨m₁, hturn, hF, -⟩ := hm.turn hs hA hi hj hp rfl
    exact ⟨_, hturn, hF⟩

/-- An entry that is present: its table is given back after the inner loop, and the entry
is cleared. -/
theorem FreeingSpace.close {i : ℕ} (h : FreeingSpace m₀ S i m) (hs : ShowsSpace m₀ S)
    (hA : Supply m₀ A) (hi : i < 768) (hp : Pres (m₀.phys S (BitVec.ofNat 10 i))) {m₁ : Mem}
    (hseg : spaceFreeTable m i = .ok m₁) (h₁ : FreeingSpace m₀ S i m₁) :
    ∃ m₂, frameFree m₁ (pageUfmt (m₀.phys S (BitVec.ofNat 10 i))) = .ok m₂ ∧
      m₂.phys = m₁.phys ∧ spaceFreeSegment m i = .ok (m₂.poke S (BitVec.ofNat 10 i) 0) ∧
      FreeingSpace m₀ S (i + 1) (m₂.poke S (BitVec.ofNat 10 i) 0) := by
  have hin : (BitVec.ofNat 10 i).toNat = i := by
    rw [BitVec.toNat_ofNat]
    exact Nat.mod_eq_of_lt (by omega)
  have hread : ∀ {m : Mem}, FreeingSpace m₀ S i m →
      m.read (exmapAddr (BitVec.ofNat 32 i)) = .ok (m₀.phys S (BitVec.ofNat 10 i)) := by
    intro m hm
    rw [read_eq (hm.exmap hs (by omega) (by omega)), hm.dir _ hin.ge]
  have htab : frameNo (pageUfmt (m₀.phys S (BitVec.ofNat 10 i))) ∈ m₀.spaceFrames S := by
    rw [pageUfmt_frame]
    exact Or.inr (Or.inl ⟨_, by rw [hin]; exact hi, hp, rfl⟩)
  obtain ⟨m₂, hm₂, hF₂, hphys⟩ := h₁.free hA htab
  refine ⟨m₂, hm₂, hphys, ?_, ?_⟩
  · refine bind_eq_ok.mpr ⟨_, hread h, (if_pos hp).trans ?_⟩
    refine bind_eq_ok.mpr ⟨m₁, hseg, ?_⟩
    refine bind_eq_ok.mpr ⟨_, hread h₁, ?_⟩
    refine bind_eq_ok.mpr ⟨m₂, hm₂, ?_⟩
    exact write_eq (hF₂.exmap hs (by omega) (by omega)) 0
  · refine ⟨hF₂.vars.trans ⟨rfl, rfl, rfl, rfl, rfl, rfl, rfl⟩,
      hF₂.frees.same ⟨rfl, rfl, rfl, rfl, rfl, rfl⟩, fun g hg ht => ?_, fun e he => ?_,
      fun T hT j => ?_⟩
    · funext e
      rw [poke_of_ne _ _ _ _ _ _ (Or.inl hg), hF₂.other g hg ht]
    · rw [poke_of_ne, hF₂.dir e (by omega)]
      refine Or.inr fun hei => ?_
      rw [hei, hin] at he
      omega
    · rw [poke_of_ne _ _ _ _ _ _ (Or.inl (hs.tabNe T hT).1)]
      exact hF₂.tab T hT j

/-- An entry that is not present. -/
theorem FreeingSpace.skip {i : ℕ} (h : FreeingSpace m₀ S i m) (hs : ShowsSpace m₀ S)
    (hi : i < 768) (hp : ¬Pres (m₀.phys S (BitVec.ofNat 10 i))) :
    spaceFreeSegment m i = .ok m ∧ FreeingSpace m₀ S (i + 1) m := by
  have hin : (BitVec.ofNat 10 i).toNat = i := by
    rw [BitVec.toNat_ofNat]
    exact Nat.mod_eq_of_lt (by omega)
  have hread : m.read (exmapAddr (BitVec.ofNat 32 i)) = .ok (m₀.phys S (BitVec.ofNat 10 i)) := by
    rw [read_eq (h.exmap hs (by omega) (by omega)), h.dir _ hin.ge]
  refine ⟨?_, h.vars, h.frees, h.other, fun e he => h.dir e (by omega), h.tab⟩
  exact bind_eq_ok.mpr ⟨_, hread, if_neg hp⟩

/-- One turn of the outer loop. -/
theorem FreeingSpace.entry {i : ℕ} (h : FreeingSpace m₀ S i m) (hs : ShowsSpace m₀ S)
    (hA : Supply m₀ A) (hi : i < 768) :
    ∃ m', spaceFreeSegment m i = .ok m' ∧ FreeingSpace m₀ S (i + 1) m' := by
  by_cases hp : Pres (m₀.phys S (BitVec.ofNat 10 i))
  · obtain ⟨m₁, hm₁, hF₁⟩ := h.segment hs hA hi hp
    obtain ⟨m₂, -, -, hm₂, hF₂⟩ := h.close hs hA hi hp hm₁ hF₁
    exact ⟨_, hm₂, hF₂⟩
  · exact ⟨m, h.skip hs hi hp⟩

/-- **`space_free`** of a directory that is not loaded gives back the frames of its user
part and its own. -/
theorem spaceFree_freeing (h : SelfMapped m) {space : U32} (hA : Supply m A)
    (hs : ShowsSpace (m.poke m.dir 1022 (dirEntry space)) (frameNo space)) :
    ∃ m', spaceFree m space = .ok m' ∧
      FreeingSpace (m.poke m.dir 1022 (dirEntry space)) (frameNo space) 768 m' := by
  set m₀ := m.poke m.dir 1022 (dirEntry space) with hm₀
  have hA₀ : Supply m₀ A := hA.same ⟨rfl, rfl, rfl, rfl, rfl, rfl⟩
  obtain ⟨m₁, hm₁, hF₁⟩ := foldlM_range_ok (P := FreeingSpace m₀ (frameNo space))
    (FreeingSpace.refl m₀ _) fun i hi m hm => hm.entry hs hA₀ hi
  obtain ⟨m₂, hm₂, hF₂, -⟩ := hF₁.free hA₀ (Or.inr (Or.inr rfl))
  refine ⟨m₂, ?_, hF₂⟩
  unfold spaceFree
  refine bind_eq_ok.mpr ⟨m₀, spaceExmap_eq h space, ?_⟩
  exact bind_eq_ok.mpr ⟨m₁, hm₁, hm₂⟩

end Free

end Pinion
