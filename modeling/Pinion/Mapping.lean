/-
Mapping pages into the loaded address space.

* `Mem.pte` — the table entry of an address;
* `Mem.Table` — the frame is the directory or a table;
* `Space m H A` — the tables are distinct frames, `A` holds what `frame_new` may return
  and `H` frames that are to be left alone;
* `Grew` — pages have been mapped to frames of the supply;
* `Grew.map_page` — one page of `mem_alloc`;
* `memAlloc_grew` — `mem_alloc`.
-/
import Pinion.HeapPages
import Pinion.Halting

open Runs

namespace Pinion

/-! ### Entries -/

/-- The table entry of an address in the loaded address space, 0 without a table. -/
def Mem.pte (m : Mem) (va : U32) : U32 := m.entry m.dir va

/-- The frame is the loaded directory or one of its tables. -/
def Mem.Table (m : Mem) (g : BitVec 20) : Prop :=
  ∃ e, Pres (m.phys m.dir e) ∧ frameNo (m.phys m.dir e) = g

/-- The two addresses lie in the same page. -/
def SamePage (va va' : U32) : Prop := pdx va = pdx va' ∧ ptx va = ptx va'

section Entries

variable {m m' : Mem} {va va' : U32}

theorem pte_eq (hd : Pres (m.phys m.dir (pdx va))) : m.pte va = m.phys (m.tab va) (ptx va) :=
  if_pos hd

theorem pte_absent (hd : ¬Pres (m.phys m.dir (pdx va))) : m.pte va = 0 := if_neg hd

theorem dir_of_pte (h : Pres (m.pte va)) : Pres (m.phys m.dir (pdx va)) := by
  by_contra hd
  rw [pte_absent hd] at h
  exact not_pres_zero h

theorem SamePage.pte (h : SamePage va va') : m.pte va = m.pte va' := by
  rw [Mem.pte, Mem.pte, Mem.entry, Mem.entry, h.1, h.2]

theorem translate_pte (h : Pres (m.pte va)) :
    m.translate va = .ok (frameNo (m.pte va), wdx va) := by
  have hd := dir_of_pte h
  rw [pte_eq hd] at h ⊢
  exact translate_eq hd h

theorem translate_fault (h : ¬Pres (m.pte va)) : m.translate va = .error .kernelFault := by
  by_cases hd : Pres (m.phys m.dir (pdx va))
  · rw [pte_eq hd] at h
    exact (if_neg hd).trans (if_pos (not_pres.mp h))
  · exact if_pos (not_pres.mp hd)

/-- An entry depends on a word of the directory and one of its tables. -/
theorem pte_congr (hdir : m'.dir = m.dir) (hd : m'.phys m.dir (pdx va) = m.phys m.dir (pdx va))
    (ht : Pres (m.phys m.dir (pdx va)) →
      m'.phys (m.tab va) (ptx va) = m.phys (m.tab va) (ptx va)) : m'.pte va = m.pte va := by
  unfold Mem.pte Mem.entry
  rw [hdir, hd]
  split
  · rename_i hp
    exact ht hp
  · rfl

end Entries

/-! ### Address spaces -/

/-- The directory entry is one of the first `n` or the last one. -/
def Early (n : ℕ) (e : BitVec 10) : Prop := e.toNat < n ∨ e = 1023

/-- The first `n` directory entries name different tables, none of them the directory.
An entry behind them, such as the one for temporary mappings, may name a directory. -/
structure SpaceBelow (n : ℕ) (m : Mem) (H A : Set (BitVec 20)) : Prop where
  self : SelfMapped m
  tabs : ∀ e e', Early n e → Early n e' → Pres (m.phys m.dir e) → Pres (m.phys m.dir e') →
    frameNo (m.phys m.dir e) = frameNo (m.phys m.dir e') → e = e'
  held : ∀ g ∈ H, ¬m.Table g
  supply : Supply m A
  fresh : ∀ g ∈ A, ¬m.Table g ∧ g ∉ H

/-- All directory entries name different tables. -/
abbrev Space : Mem → Set (BitVec 20) → Set (BitVec 20) → Prop := SpaceBelow 1023

theorem early_ne {n : ℕ} {e : BitVec 10} (hn : n ≤ 1023) (he : e.toNat < n) : e ≠ 1023 := by
  rintro rfl
  rw [show (1023 : BitVec 10).toNat = 1023 from rfl] at he
  omega

/-- What the page of an address maps is neither a table, nor held, nor in supply. -/
def Mem.Open (m : Mem) (H A : Set (BitVec 20)) (va : U32) : Prop :=
  Pres (m.pte va) → ¬m.Table (frameNo (m.pte va)) ∧ frameNo (m.pte va) ∉ H ∧
    frameNo (m.pte va) ∉ A

namespace SpaceBelow

variable {n : ℕ} {m m' : Mem} {H A : Set (BitVec 20)} {va page f v : U32}

/-- Less of the directory. -/
theorem mono {k : ℕ} (h : SpaceBelow n m H A) (hk : k ≤ n) : SpaceBelow k m H A := by
  have hearly : ∀ {e : BitVec 10}, Early k e → Early n e := fun he => he.imp_left fun hlt => by
    omega
  exact ⟨h.self, fun e e' he he' => h.tabs e e' (hearly he) (hearly he'), h.held, h.supply, h.fresh⟩

theorem table_dir (h : SpaceBelow n m H A) : m.Table m.dir := ⟨1023, h.self.pres, h.self.self⟩

theorem tab_table (hp : Pres (m.phys m.dir (pdx va))) : m.Table (m.tab va) := ⟨_, hp, rfl⟩

/-- The tables of the first entries are not the directory. -/
theorem tab_ne_dir (h : SpaceBelow n m H A) (hp : Pres (m.phys m.dir (pdx va)))
    (hn : n ≤ 1023) (hlt : (pdx va).toNat < n) : m.tab va ≠ m.dir := by
  intro he
  exact early_ne hn hlt
    (h.tabs _ _ (.inl hlt) (.inr rfl) hp h.self.pres (he.trans h.self.self.symm))

/-- Steps outside directory, tables and allocator. -/
theorem same (h : SpaceBelow n m H A) (hs : SameFrames m m') (hcr3 : m'.cr3 = m.cr3)
    (hphys : ∀ g, m.Table g → m'.phys g = m.phys g) : SpaceBelow n m' H A ∧
      (∀ g, m'.Table g ↔ m.Table g) ∧ ∀ va, m'.pte va = m.pte va := by
  have hdir : m'.dir = m.dir := congrArg frameNo hcr3
  have hd := hphys _ h.table_dir
  have htable : ∀ g, m'.Table g ↔ m.Table g := by
    intro g
    unfold Mem.Table
    rw [hdir, hd]
  refine ⟨⟨⟨?_, ?_⟩, ?_, fun g hg => ?_, h.supply.same hs, fun g hg => ?_⟩, htable,
    fun va => ?_⟩
  · rw [hdir, hd]
    exact h.self.pres
  · rw [hdir, hd]
    exact h.self.self
  · rw [hdir, hd]
    exact h.tabs
  · rw [htable]
    exact h.held g hg
  · rw [htable]
    exact h.fresh g hg
  · exact pte_congr hdir (congrFun hd _) fun hp => congrFun (hphys _ (tab_table hp)) _

/-- A new frame leaves the supply. -/
theorem new (h : SpaceBelow n m H A) (hnew : frameNew m = .ok (f, m')) : frameNo f ∈ A ∧
    SpaceBelow n m' H (A \ {frameNo f}) := by
  have hphys := frameNew_phys hnew
  have hdir : m'.dir = m.dir := congrArg frameNo (frameNew_vars hnew).cr3
  obtain ⟨hf, hsupply, -⟩ := h.supply.new hnew
  have htable : ∀ g, m'.Table g ↔ m.Table g := by
    intro g
    unfold Mem.Table
    rw [hdir, hphys]
  refine ⟨hf, h.self.same hphys (frameNew_vars hnew).cr3, ?_, fun g hg => ?_, hsupply,
    fun g hg => ?_⟩
  · rw [hdir, hphys]
    exact h.tabs
  · rw [htable]
    exact h.held g hg
  · rw [htable]
    exact h.fresh g hg.1

/-- Another entry for a page that has a table. -/
theorem poke (h : SpaceBelow n m H A) (hp : Pres (m.phys m.dir (pdx page))) (hn : n ≤ 1023)
    (hlt : (pdx page).toNat < n) (v : U32) : SpaceBelow n (m.poke (m.tab page) (ptx page) v) H A ∧
      (∀ g, (m.poke (m.tab page) (ptx page) v).Table g ↔ m.Table g) ∧
      (∀ va, SamePage va page → (m.poke (m.tab page) (ptx page) v).pte va = v) ∧
      (∀ va, Early n (pdx va) → ¬SamePage va page →
        (m.poke (m.tab page) (ptx page) v).pte va = m.pte va) ∧
      (¬Pres (m.pte page) → ∀ va, Pres (m.pte va) →
        (m.poke (m.tab page) (ptx page) v).pte va = m.pte va) := by
  set m' := m.poke (m.tab page) (ptx page) v with hm'
  have htab := h.tab_ne_dir hp hn hlt
  have hdir : m'.dir = m.dir := rfl
  have hd : m'.phys m.dir = m.phys m.dir := fill_of_ne _ _ _ _ htab.symm
  have htable : ∀ g, m'.Table g ↔ m.Table g := by
    intro g
    unfold Mem.Table
    rw [hdir, hd]
  refine ⟨⟨⟨?_, ?_⟩, ?_, fun g hg => ?_, ?_, fun g hg => ?_⟩, htable, fun va hva => ?_,
    fun va hearly hva => ?_, fun habs va hva => ?_⟩
  · rw [hdir, hd]
    exact h.self.pres
  · rw [hdir, hd]
    exact h.self.self
  · rw [hdir, hd]
    exact h.tabs
  · rw [htable]
    exact h.held g hg
  · exact h.supply.same ⟨rfl, rfl, rfl, rfl, rfl, rfl⟩
  · rw [htable]
    exact h.fresh g hg
  · have hpv : Pres (m'.phys m'.dir (pdx page)) := by
      rw [hdir, hd]
      exact hp
    have hsame : m'.tab page = m.tab page := by
      rw [Mem.tab, hdir, hd]
      rfl
    rw [hva.pte, pte_eq hpv, hsame, hm', poke_self]
  · refine pte_congr hdir (congrFun hd _) fun hpv => poke_of_ne _ _ _ _ _ _ ?_
    by_cases hpd : pdx va = pdx page
    · exact .inr fun hpt => hva ⟨hpd, hpt⟩
    · exact .inl fun he => hpd (h.tabs _ _ hearly (.inl hlt) hpv hp he)
  · -- the word that changes held no entry
    refine pte_congr hdir (congrFun hd _) fun hpv => poke_of_ne _ _ _ _ _ _ ?_
    by_contra hword
    obtain ⟨htab', hptx⟩ := not_or.mp hword
    rw [pte_eq hpv, not_not.mp htab', not_not.mp hptx] at hva
    rw [pte_eq hp] at habs
    exact habs hva

/-- An empty table stands in frame `g` and in one more entry of the directory. -/
structure Tabled (m t : Mem) (e : BitVec 10) (g : BitVec 20) : Prop where
  dir : t.dir = m.dir
  pres : Pres (t.phys m.dir e)
  entry : frameNo (t.phys m.dir e) = g
  dirs : ∀ e', e' ≠ e → t.phys m.dir e' = m.phys m.dir e'
  zero : t.phys g = fun _ => 0
  other : ∀ g', g' ≠ m.dir → g' ≠ g → t.phys g' = m.phys g'

theorem tabled (h : SpaceBelow n m H A) (hnew : frameNew m = .ok (f, m')) :
    Tabled m (m'.touched page f) (pdx page) (frameNo f) := by
  have hphys := frameNew_phys hnew
  have hdir' : m'.dir = m.dir := congrArg frameNo (frameNew_vars hnew).cr3
  obtain ⟨hf, -, -⟩ := h.supply.new hnew
  have hfd : frameNo f ≠ m.dir := fun he => (h.fresh _ hf).1 (he ▸ h.table_dir)
  obtain ⟨hrw, hfw⟩ := touched_entry f
  have hself : (m'.touched page f).phys m.dir (pdx page) = f ||| PF_PRES ||| PF_RW ||| PF_USER := by
    rw [Mem.touched, fill_of_ne _ _ _ _ hfd.symm, hdir', poke_self]
  refine ⟨hdir', by rw [hself]; exact hrw.pres, by rw [hself, hfw], fun e he => ?_,
    fill_self _ _ _, fun g hgd hgf => ?_⟩
  · rw [Mem.touched, fill_of_ne _ _ _ _ hfd.symm, hdir', poke_of_ne _ _ _ _ _ _ (.inr he), hphys]
  · rw [Mem.touched, fill_of_ne _ _ _ _ hgf, hdir', Mem.poke, fill_of_ne _ _ _ _ hgd, hphys]

section Tabled

variable {t : Mem} {e : BitVec 10} {g : BitVec 20}

/-- A present entry of the new directory is the new table or an old entry. -/
theorem Tabled.cases (ht : Tabled m t e g) {e' : BitVec 10} (he : Pres (t.phys m.dir e')) :
    e' = e ∨ e' ≠ e ∧ Pres (m.phys m.dir e') ∧ t.phys m.dir e' = m.phys m.dir e' := by
  by_cases hee : e' = e
  · exact .inl hee
  · rw [ht.dirs e' hee] at he ⊢
    exact .inr ⟨hee, he, rfl⟩

theorem Tabled.table (ht : Tabled m t e g) (hp : ¬Pres (m.phys m.dir e)) (g' : BitVec 20) :
    t.Table g' ↔ m.Table g' ∨ g' = g := by
  unfold Mem.Table
  rw [ht.dir]
  constructor
  · rintro ⟨e', he, rfl⟩
    obtain rfl | ⟨-, hpres, heq⟩ := ht.cases he
    · exact .inr ht.entry
    · exact .inl ⟨e', hpres, by rw [heq]⟩
  · rintro (⟨e', he, rfl⟩ | rfl)
    · have hee : e' ≠ e := fun he' => hp (he' ▸ he)
      exact ⟨e', by rw [ht.dirs e' hee]; exact he, by rw [ht.dirs e' hee]⟩
    · exact ⟨e, ht.pres, ht.entry⟩

/-- Other parts of the address space, and of the windows on the directory, are as
before. -/
theorem Tabled.keep (ht : Tabled m t e g) (hg : ¬m.Table g)
    (hwin : m.tab va = m.dir → ptx va ≠ e) (hpd : pdx va ≠ e) : t.pte va = m.pte va := by
  refine pte_congr ht.dir (ht.dirs _ hpd) fun hpv => ?_
  have hTab : m.tab va ≠ g := fun he => hg (he ▸ tab_table hpv)
  by_cases hva : m.tab va = m.dir
  · rw [hva]
    exact ht.dirs _ (hwin hva)
  · rw [ht.other _ hva hTab]

/-- The entries of the empty table are as absent as the table was. -/
theorem Tabled.pte (ht : Tabled m t e g) (h : SpaceBelow n m H A) (hg : ¬m.Table g)
    (hp : ¬Pres (m.phys m.dir e)) (hn : n ≤ 1023) (hva : (pdx va).toNat < n) :
    t.pte va = m.pte va := by
  by_cases hpd : pdx va = e
  · have hpt : Pres (t.phys t.dir (pdx va)) := by
      rw [ht.dir, hpd]
      exact ht.pres
    have htab : t.tab va = g := by
      rw [Mem.tab, ht.dir, hpd, ht.entry]
    rw [pte_eq hpt, htab, ht.zero, pte_absent (by rw [hpd]; exact hp)]
  · by_cases hpv : Pres (m.phys m.dir (pdx va))
    · exact ht.keep hg (fun hwin => absurd hwin (h.tab_ne_dir hpv hn hva)) hpd
    · have hpt : ¬Pres (t.phys t.dir (pdx va)) := by
        rw [ht.dir, ht.dirs _ hpd]
        exact hpv
      rw [pte_absent hpv, pte_absent hpt]

/-- Directory entries still name different tables. -/
theorem Tabled.tabs (ht : Tabled m t e g) (h : SpaceBelow n m H A) (hg : ¬m.Table g)
    {e₁ e₂ : BitVec 10} (hearly₁ : Early n e₁) (hearly₂ : Early n e₂)
    (h₁ : Pres (t.phys t.dir e₁)) (h₂ : Pres (t.phys t.dir e₂))
    (heq : frameNo (t.phys t.dir e₁) = frameNo (t.phys t.dir e₂)) : e₁ = e₂ := by
  rw [ht.dir] at h₁ h₂ heq
  obtain rfl | ⟨-, hp₁, he₁⟩ := ht.cases h₁
  · obtain rfl | ⟨-, hp₂, he₂⟩ := ht.cases h₂
    · rfl
    · exact absurd ⟨e₂, hp₂, by rw [← he₂, ← heq, ht.entry]⟩ hg
  · obtain rfl | ⟨-, hp₂, he₂⟩ := ht.cases h₂
    · exact absurd ⟨e₁, hp₁, by rw [← he₁, heq, ht.entry]⟩ hg
    · rw [he₁, he₂] at heq
      exact h.tabs e₁ e₂ hearly₁ hearly₂ hp₁ hp₂ heq

end Tabled

/-- A new, empty table. -/
theorem touch (h : SpaceBelow n m H A) (hn : n ≤ 1023) (hp : ¬Pres (m.phys m.dir (pdx page)))
    (hnew : frameNew m = .ok (f, m')) : SpaceBelow n (m'.touched page f) H (A \ {frameNo f}) ∧
      (∀ g, (m'.touched page f).Table g ↔ m.Table g ∨ g = frameNo f) ∧
      (∀ va, (pdx va).toNat < n → (m'.touched page f).pte va = m.pte va) ∧
      (∀ va, Pres (m.pte va) → (m'.touched page f).pte va = m.pte va) ∧
      (∀ g, g ≠ m.dir → g ≠ frameNo f → (m'.touched page f).phys g = m.phys g) ∧
      Pres ((m'.touched page f).phys m.dir (pdx page)) := by
  obtain ⟨hf, hsupply, -⟩ := h.supply.new hnew
  obtain ⟨hfT, hfH⟩ := h.fresh _ hf
  have ht : Tabled m (m'.touched page f) (pdx page) (frameNo f) := h.tabled hnew
  have htable := ht.table hp
  have hlast : (1023 : BitVec 10) ≠ pdx page := fun he => hp (he ▸ h.self.pres)
  refine ⟨⟨⟨?_, ?_⟩, fun _ _ he he' => ht.tabs h hfT he he', fun g hg => ?_, ?_,
    fun g hg => ?_⟩, htable, fun va => ht.pte h hfT hp hn, fun va hva => ?_, ht.other, ht.pres⟩
  · rw [ht.dir, ht.dirs _ hlast]
    exact h.self.pres
  · rw [ht.dir, ht.dirs _ hlast]
    exact h.self.self
  · rw [htable, not_or]
    exact ⟨h.held g hg, fun he => hfH (he ▸ hg)⟩
  · exact hsupply.same ⟨rfl, rfl, rfl, rfl, rfl, rfl⟩
  · rw [htable, not_or]
    exact ⟨⟨(h.fresh g hg.1).1, hg.2⟩, (h.fresh g hg.1).2⟩
  · have hpd : pdx va ≠ pdx page := fun he => hp (he ▸ dir_of_pte hva)
    refine ht.keep hfT (fun hwin hpt => ?_) hpd
    -- a page of a window would be the missing entry itself
    rw [pte_eq (dir_of_pte hva), hwin, hpt] at hva
    exact hp hva

end SpaceBelow

/-! ### Growing -/

/-- The page has a table, a new one if it had none. -/
structure Ready (n : ℕ) (m t : Mem) (H A A' : Set (BitVec 20)) (page : U32) : Prop where
  space : SpaceBelow n t H A'
  cr3 : t.cr3 = m.cr3
  sub : A' ⊆ A
  pres : Pres (t.phys t.dir (pdx page))
  pte : ∀ va, (pdx va).toNat < n → t.pte va = m.pte va
  keep : ∀ va, Pres (m.pte va) → t.pte va = m.pte va
  table : ∀ g, t.Table g → m.Table g ∨ (g ∈ A ∧ g ∉ A')
  frames : ∀ g, ¬m.Table g → g ∉ A → t.phys g = m.phys g

/-- Pages have been mapped to frames of the supply, with the flags `k`. -/
structure Grew (n : ℕ) (m m' : Mem) (H A A' : Set (BitVec 20)) (k : U32) : Prop where
  space : SpaceBelow n m' H A'
  cr3 : m'.cr3 = m.cr3
  sub : A' ⊆ A
  keep : ∀ va, Pres (m.pte va) → m'.pte va = m.pte va
  table : ∀ g, m'.Table g → m.Table g ∨ (g ∈ A ∧ g ∉ A')
  made : ∀ va, (pdx va).toNat < n → ¬Pres (m.pte va) → Pres (m'.pte va) →
    frameNo (m'.pte va) ∈ A ∧ frameNo (m'.pte va) ∉ A' ∧ ¬m'.Table (frameNo (m'.pte va)) ∧
      m'.pte va &&& 0xFFF = k
  inj : ∀ va va', (pdx va).toNat < n → (pdx va').toNat < n → ¬Pres (m.pte va) → ¬Pres (m.pte va') →
    Pres (m'.pte va) → Pres (m'.pte va') → frameNo (m'.pte va) = frameNo (m'.pte va') →
      SamePage va va'
  frames : ∀ g, ¬m.Table g → g ∉ A → m'.phys g = m.phys g

section Growing

variable {n : ℕ} {m m₁ m₂ m' : Mem} {H A A₁ A₂ A' : Set (BitVec 20)} {page f v k va : U32}

/-- A missing table takes one new frame, whatever the entry to be set. -/
theorem SpaceBelow.ready (h : SpaceBelow n m H A) (hn : n ≤ 1023)
    (hnew : ¬Pres (m.phys m.dir (pdx page)) → ∃ f m₁, frameNew m = .ok (f, m₁)) :
    ∃ t A', Ready n m t H A A' page ∧
      ∀ v, pageSet m page v = .ok (t.poke (t.tab page) (ptx page) v) := by
  by_cases hp : Pres (m.phys m.dir (pdx page))
  · exact ⟨m, A, ⟨h, rfl, subset_rfl, hp, fun _ _ => rfl, fun _ _ => rfl, fun _ hg => .inl hg,
      fun _ _ _ => rfl⟩, h.self.set_present hp⟩
  · obtain ⟨f, m₁, hnew⟩ := hnew hp
    have hphys := frameNew_phys hnew
    have hcr3 := (frameNew_vars hnew).cr3
    obtain ⟨hf, -⟩ := h.supply.new hnew
    have hfT := (h.fresh _ hf).1
    have hfd : frameNo f ≠ m.dir := fun he => hfT (he ▸ h.table_dir)
    obtain ⟨hspace, htable, hpte, hkeep, hframes, hpres⟩ := h.touch hn hp hnew
    have hdir : (m₁.touched page f).dir = m.dir := congrArg frameNo hcr3
    have htab : (m₁.touched page f).tab page = frameNo f := by
      rw [Mem.tab, hdir, Mem.touched, fill_of_ne _ _ _ _ hfd.symm,
        show m₁.dir = m.dir from congrArg frameNo hcr3, poke_self]
      exact (touched_entry f).2
    refine ⟨m₁.touched page f, A \ {frameNo f}, ⟨hspace, hcr3, Set.sdiff_subset,
      by rw [hdir]; exact hpres, hpte, hkeep, fun g hg => ?_, fun g hgT hgA => ?_⟩, fun v => ?_⟩
    · rcases (htable g).mp hg with hg | rfl
      · exact .inl hg
      · exact .inr ⟨hf, fun hmem => hmem.2 rfl⟩
    · exact hframes g (fun he => hgT (he ▸ h.table_dir)) fun he => hgA (he ▸ hf)
    · rw [htab]
      exact h.self.set_absent hp hnew hphys hcr3 hfd v

/-- **`page_set`** has a table for the page, and then sets its entry. -/
theorem SpaceBelow.set (h : SpaceBelow n m H A) (hn : n ≤ 1023)
    (hset : pageSet m page v = .ok m') :
    ∃ t A', Ready n m t H A A' page ∧ m' = t.poke (t.tab page) (ptx page) v := by
  obtain ⟨t, A', hr, hall⟩ := h.ready hn fun hp => by
    -- without a table `page_touch` has called `frame_new`
    obtain ⟨e, he, hrest⟩ := bind_eq_ok.mp hset
    cases he.symm.trans (h.self.read_cmap page)
    dsimp only at hrest
    rw [if_pos (not_pres.mp hp)] at hrest
    obtain ⟨m₂, htouch, -⟩ := bind_eq_ok.mp hrest
    unfold pageTouch at htouch
    dsimp only at htouch
    rw [h.self.read_cmap, segment_pdx] at htouch
    obtain ⟨e, he, htouch⟩ := bind_eq_ok.mp htouch
    cases he
    rw [if_neg (not_not.mpr (not_pres.mp hp))] at htouch
    obtain ⟨⟨f, m₁⟩, hnew, -⟩ := bind_eq_ok.mp htouch
    exact ⟨f, m₁, hnew⟩
  exact ⟨t, A', hr, Except.ok.inj (hset.symm.trans (hall v))⟩

theorem Grew.refl (h : SpaceBelow n m H A) (k : U32) : Grew n m m H A A k :=
  ⟨h, rfl, subset_rfl, fun _ _ => rfl, fun _ hg => .inl hg, fun _ _ hn hp => absurd hp hn,
    fun _ _ _ _ hn _ hp _ _ => absurd hp hn, fun _ _ _ => rfl⟩

theorem Grew.trans (h : Grew n m m₁ H A A₁ k) (h' : Grew n m₁ m₂ H A₁ A₂ k) :
    Grew n m m₂ H A A₂ k := by
  -- a page that is new at the end is new in one of the two parts
  have hpart : ∀ va, ¬Pres (m.pte va) → Pres (m₂.pte va) →
      (Pres (m₁.pte va) ∧ m₂.pte va = m₁.pte va) ∨ ¬Pres (m₁.pte va) := by
    intro va _ _
    by_cases hp : Pres (m₁.pte va)
    · exact .inl ⟨hp, h'.keep va hp⟩
    · exact .inr hp
  refine ⟨h'.space, h'.cr3.trans h.cr3, h'.sub.trans h.sub, fun va hp => ?_, fun g hg => ?_,
    fun va hne hn hp => ?_, fun va va' hne hne' hn hn' hp hp' heq => ?_, fun g hgT hgA => ?_⟩
  · have hk := h.keep va hp
    rw [h'.keep va (by rw [hk]; exact hp), hk]
  · rcases h'.table g hg with hg | hg
    · rcases h.table g hg with hg | hg
      · exact .inl hg
      · exact .inr ⟨hg.1, fun hmem => hg.2 (h'.sub hmem)⟩
    · exact .inr ⟨h.sub hg.1, hg.2⟩
  · rcases hpart va hn hp with ⟨hp₁, heq⟩ | hp₁
    · obtain ⟨hA, hA₁, hT, hk⟩ := h.made va hne hn hp₁
      rw [heq]
      refine ⟨hA, fun hmem => hA₁ (h'.sub hmem), fun hT' => ?_, hk⟩
      rcases h'.table _ hT' with hg | hg
      · exact hT hg
      · exact hA₁ hg.1
    · obtain ⟨hA, hrest⟩ := h'.made va hne hp₁ hp
      exact ⟨h.sub hA, hrest⟩
  · rcases hpart va hn hp with ⟨hp₁, he⟩ | hp₁
    · rcases hpart va' hn' hp' with ⟨hp₁', he'⟩ | hp₁'
      · rw [he, he'] at heq
        exact h.inj va va' hne hne' hn hn' hp₁ hp₁' heq
      · have hA := (h'.made va' hne' hp₁' hp').1
        rw [← heq, he] at hA
        exact absurd hA (h.made va hne hn hp₁).2.1
    · rcases hpart va' hn' hp' with ⟨hp₁', he'⟩ | hp₁'
      · have hA := (h'.made va hne hp₁ hp).1
        rw [heq, he'] at hA
        exact absurd hA (h.made va' hne' hn' hp₁').2.1
      · exact h'.inj va va' hne hne' hp₁ hp₁' hp hp' heq
  · have hgT₁ : ¬m₁.Table g := by
      intro hg
      rcases h.table g hg with hg | hg
      · exact hgT hg
      · exact hgA hg.1
    rw [h'.frames g hgT₁ fun hmem => hgA (h.sub hmem), h.frames g hgT hgA]

/-- Pages that may be written stay so. -/
theorem Grew.stays_open (h : Grew n m m' H A A' k) (hs : SpaceBelow n m H A)
    (hne : (pdx va).toNat < n)
    (ho : m.Open H A va) : m'.Open H A' va := by
  intro hp
  by_cases hold : Pres (m.pte va)
  · obtain ⟨hT, hH, hA⟩ := ho hold
    rw [h.keep va hold]
    refine ⟨fun hT' => ?_, hH, fun hmem => hA (h.sub hmem)⟩
    rcases h.table _ hT' with hg | hg
    · exact hT hg
    · exact hA hg.1
  · obtain ⟨hA, hA', hT, -⟩ := h.made va hne hold hp
    exact ⟨hT, (hs.fresh _ hA).2, hA'⟩

/-- **One page** is mapped to a new frame. -/
theorem Grew.map_page (h : SpaceBelow n m H A) (hn : n ≤ 1023) (hlt : (pdx page).toNat < n)
    (habs : ¬Pres (m.pte page)) (hnew : frameNew m = .ok (f, m₁))
    (hset : pageSet m₁ page v = .ok m') (hfv : frameNo v = frameNo f) (hk : v &&& 0xFFF = k) :
    ∃ A', Grew n m m' H A A' k ∧ m'.pte page = v ∧
      ∀ va, (pdx va).toNat < n → ¬SamePage va page → m'.pte va = m.pte va := by
  obtain ⟨hf, h₁⟩ := h.new hnew
  have hfT := (h.fresh _ hf).1
  have hphys := frameNew_phys hnew
  have hdir₁ : m₁.dir = m.dir := congrArg frameNo (frameNew_vars hnew).cr3
  have hpte₁ : ∀ va, m₁.pte va = m.pte va :=
    fun va => pte_congr hdir₁ (by rw [hphys]) fun _ => by rw [hphys]
  have htable₁ : ∀ g, m₁.Table g ↔ m.Table g := by
    intro g
    unfold Mem.Table
    rw [hdir₁, hphys]
  obtain ⟨t, A', hready, rfl⟩ := h₁.set hn hset
  obtain ⟨hspace, htable, hpage, hother, hkeep⟩ := hready.space.poke hready.pres hn hlt v
  have habs' : ¬Pres (t.pte page) := by
    rw [hready.pte page hlt, hpte₁]
    exact habs
  have hsubA : A' ⊆ A := hready.sub.trans Set.sdiff_subset
  have hfA' : frameNo f ∉ A' := fun hmem => (hready.sub hmem).2 rfl
  have htT : ∀ g, t.Table g → m.Table g ∨ (g ∈ A ∧ g ∉ A' ∧ g ≠ frameNo f) := by
    intro g hg
    rcases hready.table g hg with hg | ⟨⟨hgA, hgf⟩, hg'⟩
    · exact .inl ((htable₁ g).mp hg)
    · exact .inr ⟨hgA, hg', hgf⟩
  have hfT' : ¬t.Table (frameNo f) := by
    intro hg
    rcases htT _ hg with hg | hg
    · exact hfT hg
    · exact hg.2.2 rfl
  have hnew_page : ∀ va, (pdx va).toNat < n → ¬Pres (m.pte va) →
      Pres ((t.poke (t.tab page) (ptx page) v).pte va) → SamePage va page := by
    intro va hva hnot hp
    by_contra hsame
    rw [hother va (.inl hva) hsame, hready.pte va hva, hpte₁] at hp
    exact hnot hp
  refine ⟨A', ⟨hspace, ?_, hsubA, fun va hp => ?_, fun g hg => ?_, fun va hva hn hp => ?_,
    fun va va' hva hva' hn hn' hp hp' _ => ?_, fun g hgT hgA => ?_⟩, hpage page ⟨rfl, rfl⟩,
    fun va hva hsame => ?_⟩
  · exact hready.cr3.trans (frameNew_vars hnew).cr3
  · have hpt := hready.keep va (by rw [hpte₁]; exact hp)
    rw [hkeep habs' va (by rw [hpt, hpte₁]; exact hp), hpt, hpte₁]
  · rcases htT g ((htable g).mp hg) with hg | hg
    · exact .inl hg
    · exact .inr ⟨hg.1, hg.2.1⟩
  · rw [hpage va (hnew_page va hva hn hp), hfv, htable]
    exact ⟨hf, hfA', hfT', hk⟩
  · obtain ⟨hd, ht⟩ := hnew_page va hva hn hp
    obtain ⟨hd', ht'⟩ := hnew_page va' hva' hn' hp'
    exact ⟨hd.trans hd'.symm, ht.trans ht'.symm⟩
  · have hgT₁ : ¬t.Table g := by
      intro hg
      rcases htT g hg with hg | hg
      · exact hgT hg
      · exact hgA hg.1
    have hgtab : g ≠ t.tab page := fun he => hgT₁ (he ▸ SpaceBelow.tab_table hready.pres)
    rw [Mem.poke, fill_of_ne _ _ _ _ hgtab, hready.frames g (fun hg => hgT ((htable₁ g).mp hg))
      fun hmem => hgA hmem.1, hphys]
  · rw [hother va (.inl hva) hsame, hready.pte va hva, hpte₁]

/-! ### `mem_alloc` -/

/-- The flags of an entry. -/
theorem pageFmt_low (base flags : U32) : pageFmt base flags &&& 0xFFF = flags &&& PF_MASK := by
  unfold pageFmt PF_MASK
  ext i hi
  interval_cases i <;> simp

/-- The flags `mem_alloc` gives a new page. -/
def allocBits (flags : U32) : U32 := (flags &&& PF_MASK) ||| PF_PRES

/-- The last three of them. -/
def allocFlags (flags : U32) : U32 := ((flags &&& PF_MASK) ||| PF_PRES) &&& 7

theorem allocBits_low {w flags : U32} (h : w &&& 0xFFF = allocBits flags) :
    w &&& 7 = allocFlags flags := by
  rw [allocFlags, ← allocBits, ← h, BitVec.and_assoc]
  rfl

theorem allocEntry (f flags : U32) : frameNo (pageFmt f ((flags &&& PF_MASK) ||| PF_PRES)) =
      frameNo f ∧ Pres (pageFmt f ((flags &&& PF_MASK) ||| PF_PRES)) ∧
    pageFmt f ((flags &&& PF_MASK) ||| PF_PRES) &&& 0xFFF = allocBits flags := by
  refine ⟨pageFmt_frame _ _, ?_, ?_⟩
  rotate_left
  · rw [pageFmt_low, allocBits]
    unfold PF_MASK PF_PRES
    ext i hi
    interval_cases i <;> simp
  intro hz
  have hbit : (pageFmt f ((flags &&& PF_MASK) ||| PF_PRES) &&& PF_PRES).getLsbD 0 = true := by
    unfold pageFmt PF_MASK PF_PRES
    simp
  rw [hz] at hbit
  cases hbit

/-- The directory entry of an address below segment `n`. -/
theorem pdx_lt (h : va.toNat < 4194304 * n) : (pdx va).toNat < n := by
  have hva := va.isLt
  rw [pdx_toNat]
  omega

theorem samePage_iff (va va' : U32) : SamePage va va' ↔ va.toNat / 4096 = va'.toNat / 4096 := by
  have hva := va.isLt
  have hva' := va'.isLt
  unfold SamePage
  rw [BitVec.toNat_eq, BitVec.toNat_eq, pdx_toNat, pdx_toNat, ptx_toNat, ptx_toNat]
  omega

/-- **The loop of `mem_alloc`** maps the pages from `i` up to `stop`. -/
theorem memAllocLoop_grew {flags stop : U32} (hn : n ≤ 1023) (hstop : stop.toNat ≤ 4194304 * n) :
    ∀ {k : ℕ} {i : U32} {m m' : Mem} {A : Set (BitVec 20)}, SpaceBelow n m H A →
      4096 ∣ i.toNat → memAllocLoop flags stop k i m = .ok m' →
      ∃ A', Grew n m m' H A A' (allocBits flags) ∧
        (∀ va : U32, i.toNat ≤ va.toNat → va.toNat / 4096 * 4096 < stop.toNat →
          Pres (m'.pte va)) ∧
        ∀ va : U32, (pdx va).toNat < n →
          ¬(i.toNat ≤ va.toNat ∧ va.toNat / 4096 * 4096 < stop.toNat) →
            m'.pte va = m.pte va := by
  intro k
  induction k with
  | zero =>
    intro i m m' A _ _ h
    cases h
  | succ k ih =>
    intro i m m' A hs hi h
    rw [memAllocLoop] at h
    by_cases hlt : i < stop
    · rw [if_pos hlt] at h
      rw [BitVec.lt_def] at hlt
      have hpdx : (pdx i).toNat < n := pdx_lt (by omega)
      have hnext : (i + 0x1000).toNat = i.toNat + 4096 := by
        rw [BitVec.toNat_add, show (0x1000 : U32).toNat = 4096 from rfl]
        omega
      obtain ⟨e, he, h⟩ := bind_eq_ok.mp h
      cases he.symm.trans (hs.self.get i)
      -- after this turn page `i` is there, and the others are as before
      obtain ⟨m₁, A₁, hgrew, hpres, hothers, hrest⟩ : ∃ m₁ A₁,
          Grew n m m₁ H A A₁ (allocBits flags) ∧ Pres (m₁.pte i) ∧
          (∀ va, (pdx va).toNat < n → ¬SamePage va i → m₁.pte va = m.pte va) ∧
          memAllocLoop flags stop k (i + 0x1000) m₁ = .ok m' := by
        by_cases hp : Pres (m.pte i)
        · rw [if_neg (show ¬m.entry m.dir i &&& PF_PRES = 0 from hp)] at h
          exact ⟨m, A, Grew.refl hs _, hp, fun _ _ _ => rfl, h⟩
        · rw [if_pos (show m.entry m.dir i &&& PF_PRES = 0 from not_pres.mp hp)] at h
          obtain ⟨⟨f, m₁⟩, hnew, h⟩ := bind_eq_ok.mp h
          obtain ⟨m₂, hset, h⟩ := bind_eq_ok.mp h
          obtain ⟨hfv, hpv, hk⟩ := allocEntry f flags
          obtain ⟨A₁, hgrew, hpte, hother⟩ := Grew.map_page hs hn hpdx hp hnew hset hfv hk
          exact ⟨m₂, A₁, hgrew, by rw [hpte]; exact hpv, hother, h⟩
      obtain ⟨A', hgrew', hall, hout⟩ := ih hgrew.space (by omega) hrest
      refine ⟨A', hgrew.trans hgrew', fun va hlo hhi => ?_, fun va hva hrange => ?_⟩
      · by_cases hsame : SamePage va i
        · have hp : Pres (m₁.pte va) := by
            rw [hsame.pte]
            exact hpres
          rw [hgrew'.keep va hp]
          exact hp
        · rw [samePage_iff] at hsame
          exact hall va (by omega) hhi
      · have hsame : ¬SamePage va i := by
          rw [samePage_iff]
          omega
        rw [hout va hva (by omega), hothers va hva hsame]
    · rw [if_neg hlt] at h
      rw [BitVec.lt_def] at hlt
      cases h
      refine ⟨A, Grew.refl hs _, fun va hlo hhi => ?_, fun _ _ _ => rfl⟩
      omega

/-- **`mem_alloc`** maps the pages of a range below segment `n`. -/
theorem memAlloc_grew {base size flags : U32} (hs : SpaceBelow n m H A) (hn : n ≤ 1023)
    (htop : base.toNat + size.toNat ≤ 4194304 * n) (h : memAlloc m base size flags = .ok m') :
    ∃ A', Grew n m m' H A A' (allocBits flags) ∧
      (∀ va : U32, base.toNat / 4096 * 4096 ≤ va.toNat →
        va.toNat / 4096 * 4096 < base.toNat + size.toNat → Pres (m'.pte va)) ∧
      ∀ va : U32, (pdx va).toNat < n → ¬(base.toNat / 4096 * 4096 ≤ va.toNat ∧
        va.toNat / 4096 * 4096 < base.toNat + size.toNat) → m'.pte va = m.pte va := by
  have hstop : (base + size).toNat = base.toNat + size.toNat := by
    rw [BitVec.toNat_add]
    omega
  obtain ⟨A', hgrew, hall, hout⟩ := memAllocLoop_grew hn (by omega) hs
    (by rw [pageBase_toNat]; exact dvd_mul_left 4096 _) h
  rw [pageBase_toNat, hstop] at hall hout
  have hbase := Nat.mul_comm (base.toNat / 4096) 4096
  exact ⟨A', hgrew, fun va hlo hhi => hall va (by omega) hhi,
    fun va hva hrange => hout va hva (by omega)⟩

end Growing

/-! ### Enough frames -/

/-- `frame_new` can be called `n` times. -/
inductive Plenty : ℕ → Mem → Prop
  | zero {m : Mem} : Plenty 0 m
  | succ {m m' : Mem} {f : U32} {n : ℕ} : frameNew m = .ok (f, m') → Plenty n m' → Plenty (n + 1) m

theorem Plenty.new {n : ℕ} {m : Mem} (h : Plenty (n + 1) m) :
    ∃ f m', frameNew m = .ok (f, m') ∧ Plenty n m' := by
  cases h with
  | succ hnew h => exact ⟨_, _, hnew, h⟩

/-- The boot pool has a frame for every page between `_end` and its top. -/
theorem plenty_pool {n : ℕ} : ∀ {m : Mem}, m.outOfMemory = true →
    (m.kend - KERNEL_ADDR_BASE).toNat + 4096 * n < m.oomPool.toNat → Plenty n m := by
  induction n with
  | zero =>
    intro m _ _
    exact .zero
  | succ n ih =>
    intro m hoom hroom
    have hpool := m.oomPool.isLt
    have hnext : (m.oomPool - PAGESZ).toNat = m.oomPool.toNat - 4096 := by
      rw [BitVec.toNat_sub, show PAGESZ.toNat = 4096 from rfl]
      omega
    have hfree : ¬m.oomPool - PAGESZ ≤ m.kend - KERNEL_ADDR_BASE := by
      rw [BitVec.le_def]
      omega
    refine @Plenty.succ m { m with oomPool := m.oomPool - PAGESZ } (m.oomPool - PAGESZ) n ?_
      (ih hoom ?_)
    · rw [frameNew, if_pos hoom, frameNewOom]
      exact if_neg hfree
    · show (m.kend - KERNEL_ADDR_BASE).toNat + 4096 * n < (m.oomPool - PAGESZ).toNat
      omega

/-- The pages among `T` that are not mapped and the tables that these pages lack. -/
def Mem.missing (m : Mem) (T : Finset ℕ) : ℕ :=
  (T.filter fun n => ¬Pres (m.pte (pageAddr n))).card +
    ((T.image (· / 1024)).filter fun e => ¬Pres (m.phys m.dir (BitVec.ofNat 10 e))).card

/-- A page and a table for each page of the set are all that can be missing. -/
theorem missing_le (m : Mem) (T : Finset ℕ) : m.missing T ≤ 2 * T.card := by
  have hpages := Finset.card_filter_le T fun n => ¬Pres (m.pte (pageAddr n))
  have hdirs := Finset.card_filter_le (T.image (· / 1024)) fun e =>
    ¬Pres (m.phys m.dir (BitVec.ofNat 10 e))
  have himage := Finset.card_image_le (s := T) (f := fun p => p / 1024)
  unfold Mem.missing
  omega

section Total

variable {b : ℕ} {m m₁ m' : Mem} {H A : Set (BitVec 20)} {T : Finset ℕ}

theorem takeFrame_same (hs : SameFrames m m') (fs : Ptr) :
    SameFrames (m.takeFrame fs) (m'.takeFrame fs) := by
  have haddr : m'.addrOf fs = m.addrOf fs := by rw [Mem.addrOf, hs.struct, Mem.addrOf]
  have hnext : m'.nextOf fs = m.nextOf fs := by rw [Mem.nextOf, hs.struct, Mem.nextOf]
  obtain ⟨hlist, hhash, hoom, hpool, hkend⟩ := takeFrame_vals m fs
  obtain ⟨hlist', hhash', hoom', hpool', hkend'⟩ := takeFrame_vals m' fs
  refine ⟨funext fun b => ?_, ?_, ?_, ?_, ?_, ?_⟩
  · rw [takeFrame_struct, takeFrame_struct, hs.struct, hs.hash, haddr]
  · rw [hlist, hlist', hnext]
  · rw [hhash, hhash', haddr, hs.hash]
  · rw [hoom, hoom', hs.oom]
  · rw [hpool, hpool', hs.pool]
  · rw [hkend, hkend', hs.kend]

/-- `frame_new` depends on the allocator only. -/
theorem frameNew_same {f : U32} (hs : SameFrames m m') (h : frameNew m = .ok (f, m₁)) :
    ∃ m₁', frameNew m' = .ok (f, m₁') ∧ SameFrames m₁ m₁' := by
  rcases frameNew_cases h with ⟨hcase, hoom⟩ | ⟨fs, hoom, hlist, rfl, rfl⟩
  · obtain ⟨rfl, hroom, rfl⟩ := frameNewOom_ok hoom
    refine ⟨{ m' with outOfMemory := true, oomPool := m.oomPool - PAGESZ }, ?_,
      ⟨hs.struct, hs.list, hs.hash, rfl, rfl, hs.kend⟩⟩
    have hfull : ¬m'.oomPool - PAGESZ ≤ m'.kend - KERNEL_ADDR_BASE := by
      rw [hs.pool, hs.kend]
      exact BitVec.not_le.mpr hroom
    rw [frameNew_oom (by rw [hs.oom, hs.list]; exact hcase), ← hs.pool]
    exact if_neg hfull
  · refine ⟨m'.takeFrame fs, ?_, takeFrame_same hs fs⟩
    have haddr : m'.addrOf fs = m.addrOf fs := by rw [Mem.addrOf, hs.struct, Mem.addrOf]
    rw [← haddr]
    exact frameNew_list (hs.oom.trans hoom) (hs.list.trans hlist)

theorem Plenty.same {n : ℕ} : ∀ {m m' : Mem}, Plenty n m → SameFrames m m' → Plenty n m' := by
  induction n with
  | zero =>
    intro m m' _ _
    exact .zero
  | succ n ih =>
    intro m m' h hs
    obtain ⟨f, m₁, hnew, h⟩ := h.new
    obtain ⟨m₁', hnew', hs'⟩ := frameNew_same hs hnew
    exact .succ hnew' (ih h hs')

theorem Plenty.mono {n k : ℕ} (hk : k ≤ n) : ∀ {m : Mem}, Plenty n m → Plenty k m := by
  induction k generalizing n with
  | zero =>
    intro m _
    exact .zero
  | succ k ih =>
    intro m h
    obtain ⟨n, rfl⟩ : ∃ j, n = j + 1 := ⟨n - 1, by omega⟩
    obtain ⟨f, m', hnew, h⟩ := h.new
    exact .succ hnew (ih (by omega) h)

/-- The directory shows its entries as pages of the last segment. -/
theorem pte_window (h : SelfMapped m) (e : BitVec 10) :
    m.pte (pageAddr (0xFFC00 + e.toNat)) = m.phys m.dir e := by
  have he := e.isLt
  obtain ⟨hd, ht⟩ := pageAddr_indices (show 0xFFC00 + e.toNat < 2 ^ 20 by omega)
  have hd' : pdx (pageAddr (0xFFC00 + e.toNat)) = 1023 := by
    rw [hd, pageDir]
    apply BitVec.eq_of_toNat_eq
    rw [BitVec.toNat_ofNat, show (1023 : BitVec 10).toNat = 1023 from rfl]
    omega
  have ht' : ptx (pageAddr (0xFFC00 + e.toNat)) = e := by
    rw [ht, pageTab]
    apply BitVec.eq_of_toNat_eq
    rw [BitVec.toNat_ofNat]
    omega
  rw [pte_eq (by rw [hd']; exact h.pres), Mem.tab, hd', ht', h.self]

/-- Tables stay. -/
theorem Grew.dirs {A' : Set (BitVec 20)} {k : U32} (h : Grew b m m' H A A' k)
    (hs : SpaceBelow b m H A)
    {e : BitVec 10} (he : Pres (m.phys m.dir e)) : Pres (m'.phys m'.dir e) := by
  rw [← pte_window hs.self] at he
  rw [← pte_window h.space.self, h.keep _ he]
  exact he

/-- A page that has been mapped is missing no more, and neither is its table. -/
theorem missing_lt {n : ℕ} (hn : n ∈ T) (hpages : ∀ va, Pres (m.pte va) → Pres (m'.pte va))
    (hdirs : ∀ e, Pres (m.phys m.dir e) → Pres (m'.phys m'.dir e))
    (habs : ¬Pres (m.pte (pageAddr n))) (hpres : Pres (m'.pte (pageAddr n))) :
    m'.missing T + 1 ≤ m.missing T ∧
      (¬Pres (m.phys m.dir (BitVec.ofNat 10 (n / 1024))) →
        Pres (m'.phys m'.dir (BitVec.ofNat 10 (n / 1024))) →
        m'.missing T + 2 ≤ m.missing T) := by
  have hmem : n ∈ T.filter fun n => ¬Pres (m.pte (pageAddr n)) := Finset.mem_filter.mpr ⟨hn, habs⟩
  have hsub : (T.filter fun n => ¬Pres (m'.pte (pageAddr n))) ⊆
      (T.filter fun n => ¬Pres (m.pte (pageAddr n))).erase n := by
    intro k hk
    obtain ⟨hkT, hkp⟩ := Finset.mem_filter.mp hk
    refine Finset.mem_erase.mpr ⟨?_, Finset.mem_filter.mpr ⟨hkT, fun hp => hkp (hpages _ hp)⟩⟩
    rintro rfl
    exact hkp hpres
  have hcard := Finset.card_le_card hsub
  rw [Finset.card_erase_of_mem hmem] at hcard
  have hpos : 0 < (T.filter fun n => ¬Pres (m.pte (pageAddr n))).card :=
    Finset.card_pos.mpr ⟨n, hmem⟩
  have hsubT : ((T.image (· / 1024)).filter fun e => ¬Pres (m'.phys m'.dir (BitVec.ofNat 10 e))) ⊆
      (T.image (· / 1024)).filter fun e => ¬Pres (m.phys m.dir (BitVec.ofNat 10 e)) := by
    intro e he
    obtain ⟨heT, hep⟩ := Finset.mem_filter.mp he
    exact Finset.mem_filter.mpr ⟨heT, fun hp => hep (hdirs _ hp)⟩
  refine ⟨?_, fun habsT hpresT => ?_⟩
  · have hcardT := Finset.card_le_card hsubT
    unfold Mem.missing
    omega
  · have hlt := Finset.card_lt_card (Finset.ssubset_iff_subset_ne.mpr ⟨hsubT, fun heq => ?_⟩)
    · unfold Mem.missing
      omega
    · have hmemT : n / 1024 ∈ (T.image (· / 1024)).filter fun e =>
          ¬Pres (m.phys m.dir (BitVec.ofNat 10 e)) :=
        Finset.mem_filter.mpr ⟨Finset.mem_image_of_mem _ hn, habsT⟩
      rw [← heq] at hmemT
      exact (Finset.mem_filter.mp hmemT).2 hpresT

/-- A missing page is mapped when there are frames enough. -/
theorem mapPage_total {n : ℕ} (hs : SpaceBelow b m H A) (hb : b ≤ 1023) (hn : n ∈ T)
    (htop : n < 1024 * b) (habs : ¬Pres (m.pte (pageAddr n)))
    (hplenty : Plenty (m.missing T) m) (flags : U32) :
    ∃ f m₁ m', frameNew m = .ok (f, m₁) ∧
      pageSet m₁ (pageAddr n) (pageFmt f ((flags &&& PF_MASK) ||| PF_PRES)) = .ok m' ∧
      Plenty (m'.missing T) m' := by
  obtain ⟨hd, -⟩ := pageAddr_indices (show n < 2 ^ 20 by omega)
  have hlt : (pdx (pageAddr n)).toNat < b := by
    refine pdx_lt ?_
    rw [pageAddr, BitVec.toNat_ofNat]
    omega
  have hpos : 0 < (T.filter fun n => ¬Pres (m.pte (pageAddr n))).card :=
    Finset.card_pos.mpr ⟨n, Finset.mem_filter.mpr ⟨hn, habs⟩⟩
  obtain ⟨c, hc⟩ : ∃ c, m.missing T = c + 1 := ⟨m.missing T - 1, by unfold Mem.missing; omega⟩
  rw [hc] at hplenty
  obtain ⟨f, m₁, hnew, hplenty₁⟩ := hplenty.new
  obtain ⟨-, h₁⟩ := hs.new hnew
  have hphys := frameNew_phys hnew
  have hdir₁ : m₁.dir = m.dir := congrArg frameNo (frameNew_vars hnew).cr3
  obtain ⟨hfv, hpv, hk⟩ := allocEntry f flags
  set v := pageFmt f ((flags &&& PF_MASK) ||| PF_PRES)
  have hstep : ∀ {m'}, pageSet m₁ (pageAddr n) v = .ok m' → m'.missing T + 1 ≤ m.missing T ∧
      (¬Pres (m.phys m.dir (pdx (pageAddr n))) → m'.missing T + 2 ≤ m.missing T) := by
    intro m' hset
    obtain ⟨A', hgrew, hpte, -⟩ := Grew.map_page hs hb hlt habs hnew hset hfv hk
    have hpres : Pres (m'.pte (pageAddr n)) := by
      rw [hpte]
      exact hpv
    have hlt := missing_lt hn (fun va hp => by rw [hgrew.keep va hp]; exact hp)
      (fun e he => hgrew.dirs hs he) habs hpres
    refine ⟨hlt.1, fun hT => hlt.2 ?_ ?_⟩
    · rw [hd] at hT
      exact hT
    · have hdp := dir_of_pte hpres
      rw [hd] at hdp
      exact hdp
  by_cases hT : Pres (m.phys m.dir (pdx (pageAddr n)))
  · have hset := h₁.self.set_present (by rw [hdir₁, hphys]; exact hT) v
    obtain ⟨hlt, -⟩ := hstep hset
    exact ⟨f, m₁, _, hnew, hset,
      (hplenty₁.mono (by omega)).same ⟨rfl, rfl, rfl, rfl, rfl, rfl⟩⟩
  · -- the table takes a second frame
    have hposT : 0 < ((T.image (· / 1024)).filter fun e =>
        ¬Pres (m.phys m.dir (BitVec.ofNat 10 e))).card := by
      refine Finset.card_pos.mpr ⟨n / 1024, Finset.mem_filter.mpr
        ⟨Finset.mem_image_of_mem _ hn, ?_⟩⟩
      rw [hd] at hT
      exact hT
    obtain ⟨c', rfl⟩ : ∃ c', c = c' + 1 := ⟨c - 1, by unfold Mem.missing at hc; omega⟩
    obtain ⟨f₂, m₂, hnew₂, hplenty₂⟩ := hplenty₁.new
    obtain ⟨hf₂, -⟩ := h₁.supply.new hnew₂
    have hfd : frameNo f₂ ≠ m₁.dir := fun he => (h₁.fresh _ hf₂).1 (he ▸ h₁.table_dir)
    have hset := h₁.self.set_absent (by rw [hdir₁, hphys]; exact hT) hnew₂ (frameNew_phys hnew₂)
      (frameNew_vars hnew₂).cr3 hfd v
    obtain ⟨-, hlt⟩ := hstep hset
    have hlt := hlt hT
    exact ⟨f, m₁, _, hnew, hset,
      (hplenty₂.mono (by omega)).same ⟨rfl, rfl, rfl, rfl, rfl, rfl⟩⟩

theorem memAllocLoop_total {flags stop : U32} (hb : b ≤ 1023)
    (hstop : stop.toNat ≤ 4194304 * b) :
    ∀ {n : ℕ} {i : U32} {m : Mem} {A : Set (BitVec 20)}, SpaceBelow b m H A → 4096 ∣ i.toNat →
      2 ^ 20 < n + i.toNat / 4096 →
      (∀ p, i.toNat ≤ 4096 * p → 4096 * p < stop.toNat → p ∈ T) → Plenty (m.missing T) m →
      ∃ m', memAllocLoop flags stop n i m = .ok m' ∧ Plenty (m'.missing T) m' := by
  intro n
  induction n with
  | zero =>
    intro i m A _ _ hn
    have hi := i.isLt
    omega
  | succ n ih =>
    intro i m A hs hi hn hT hplenty
    rw [memAllocLoop]
    by_cases hlt : i < stop
    · rw [if_pos hlt]
      rw [BitVec.lt_def] at hlt
      have hnext : (i + 0x1000).toNat = i.toNat + 4096 := by
        rw [BitVec.toNat_add, show (0x1000 : U32).toNat = 4096 from rfl]
        omega
      have hpage : i = pageAddr (i.toNat / 4096) := by
        apply BitVec.eq_of_toNat_eq
        rw [pageAddr, BitVec.toNat_ofNat]
        omega
      have hrest := fun {m₁ : Mem} {A₁ : Set (BitVec 20)} (h₁ : SpaceBelow b m₁ H A₁) =>
        ih h₁ (show 4096 ∣ (i + 0x1000).toNat by omega) (by omega)
          fun p hlo hhi => hT p (by omega) hhi
      rw [hs.self.get i]
      by_cases hp : Pres (m.pte i)
      · obtain ⟨m', hm', hplenty'⟩ := hrest hs hplenty
        exact ⟨m', (if_neg hp).trans hm', hplenty'⟩
      · have hp' := hp
        rw [hpage] at hp'
        obtain ⟨f, m₁, m₂, hnew, hset, hplenty₂⟩ :=
          mapPage_total hs hb (hT _ (by omega) (by omega)) (by omega) hp' hplenty flags
        rw [← hpage] at hset
        obtain ⟨hfv, hpv, hk⟩ := allocEntry f flags
        obtain ⟨A₁, hgrew, -⟩ :=
          Grew.map_page hs hb (pdx_lt (by omega)) hp hnew hset hfv hk
        obtain ⟨m', hm', hplenty'⟩ := hrest hgrew.space hplenty₂
        refine ⟨m', (if_pos (not_pres.mp hp)).trans ?_, hplenty'⟩
        exact bind_eq_ok.mpr ⟨_, hnew, bind_eq_ok.mpr ⟨_, hset, hm'⟩⟩
    · rw [if_neg hlt]
      exact ⟨m, rfl, hplenty⟩

/-- **`mem_alloc`** returns when there is a frame for every page and table it needs. -/
theorem memAlloc_total {base size flags : U32} (hs : SpaceBelow b m H A) (hb : b ≤ 1023)
    (htop : base.toNat + size.toNat ≤ 4194304 * b)
    (hT : ∀ p, base.toNat / 4096 ≤ p → 4096 * p < base.toNat + size.toNat → p ∈ T)
    (hplenty : Plenty (m.missing T) m) :
    ∃ m', memAlloc m base size flags = .ok m' ∧ Plenty (m'.missing T) m' := by
  have hstop : (base + size).toNat = base.toNat + size.toNat := by
    rw [BitVec.toNat_add]
    omega
  refine memAllocLoop_total hb (by omega) hs ?_ ?_ (fun p hlo hhi => hT p ?_ (by omega)) hplenty
  · rw [pageBase_toNat]
    exact dvd_mul_left 4096 _
  · omega
  · rw [pageBase_toNat] at hlo
    omega

end Total

end Pinion
