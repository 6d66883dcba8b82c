/-
Who owns the frames of the paging contexts.

A frame that a caller got from `frame_new` is held, mapped or not.  Directories and user
tables belong to one context and have one reference.

* `Mem.MapsAt` — a word of a table maps a frame;
* `Ledger m D₀ ρ` — user pages map held frames, each one page, and the tables above them map
  frames that no call on contexts takes or gives back;
* `Ledger.carry` — what has to be seen to for another memory;
* `Ledger.new`, `Ledger.share`, `Ledger.give`, `Ledger.load`, `Ledger.set`, `Ledger.clone`,
  `Ledger.free` — one lemma per operation.
-/
import Pinion.Directories
import Pinion.FreeSpace

open Runs

namespace Pinion

/-! ### Mapped frames -/

/-- Word `j` of the table of entry `e` maps the frame `g`. -/
def Mem.MapsAt (m : Mem) (S : BitVec 20) (e j : BitVec 10) (g : BitVec 20) : Prop :=
  Pres (m.phys S e) ∧ Pres (m.kword S e j) ∧ frameNo (m.kword S e j) = g

/-- A user page of a live context maps the frame. -/
def Mem.UserMapped (m : Mem) (D₀ g : BitVec 20) : Prop :=
  ∃ c, m.LiveSpace c ∧ ∃ e j : BitVec 10, e.toNat < 768 ∧ m.MapsAt (m.ctxDir D₀ c) e j g

/-- The word that shows a new directory while it is filled, and still does afterwards. -/
def Window (e j : BitVec 10) : Prop := e = pdx TMP_SRC ∧ j = ptx TMP_SRC

/-- A frame that no call on contexts takes or gives back.  The boot frames, which the kernel
maps all of, are not taken as long as there are others. -/
def Aside (ρ : BitVec 20 → Role) (g : BitVec 20) : Prop :=
  (ρ g = .avail → g.toNat < 0x800) ∧ ρ g ≠ .held ∧
    ∀ p, ρ g ≠ .dir (some p) ∧ ρ g ≠ .utab (some p)

structure Ledger (m : Mem) (D₀ : BitVec 20) (ρ : BitVec 20 → Role) : Prop where
  dirs : Dirs m D₀ ρ
  window : Pres (m.phys D₀ 1020)
  apart : ∀ c, m.LiveSpace c → m.TabsApart (m.ctxDir D₀ c)
  leaf : ∀ c, m.LiveSpace c → ∀ e j g, e.toNat < 768 → m.MapsAt (m.ctxDir D₀ c) e j g →
    ρ g = .held ∨ c = none ∧ ρ g = .leaf none
  once : ∀ c c', m.LiveSpace c → m.LiveSpace c' → ∀ e e' j j' g, e.toNat < 768 →
    e'.toNat < 768 → m.MapsAt (m.ctxDir D₀ c) e j g → m.MapsAt (m.ctxDir D₀ c') e' j' g →
      ρ g = .held → c = c' ∧ e = e' ∧ j = j'
  sys : ∀ c, m.LiveSpace c → ∀ e j g, 768 ≤ e.toNat → e.toNat < 1022 → ¬Window e j →
    m.MapsAt (m.ctxDir D₀ c) e j g → Aside ρ g
  dirRef : ∀ p, m.pctxTable p ≠ 0 → m.refs (frameNo (m.pctxTable p)) = 1
  tabRef : ∀ p, m.pctxTable p ≠ 0 → ∀ T, m.UserTab (frameNo (m.pctxTable p)) T → m.refs T = 1
  heldRef : ∀ g, ρ g = .held → 0 < m.refs g

section Carry

variable {m m' : Mem} {D₀ : BitVec 20} {ρ ρ' : BitVec 20 → Role}

theorem userLeaf_iff {S g : BitVec 20} :
    m.UserLeaf S g ↔ ∃ e j : BitVec 10, e.toNat < 768 ∧ m.MapsAt S e j g := by
  constructor
  · rintro ⟨T, j, ⟨e, he, hp, rfl⟩, hpj, hg⟩
    exact ⟨e, j, he, hp, hpj, hg⟩
  · rintro ⟨e, j, he, hp, hpj, hg⟩
    exact ⟨_, j, ⟨e, he, hp, rfl⟩, hpj, hg⟩

theorem Dirs.dir_role (h : Dirs m D₀ ρ) {p : ℕ} (hp : m.pctxTable p ≠ 0) :
    ρ (frameNo (m.pctxTable p)) = .dir (some p) := h.dir (some p) hp

theorem Dirs.utab_role (h : Dirs m D₀ ρ) {p : ℕ} (hp : m.pctxTable p ≠ 0) {T : BitVec 20}
    (hT : m.UserTab (frameNo (m.pctxTable p)) T) : ρ T = .utab (some p) := by
  obtain ⟨e, he, hpe, rfl⟩ := hT
  exact h.utab (some p) hp e he hpe

/-- Another memory: its user pages map what they mapped, its tables above them what those of
some context did, and the roles of these frames are the same. -/
theorem Ledger.carry (h : Ledger m D₀ ρ) (hdirs : Dirs m' D₀ ρ') (hwin : Pres (m'.phys D₀ 1020))
    (hapart : ∀ c, m'.LiveSpace c → m'.TabsApart (m'.ctxDir D₀ c))
    (huser : ∀ c, m'.LiveSpace c → ∀ e j g, e.toNat < 768 → m'.MapsAt (m'.ctxDir D₀ c) e j g →
      m.LiveSpace c ∧ m.MapsAt (m.ctxDir D₀ c) e j g)
    (hsys : ∀ c, m'.LiveSpace c → ∀ e j g, 768 ≤ e.toNat → e.toNat < 1022 → ¬Window e j →
      m'.MapsAt (m'.ctxDir D₀ c) e j g → ∃ c₀, m.LiveSpace c₀ ∧ m.MapsAt (m.ctxDir D₀ c₀) e j g)
    (hρ : ∀ g, m'.UserMapped D₀ g ∨ Aside ρ g → ρ' g = ρ g)
    (hdir : ∀ p, m'.pctxTable p ≠ 0 → m'.refs (frameNo (m'.pctxTable p)) = 1)
    (htab : ∀ p, m'.pctxTable p ≠ 0 → ∀ T, m'.UserTab (frameNo (m'.pctxTable p)) T →
      m'.refs T = 1)
    (hheld : ∀ g, ρ' g = .held → 0 < m'.refs g) : Ledger m' D₀ ρ' := by
  refine ⟨hdirs, hwin, hapart, fun c hc e j g he hm => ?_,
    fun c c' hc hc' e e' j j' g he he' hm hm' hg => ?_, fun c hc e j g hlo hhi hw hm => ?_,
    hdir, htab, hheld⟩
  · obtain ⟨hc₀, hm₀⟩ := huser c hc e j g he hm
    rw [hρ g (Or.inl ⟨c, hc, e, j, he, hm⟩)]
    exact h.leaf c hc₀ e j g he hm₀
  · obtain ⟨hc₀, hm₀⟩ := huser c hc e j g he hm
    obtain ⟨hc₀', hm₀'⟩ := huser c' hc' e' j' g he' hm'
    rw [hρ g (Or.inl ⟨c, hc, e, j, he, hm⟩)] at hg
    exact h.once c c' hc₀ hc₀' e e' j j' g he he' hm₀ hm₀' hg
  · obtain ⟨c₀, hc₀, hm₀⟩ := hsys c hc e j g hlo hhi hw hm
    have hfix := h.sys c₀ hc₀ e j g hlo hhi hw hm₀
    unfold Aside
    rw [hρ g (Or.inr hfix)]
    exact hfix

/-- Steps outside the page tables. -/
theorem Ledger.outside (h : Ledger m D₀ ρ) (hdirs : Dirs m' D₀ ρ') (hphys : m'.phys = m.phys)
    (htable : m'.pctxTable = m.pctxTable)
    (hρ : ∀ g, m.UserMapped D₀ g ∨ Aside ρ g → ρ' g = ρ g)
    (hrefs : ∀ p g, ρ g = .dir (some p) ∨ ρ g = .utab (some p) → m'.refs g = m.refs g)
    (hheld : ∀ g, ρ' g = .held → 0 < m'.refs g) : Ledger m' D₀ ρ' := by
  have hlive := fun c => (liveSpace_congr D₀ htable c).1
  have hdir := fun c => (liveSpace_congr D₀ htable c).2
  have hmaps : ∀ S e j g, m'.MapsAt S e j g ↔ m.MapsAt S e j g := by
    intro S e j g
    simp only [Mem.MapsAt, Mem.kword, hphys]
  have huser : ∀ g, m'.UserMapped D₀ g ↔ m.UserMapped D₀ g := by
    intro g
    simp only [Mem.UserMapped, hlive, hdir, hmaps]
  refine h.carry hdirs (by rw [hphys]; exact h.window) (fun c hc => ?_)
    (fun c hc e j g he hm => ?_) (fun c hc e j g hlo hhi hw hm => ?_)
    (fun g hg => hρ g (hg.imp_left (huser g).mp)) (fun p hp => ?_) (fun p hp T hT => ?_) hheld
  · rw [hdir]
    unfold Mem.TabsApart
    rw [hphys]
    exact h.apart c ((hlive c).mp hc)
  · rw [hdir] at hm
    exact ⟨(hlive c).mp hc, (hmaps _ _ _ _).mp hm⟩
  · rw [hdir] at hm
    exact ⟨c, (hlive c).mp hc, (hmaps _ _ _ _).mp hm⟩
  · rw [htable] at hp ⊢
    rw [hrefs p _ (Or.inl (h.dirs.dir_role hp)), h.dirRef p hp]
  · rw [htable] at hp hT
    have hT' : m.UserTab (frameNo (m.pctxTable p)) T := by
      unfold Mem.UserTab at hT ⊢
      rw [hphys] at hT
      exact hT
    rw [hrefs p T (Or.inr (h.dirs.utab_role hp hT')), h.tabRef p hp T hT']

end Carry

/-! ### Frames -/

section Frames

variable {m m' : Mem} {D₀ : BitVec 20} {ρ : BitVec 20 → Role} {f : U32}

/-- A new frame is not one that is mapped. -/
theorem Ledger.mapped_ne (h : Ledger m D₀ ρ) {g t : BitVec 20}
    (hg : m.UserMapped D₀ g ∨ Aside ρ g) (ht : ρ t = .avail) (hhigh : 0x800 ≤ t.toNat) :
    g ≠ t := by
  rintro rfl
  rcases hg with ⟨c, hc, e, j, he, hm⟩ | hfix
  · rcases h.leaf c hc e j g he hm with hr | ⟨-, hr⟩ <;> rw [hr] at ht <;> cases ht
  · have hlow := hfix.1 ht
    omega

/-- **`frame_new`** gives its caller a frame. -/
theorem Ledger.new (h : Ledger m D₀ ρ) (hnew : frameNew m = .ok (f, m'))
    (hpool : m'.oomPool = m.oomPool) :
    ρ (frameNo f) = .avail ∧ Ledger m' D₀ (Function.update ρ (frameNo f) .held) := by
  obtain ⟨hf, hdirs⟩ := h.dirs.new hnew .held
  obtain ⟨-, hrefs⟩ := h.dirs.supply.take hnew hpool
  have hhigh := h.dirs.supply.take_high hnew hpool
  have hvars := frameNew_vars hnew
  refine ⟨hf, h.outside hdirs (frameNew_phys hnew) hvars.table (fun g hg => ?_)
    (fun p g hg => ?_) fun g hg => ?_⟩
  · exact Function.update_of_ne (h.mapped_ne hg hf hhigh) _ _
  · rw [hrefs, Function.update_of_ne]
    rintro rfl
    rcases hg with hg | hg <;> rw [hf] at hg <;> cases hg
  · rw [hrefs]
    by_cases hgf : g = frameNo f
    · rw [hgf, Function.update_self]
      exact Nat.one_pos
    · rw [Function.update_of_ne hgf] at hg ⊢
      exact h.heldRef g hg

/-- **`frame_ref`** of a frame that is held. -/
theorem Ledger.share (h : Ledger m D₀ ρ) (hf : ρ (frameNo f) = .held)
    (hmax : frameRefc m f ≠ .ok 0xFFFFFFFF) (href : frameRef m f = .ok m') : Ledger m' D₀ ρ := by
  obtain ⟨hsup, hrefs⟩ := h.dirs.supply.share (h.heldRef _ hf) hmax href
  obtain ⟨F, r, ht⟩ := h.dirs.supply.tracks
  obtain ⟨m₁, hm₁, -, hvars⟩ := ht.ref hmax
  cases href.symm.trans hm₁
  have hphys : m'.phys = m.phys := by
    rcases ht.inv.ref_cases f with ⟨-, hr, -⟩ | ⟨k, p, -, -, hr, -⟩ <;>
      cases href.symm.trans hr <;> rfl
  refine h.outside (h.dirs.congr hvars.cr3 hvars.table (fun c _ e _ => by rw [hphys])
    (fun _ _ _ _ => rfl) hsup) hphys hvars.table (fun _ _ => rfl) (fun p g hg => ?_) fun g hg => ?_
  · rw [hrefs, Function.update_of_ne]
    rintro rfl
    rcases hg with hg | hg <;> rw [hf] at hg <;> cases hg
  · rw [hrefs]
    by_cases hgf : g = frameNo f
    · rw [hgf, Function.update_self]
      omega
    · rw [Function.update_of_ne hgf]
      exact h.heldRef g hg

open Classical in
/-- **`frame_free`** of a frame that is held: the last reference only if no page maps it. -/
theorem Ledger.give (h : Ledger m D₀ ρ) (hf : ρ (frameNo f) = .held)
    (hlast : m.UserMapped D₀ (frameNo f) → 1 < m.refs (frameNo f))
    (hfree : frameFree m f = .ok m') :
    Ledger m' D₀ fun g => if g = frameNo f ∧ m'.refs g = 0 then .avail else ρ g := by
  have hrefs := h.dirs.supply.give hfree
  have hvars := frameFree_vars hfree
  have hphys := frameFree_phys h.dirs.supply hfree
  -- a frame that is mapped keeps a reference
  have hkeep : ∀ g, m.UserMapped D₀ g ∨ Aside ρ g → ¬(g = frameNo f ∧ m'.refs g = 0) := by
    rintro g hg ⟨rfl, hz⟩
    rcases hg with hu | hfix
    · have hgt := hlast hu
      rw [hrefs, lower_self] at hz
      omega
    · exact hfix.2.1 hf
  refine h.outside (h.dirs.congr hvars.cr3 hvars.table (fun c _ e _ => by rw [hphys])
    (fun c g hc hg => ?_) ?_) hphys hvars.table (fun g hg => if_neg (hkeep g hg))
    (fun p g hg => ?_) fun g hg => ?_
  · refine if_neg ?_
    rintro ⟨rfl, -⟩
    rcases hg with he | ⟨e, he, hp, hge⟩
    · rw [he, h.dirs.dir c hc] at hf
      cases hf
    · rw [← hge, h.dirs.table_role hc he hp] at hf
      exact tableRole_ne_held c e hf
  · refine (h.dirs.supply.free hfree).unused.mono ?_
    rintro g ⟨rfl | hg, hz⟩
    · exact if_pos ⟨rfl, hz⟩
    · rw [Set.mem_ofPred_eq] at hg ⊢
      split
      · rfl
      · exact hg
  · rw [hrefs, lower_of_ne]
    rintro rfl
    rcases hg with hg | hg <;> rw [hf] at hg <;> cases hg
  · split at hg
    · cases hg
    · rename_i hn
      rw [not_and_or] at hn
      by_cases hgf : g = frameNo f
      · have hnz := hn.resolve_left (fun hne => hne hgf)
        exact Nat.pos_of_ne_zero hnz
      · rw [hrefs, lower_of_ne hgf]
        exact h.heldRef g hg

/-- **`pctx_load`** of a live context. -/
theorem Ledger.load (h : Ledger m D₀ ρ) {p : ℕ} (hp : m.pctxTable p ≠ 0) (a : ℤ) :
    Ledger { m with cr3 := m.pctxTable p, activePctx := a } D₀ ρ := by
  have hrefs : Mem.refs { m with cr3 := m.pctxTable p, activePctx := a } = m.refs :=
    refs_same ⟨rfl, rfl, rfl, rfl, rfl, rfl⟩
  refine h.outside (h.dirs.load hp) rfl rfl (fun _ _ => rfl) (fun _ g _ => by rw [hrefs])
    fun g hg => ?_
  rw [hrefs]
  exact h.heldRef g hg

end Frames

/-! ### `page_set` -/

section Set

variable {m m' : Mem} {D₀ : BitVec 20} {ρ ρ' : BitVec 20 → Role} {page v : U32}

/-- `page_touch` maps nothing: a new table is empty. -/
theorem TouchStep.maps (hstep : TouchStep m m' ρ ρ' page) (h : Dirs m D₀ ρ) {c : Option ℕ}
    (hc : m.LiveSpace c) {e j : BitVec 10} {g : BitVec 20} (he : e.toNat < 1022)
    (hm : m'.MapsAt (m.ctxDir D₀ c) e j g) : m.MapsAt (m.ctxDir D₀ c) e j g := by
  by_cases hp : Pres (m.phys m.dir (pdx page))
  · rw [(hstep.same hp).1] at hm
    exact hm
  obtain ⟨hpe, hpj, hg⟩ := hm
  by_cases hnew : m.ctxDir D₀ c = m.dir ∧ e = pdx page
  · unfold Mem.kword at hpj
    rw [hnew.1, hnew.2, (hstep.fresh hp).2 j] at hpj
    exact absurd hpj not_pres_zero
  · have hentry : m'.phys (m.ctxDir D₀ c) e = m.phys (m.ctxDir D₀ c) e := by
      by_cases hd : m.ctxDir D₀ c = m.dir
      · rw [hd, hstep.dir e fun hep => hnew ⟨hd, hep⟩]
      · rw [hstep.frames _ (by rw [h.dir c hc]; simp) hd]
    rw [hentry] at hpe
    have hrole := h.table_role hc he hpe
    have hword : m'.kword (m.ctxDir D₀ c) e j = m.kword (m.ctxDir D₀ c) e j := by
      unfold Mem.kword
      rw [hentry, hstep.frames _ (by rw [hrole]; exact tableRole_ne_avail c e)]
      intro htd
      obtain ⟨c₁, hc₁, hd₁⟩ := h.cur
      rw [htd, hd₁, h.dir c₁ hc₁] at hrole
      exact tableRole_ne_dir c c₁ e hrole.symm
    rw [hword] at hpj hg
    exact ⟨hpe, hpj, hg⟩

/-- Another word of a table: a mapping is an old one or the new one. -/
theorem Dirs.poke_maps (h : Dirs m D₀ ρ) {T : BitVec 20} (hT : ∀ c, ρ T ≠ .dir c) {i : BitVec 10}
    {c : Option ℕ} (hc : m.LiveSpace c) {e j : BitVec 10} {g : BitVec 20} (he : e.toNat < 1022)
    (hm : (m.poke T i v).MapsAt (m.ctxDir D₀ c) e j g) :
    m.MapsAt (m.ctxDir D₀ c) e j g ∨ tableRole c e = ρ T ∧ Pres v ∧ frameNo v = g := by
  obtain ⟨hpe, hpj, hg⟩ := hm
  have hentry : (m.poke T i v).phys (m.ctxDir D₀ c) e = m.phys (m.ctxDir D₀ c) e := by
    refine poke_of_ne _ _ _ _ _ _ (Or.inl fun hdT => ?_)
    exact hT c (hdT ▸ h.dir c hc)
  rw [hentry] at hpe
  rw [Mem.kword, hentry] at hpj hg
  by_cases hat : frameNo (m.phys (m.ctxDir D₀ c) e) = T ∧ j = i
  · obtain ⟨rfl, rfl⟩ := hat
    rw [poke_self] at hpj hg
    exact Or.inr ⟨(h.table_role hc he hpe).symm, hpj, hg⟩
  · rw [poke_of_ne _ _ _ _ _ _ (not_and_or.mp hat)] at hpj hg
    exact Or.inl ⟨hpe, hpj, hg⟩

/-- An entry after `page_touch` is an old one or that of the new table. -/
theorem TouchStep.entry (hstep : TouchStep m m' ρ ρ' page) (h : Dirs m D₀ ρ) {c : Option ℕ}
    (hc : m.LiveSpace c) (e : BitVec 10) :
    m'.phys (m.ctxDir D₀ c) e = m.phys (m.ctxDir D₀ c) e ∨
      m.ctxDir D₀ c = m.dir ∧ e = pdx page ∧ ¬Pres (m.phys m.dir (pdx page)) := by
  by_cases hd : m.ctxDir D₀ c = m.dir
  · by_cases he : e = pdx page
    · by_cases hp : Pres (m.phys m.dir (pdx page))
      · rw [(hstep.same hp).1]
        exact Or.inl rfl
      · exact Or.inr ⟨hd, he, hp⟩
    · rw [hd, hstep.dir e he]
      exact Or.inl rfl
  · rw [hstep.frames _ (by rw [h.dir c hc]; simp) hd]
    exact Or.inl rfl

/-- No new table is one that was there. -/
theorem TouchStep.apart (hstep : TouchStep m m' ρ ρ' page) (h : Dirs m D₀ ρ) {c : Option ℕ}
    (hc : m.LiveSpace c) (hapart : m.TabsApart (m.ctxDir D₀ c)) :
    m'.TabsApart (m.ctxDir D₀ c) := by
  intro e e' he he' hp hp' heq
  -- an old entry names a frame that is in use
  have hold : ∀ {e}, e.toNat < 768 → Pres (m.phys (m.ctxDir D₀ c) e) →
      ρ (frameNo (m.phys (m.ctxDir D₀ c) e)) ≠ .avail := by
    intro e he hp
    rw [h.utab c hc e he hp]
    simp
  rcases hstep.entry h hc e with hs | ⟨hd, rfl, hn⟩ <;>
    rcases hstep.entry h hc e' with hs' | ⟨hd', rfl, hn'⟩
  · rw [hs] at hp heq
    rw [hs'] at hp' heq
    exact hapart e e' he he' hp hp' heq
  · rw [hs] at hp heq
    rw [hd'] at heq
    have hfree := (hstep.fresh hn').1
    rw [← heq, ← hd'] at hfree
    exact absurd hfree (hold he hp)
  · rw [hs'] at hp' heq
    rw [hd] at heq
    have hfree := (hstep.fresh hn).1
    rw [heq, ← hd] at hfree
    exact absurd hfree (hold he' hp')
  · rfl

/-- The counts after `page_touch` has made a table, above the boot frames. -/
theorem Dirs.touch_refs (h : Dirs m D₀ ρ) (hp : ¬Pres (m.phys m.dir (pdx page)))
    (ht : pageTouch m page = .ok m') (hpool : m'.oomPool = m.oomPool) :
    m'.refs = Function.update m.refs (frameNo (m'.phys m.dir (pdx page))) 1 ∧
      0x800 ≤ (frameNo (m'.phys m.dir (pdx page))).toNat := by
  have hself := h.selfMapped
  obtain ⟨f, m₁, hnew⟩ := pageTouch_new hself hp ht
  have hphys := frameNew_phys hnew
  have hcr3 := (frameNew_vars hnew).cr3
  have hdir : m₁.dir = m.dir := congrArg frameNo hcr3
  have hfd : frameNo f ≠ m.dir := by
    intro he
    obtain ⟨c, hc, hd⟩ := h.cur
    have hf := (h.new hnew .held).1
    rw [he, hd, h.dir c hc] at hf
    cases hf
  cases ht.symm.trans (hself.touch_absent hp hnew hphys hcr3 hfd)
  have hentry : frameNo ((m₁.touched page f).phys m.dir (pdx page)) = frameNo f := by
    rw [Mem.touched, fill_of_ne _ _ _ _ hfd.symm, hdir, poke_self]
    exact (touched_entry f).2
  rw [hentry, refs_same (show SameFrames m₁ (m₁.touched page f) from
    ⟨rfl, rfl, rfl, rfl, rfl, rfl⟩)]
  exact ⟨(h.supply.take hnew hpool).2, h.supply.take_high hnew hpool⟩

/-- **`page_touch`** of a user page. -/
theorem Ledger.touch (h : Ledger m D₀ ρ) (hpage : (pdx page).toNat < 768)
    (ht : pageTouch m page = .ok m') (hpool : m'.oomPool = m.oomPool) :
    ∃ ρ', Ledger m' D₀ ρ' ∧ TouchStep m m' ρ ρ' page := by
  obtain ⟨ρ', hdirs, hstep, hroles⟩ := h.dirs.touch_roles ht fun hlo => absurd hlo (by omega)
  refine ⟨ρ', ?_, hstep⟩
  have htable := hstep.vars.table
  have hlive := fun c => (liveSpace_congr D₀ htable c).1.mp
  have hdir := fun c => (liveSpace_congr D₀ htable c).2
  -- the frames that had a count keep it
  have hrefs : ∀ g, ρ g ≠ .avail → m'.refs g = m.refs g := by
    intro g hg
    by_cases hp : Pres (m.phys m.dir (pdx page))
    · rw [(hstep.same hp).1]
    · rw [(h.dirs.touch_refs hp ht hpool).1, Function.update_of_ne]
      rintro rfl
      exact hg (hstep.fresh hp).1
  refine h.carry hdirs ?_ (fun c hc => ?_) (fun c hc e j g he hm => ?_)
    (fun c hc e j g _ hhi _ hm => ?_) (fun g hg => ?_) (fun p hp => ?_)
    (fun p hp T hT => ?_) fun g hg => ?_
  · have hboot := hstep.entry h.dirs (c := none) trivial 1020
    rcases hboot with he | ⟨-, he, -⟩
    · rw [show m'.phys D₀ 1020 = m.phys D₀ 1020 from he]
      exact h.window
    · rw [← he] at hpage
      simp at hpage
  · rw [hdir]
    exact hstep.apart h.dirs (hlive c hc) (h.apart c (hlive c hc))
  · rw [hdir] at hm
    exact ⟨hlive c hc, hstep.maps h.dirs (hlive c hc) (by omega) hm⟩
  · rw [hdir] at hm
    exact ⟨c, hlive c hc, hstep.maps h.dirs (hlive c hc) hhi hm⟩
  · have hmapped : m.UserMapped D₀ g ∨ Aside ρ g := by
      refine hg.imp_left ?_
      rintro ⟨c, hc, e, j, he, hm⟩
      rw [hdir] at hm
      exact ⟨c, hlive c hc, e, j, he, hstep.maps h.dirs (hlive c hc) (by omega) hm⟩
    by_cases hp : Pres (m.phys m.dir (pdx page))
    · rw [(hstep.same hp).2]
    · exact hroles g (h.mapped_ne hmapped (hstep.fresh hp).1 (h.dirs.touch_refs hp ht hpool).2)
  · rw [htable] at hp ⊢
    rw [hrefs _ (by rw [h.dirs.dir_role hp]; simp), h.dirRef p hp]
  · rw [htable] at hp hT
    obtain ⟨e, he, hpe, rfl⟩ := hT
    rcases hstep.entry h.dirs (c := some p) hp e with hs | ⟨hd, rfl, hn⟩
    · rw [show m'.phys (frameNo (m.pctxTable p)) e = _ from hs] at hpe ⊢
      have hT : m.UserTab (frameNo (m.pctxTable p)) _ := ⟨e, he, hpe, rfl⟩
      have hkeep := hrefs _ (by rw [h.dirs.utab_role hp hT]; simp)
      exact hkeep.trans (h.tabRef p hp _ hT)
    · rw [(h.dirs.touch_refs hn ht hpool).1,
        show frameNo (m.pctxTable p) = m.dir from hd, Function.update_self]
  · by_cases hgt : g = frameNo (m'.phys m.dir (pdx page))
    · -- a new table is not held
      obtain ⟨c, hc, hd⟩ := hdirs.cur
      have hd' : m'.dir = m.dir := congrArg frameNo hstep.vars.cr3
      have hpres := hstep.pres
      rw [← hd', hd] at hpres hgt
      rw [hgt, hdirs.utab c hc _ hpage hpres] at hg
      cases hg
    · rw [hroles g hgt] at hg
      rw [hrefs g (by rw [hg]; simp)]
      exact h.heldRef g hg

/-- Another word for a user page whose segment has a table.  A frame it maps is held, and
no other page maps it. -/
theorem Ledger.poke (h : Ledger m D₀ ρ) (hpage : (pdx page).toNat < 768)
    (hp : Pres (m.phys m.dir (pdx page)))
    (hv : Pres v → ρ (frameNo v) = .held ∧ ∀ c, m.LiveSpace c → ∀ e j : BitVec 10,
      e.toNat < 768 → m.MapsAt (m.ctxDir D₀ c) e j (frameNo v) →
        m.ctxDir D₀ c = m.dir ∧ e = pdx page ∧ j = ptx page) :
    Ledger (m.poke (m.tab page) (ptx page) v) D₀ ρ := by
  obtain ⟨c₁, hc₁, hd₁⟩ := h.dirs.cur
  have hT : ρ (m.tab page) = .utab c₁ := by
    rw [Mem.tab, hd₁]
    rw [hd₁] at hp
    exact h.dirs.utab c₁ hc₁ _ hpage hp
  set m' := m.poke (m.tab page) (ptx page) v with hm'
  have hrefs : m'.refs = m.refs := refs_same ⟨rfl, rfl, rfl, rfl, rfl, rfl⟩
  have hentry : ∀ c, m.LiveSpace c → ∀ e, m'.phys (m.ctxDir D₀ c) e = m.phys (m.ctxDir D₀ c) e := by
    intro c hc e
    refine poke_of_ne _ _ _ _ _ _ (Or.inl fun he => ?_)
    rw [← he, h.dirs.dir c hc] at hT
    cases hT
  -- the one word that changes
  have hword : ∀ c, m.LiveSpace c → ∀ e j, e.toNat < 1022 → Pres (m.phys (m.ctxDir D₀ c) e) →
      ¬(m.ctxDir D₀ c = m.dir ∧ e = pdx page ∧ j = ptx page) →
      m'.kword (m.ctxDir D₀ c) e j = m.kword (m.ctxDir D₀ c) e j := by
    intro c hc e j he hpe hne
    unfold Mem.kword
    rw [hentry c hc]
    refine poke_of_ne _ _ _ _ _ _ (not_and_or.mp ?_)
    rintro ⟨hfe, hj⟩
    have hrole := h.dirs.table_role hc he hpe
    rw [hfe, hT] at hrole
    obtain ⟨rfl, hlt⟩ := tableRole_utab hrole.symm
    rw [Mem.tab, hd₁] at hfe
    rw [hd₁] at hp
    exact hne ⟨hd₁.symm, h.apart c hc e _ hlt hpage hpe hp hfe, hj⟩
  have hmaps : ∀ c, m.LiveSpace c → ∀ e j g, e.toNat < 1022 → m'.MapsAt (m.ctxDir D₀ c) e j g →
      (m.ctxDir D₀ c = m.dir ∧ e = pdx page ∧ j = ptx page) ∧ Pres v ∧ frameNo v = g ∨
        ¬(m.ctxDir D₀ c = m.dir ∧ e = pdx page ∧ j = ptx page) ∧
          m.MapsAt (m.ctxDir D₀ c) e j g := by
    rintro c hc e j g he ⟨hpe, hpj, hg⟩
    rw [hentry c hc] at hpe
    by_cases hat : m.ctxDir D₀ c = m.dir ∧ e = pdx page ∧ j = ptx page
    · have hvw : m'.kword (m.ctxDir D₀ c) e j = v := by
        unfold Mem.kword
        rw [hentry c hc, hat.1, hat.2.1, hat.2.2]
        exact poke_self _ _ _ _
      rw [hvw] at hpj hg
      exact Or.inl ⟨hat, hpj, hg⟩
    · rw [hword c hc e j he hpe hat] at hpj hg
      exact Or.inr ⟨hat, hpe, hpj, hg⟩
  have hdirs : Dirs m' D₀ ρ := h.dirs.poke (fun c => by rw [hT]; simp) _ _
  refine ⟨hdirs, ?_, fun c hc e e' he he' hpe hpe' heq => ?_, fun c hc e j g he hm => ?_,
    fun c c' hc hc' e e' j j' g he he' hm hm' hg => ?_, fun c hc e j g hlo hhi hw hm => ?_,
    fun p hpl => ?_, fun p hpl T hTab => ?_, fun g hg => ?_⟩
  · rw [show m'.phys D₀ 1020 = m.phys D₀ 1020 from hentry none trivial 1020]
    exact h.window
  · change Pres (m'.phys (m.ctxDir D₀ c) e) at hpe
    change Pres (m'.phys (m.ctxDir D₀ c) e') at hpe'
    change frameNo (m'.phys (m.ctxDir D₀ c) e) = frameNo (m'.phys (m.ctxDir D₀ c) e') at heq
    rw [hentry c hc] at hpe heq
    rw [hentry c hc] at hpe' heq
    exact h.apart c hc e e' he he' hpe hpe' heq
  · rcases hmaps c hc e j g (by omega) hm with ⟨-, hpv, rfl⟩ | ⟨-, hold⟩
    · exact Or.inl (hv hpv).1
    · exact h.leaf c hc e j g he hold
  · rcases hmaps c hc e j g (by omega) hm with ⟨⟨hd, rfl, rfl⟩, hpv, rfl⟩ | ⟨hne, hold⟩ <;>
      rcases hmaps c' hc' e' j' _ (by omega) hm' with ⟨⟨hd', rfl, rfl⟩, hpv', hg'⟩ | ⟨hne', hold'⟩
    · exact ⟨h.dirs.ctxDir_inj hc hc' (hd.trans hd'.symm), rfl, rfl⟩
    · exact absurd ((hv hpv).2 c' hc' e' j' he' hold') hne'
    · rw [← hg'] at hold
      exact absurd ((hv hpv').2 c hc e j he hold) hne
    · exact h.once c c' hc hc' e e' j j' g he he' hold hold' hg
  · rcases hmaps c hc e j g hhi hm with ⟨⟨-, rfl, -⟩, -⟩ | ⟨-, hold⟩
    · omega
    · exact h.sys c hc e j g hlo hhi hw hold
  · rw [hrefs]
    exact h.dirRef p hpl
  · obtain ⟨e, he, hpe, rfl⟩ := hTab
    change Pres (m'.phys (m.ctxDir D₀ (some p)) e) at hpe
    change m'.refs (frameNo (m'.phys (m.ctxDir D₀ (some p)) e)) = 1
    rw [hentry (some p) hpl] at hpe ⊢
    rw [hrefs]
    exact h.tabRef p hpl _ ⟨e, he, hpe, rfl⟩
  · rw [hrefs]
    exact h.heldRef g hg

/-- **`page_set`** of a user page. -/
theorem Ledger.set (h : Ledger m D₀ ρ) (hpage : (pdx page).toNat < 768)
    (hs : pageSet m page v = .ok m') (hpool : m'.oomPool = m.oomPool)
    (hv : Pres v → ρ (frameNo v) = .held ∧ ∀ c, m.LiveSpace c → ∀ e j : BitVec 10,
      e.toNat < 768 → m.MapsAt (m.ctxDir D₀ c) e j (frameNo v) →
        m.ctxDir D₀ c = m.dir ∧ e = pdx page ∧ j = ptx page) :
    ∃ ρ', Ledger m' D₀ ρ' ∧ ∀ g, ρ g ≠ .avail → ρ' g = ρ g := by
  obtain ⟨m₁, ht, rfl⟩ := pageSet_touch h.dirs hs fun hlo => absurd hlo (by omega)
  obtain ⟨ρ', h₁, hstep⟩ := h.touch hpage ht hpool
  have htable := hstep.vars.table
  have hd : m₁.dir = m.dir := congrArg frameNo hstep.vars.cr3
  have hpres : Pres (m₁.phys m₁.dir (pdx page)) := by
    rw [hd]
    exact hstep.pres
  refine ⟨ρ', h₁.poke hpage hpres fun hpv => ?_, hstep.roles⟩
  obtain ⟨hheld, honly⟩ := hv hpv
  refine ⟨?_, fun c hc e j he hm => ?_⟩
  · rw [hstep.roles _ (by rw [hheld]; simp)]
    exact hheld
  · have hold := liveSpace_congr D₀ htable c
    rw [hold.2] at hm ⊢
    rw [hd]
    exact honly c (hold.1.mp hc) e j he (hstep.maps h.dirs (hold.1.mp hc) (by omega) hm)

end Set

/-! ### Contexts -/

section Contexts

variable {m m₁ m' : Mem} {D₀ : BitVec 20} {ρ : BitVec 20 → Role} {f : U32}

/-- The words that `space_clone` leaves as they were. -/
theorem Dirs.cloned_phys (h : Dirs m D₀ ρ) (hk : Pres (m.phys D₀ 1020))
    (hnew : frameNew m = .ok (f, m₁)) {g : BitVec 20} {j : BitVec 10} (hg : ρ g ≠ .avail)
    (hd : g = m.dir → j ≠ 1022) (ht : ρ g = .ktab 1020 → j ≠ ptx TMP_SRC) :
    (m₁.cloned f).phys g j = m.phys g j := by
  obtain ⟨-, -, -, -, htab⟩ := h.cloneFrames hk hnew
  have hf := (h.new hnew .held).1
  have hphys := frameNew_phys hnew
  have hdir : m₁.dir = m.dir := congrArg frameNo (frameNew_vars hnew).cr3
  have htab₁ : m₁.tab TMP_SRC = m.tab TMP_SRC := by rw [Mem.tab, Mem.tab, hphys, hdir]
  have hgf : g ≠ frameNo f := by
    rintro rfl
    exact hg hf
  rw [Mem.cloned, fill_of_ne _ _ _ _ hgf, poke_of_ne, poke_of_ne, hphys]
  · rw [htab₁, ← not_and_or]
    rintro ⟨rfl, hj⟩
    exact ht htab hj
  · rw [← not_and_or]
    rintro ⟨hgd, hj⟩
    exact hd (hgd.trans hdir) hj

/-- The words of the contexts, seen from the entries, after `space_clone`. -/
theorem Dirs.cloned_word (h : Dirs m D₀ ρ) (hk : Pres (m.phys D₀ 1020))
    (hnew : frameNew m = .ok (f, m₁)) {c : Option ℕ} (hc : m.LiveSpace c) {e j : BitVec 10}
    (he : e.toNat < 1022) (hp : Pres (m.phys (m.ctxDir D₀ c) e)) (hw : ¬Window e j) :
    (m₁.cloned f).phys (frameNo (m.phys (m.ctxDir D₀ c) e)) j = m.kword (m.ctxDir D₀ c) e j := by
  have hrole := h.table_role hc he hp
  refine h.cloned_phys hk hnew ?_ (fun htd => ?_) fun hkt hj => ?_
  · rw [hrole]
    exact tableRole_ne_avail c e
  · obtain ⟨c₁, hc₁, hd₁⟩ := h.cur
    rw [htd, hd₁, h.dir c₁ hc₁] at hrole
    exact absurd hrole.symm (tableRole_ne_dir c c₁ e)
  · rw [hrole] at hkt
    have he₂ : e = 1020 := tableRole_ktab hkt
    exact hw ⟨he₂, hj⟩

theorem Dirs.cloned_entry (h : Dirs m D₀ ρ) (hk : Pres (m.phys D₀ 1020))
    (hnew : frameNew m = .ok (f, m₁)) {c : Option ℕ} (hc : m.LiveSpace c) {e : BitVec 10}
    (he : e.toNat < 1022) :
    (m₁.cloned f).phys (m.ctxDir D₀ c) e = m.phys (m.ctxDir D₀ c) e := by
  have hrole := h.dir c hc
  refine h.cloned_phys hk hnew (by rw [hrole]; simp) (fun _ he' => ?_) fun hkt => ?_
  · rw [he'] at he
    simp at he
  · rw [hrole] at hkt
    cases hkt

/-- **A cloned directory** becomes the context `i`. -/
theorem Ledger.clone (h : Ledger m D₀ ρ) {i : ℕ} (hi : m.pctxTable i = 0)
    (hc : spaceClone m = .ok (f, m')) (hpool : m'.oomPool = m.oomPool) :
    ρ (frameNo f) = .avail ∧ f ≠ 0 ∧ SameVars m m' ∧
      Ledger { m' with pctxTable := Function.update m'.pctxTable i f } D₀
        (Function.update ρ (frameNo f) (.dir (some i))) ∧
      m.refs (frameNo f) = 0 ∧ m'.refs = Function.update m.refs (frameNo f) 1 ∧
      ∀ e : BitVec 10, e.toNat < 768 → ¬Pres (m'.phys (frameNo f) e) := by
  obtain ⟨m₁, hnew⟩ := spaceClone_new hc
  cases hc.symm.trans (h.dirs.cloned_eq h.window hnew)
  have hvars := frameNew_vars hnew
  have hdirs := h.dirs.clone h.window hnew hi
  obtain ⟨hf, -⟩ := h.dirs.new hnew .held
  obtain ⟨hzero, hrefs⟩ := h.dirs.supply.take hnew hpool
  have hhigh := h.dirs.supply.take_high hnew hpool
  obtain ⟨-, -, -, hne⟩ := h.dirs.supply.new hnew
  obtain ⟨c₀, hc₀, hd₀⟩ := h.dirs.cur
  have hdir : m₁.dir = m.dir := congrArg frameNo hvars.cr3
  have hphys := frameNew_phys hnew
  have hrefs' : (m₁.cloned f).refs = Function.update m.refs (frameNo f) 1 := by
    rw [refs_same (show SameFrames m₁ (m₁.cloned f) from ⟨rfl, rfl, rfl, rfl, rfl, rfl⟩), hrefs]
  have hnewDir : ∀ e, (m₁.cloned f).phys (frameNo f) e = m₁.cloneDir f e := by
    intro e
    rw [Mem.cloned, fill_self]
  have hempty : ∀ e : BitVec 10, e.toNat < 768 → ¬Pres ((m₁.cloned f).phys (frameNo f) e) := by
    intro e he
    rw [hnewDir, Mem.cloneDir, if_pos he]
    exact not_pres_zero
  refine ⟨hf, hne, hvars.trans ⟨rfl, rfl, rfl, rfl, rfl, rfl, rfl⟩, ?_, hzero, hrefs', hempty⟩
  set m₂ : Mem := { m₁.cloned f with pctxTable := Function.update (m₁.cloned f).pctxTable i f }
    with hm₂
  have hsame : ∀ g, ρ g ≠ .avail → m₂.refs g = m.refs g := by
    intro g hg
    rw [show m₂.refs = (m₁.cloned f).refs from refs_same ⟨rfl, rfl, rfl, rfl, rfl, rfl⟩, hrefs',
      Function.update_of_ne]
    rintro rfl
    exact hg hf
  -- a context is the new one or an old one
  have hcases : ∀ c, m₂.LiveSpace c → (c = some i ∧ m₂.ctxDir D₀ c = frameNo f) ∨
      m.LiveSpace c ∧ m₂.ctxDir D₀ c = m.ctxDir D₀ c := by
    intro c hc
    rcases withCtx_live (m₁.cloned f) D₀ i f hc with ⟨he, -, hd⟩ | ⟨-, hc', hd⟩
    · exact Or.inl ⟨he, hd⟩
    · obtain ⟨hlive, hd'⟩ := liveSpace_congr D₀ hvars.table c
      exact Or.inr ⟨hlive.mp hc', hd.trans hd'⟩
  have hold : ∀ c, m.LiveSpace c → ∀ e j g, e.toNat < 1022 → ¬Window e j →
      m₂.MapsAt (m.ctxDir D₀ c) e j g → m.MapsAt (m.ctxDir D₀ c) e j g := by
    rintro c hc e j g he hw ⟨hpe, hpj, hg⟩
    have hentry : m₂.phys (m.ctxDir D₀ c) e = m.phys (m.ctxDir D₀ c) e :=
      h.dirs.cloned_entry h.window hnew hc he
    rw [hentry] at hpe
    have hword : m₂.kword (m.ctxDir D₀ c) e j = m.kword (m.ctxDir D₀ c) e j := by
      rw [Mem.kword, hentry]
      exact h.dirs.cloned_word h.window hnew hc he hpe hw
    rw [hword] at hpj hg
    exact ⟨hpe, hpj, hg⟩
  have huser : ∀ e j : BitVec 10, e.toNat < 768 → ¬Window e j := by
    rintro e j he ⟨rfl, -⟩
    rw [tmpSrc_pdx] at he
    simp at he
  have husers : ∀ c, m₂.LiveSpace c → ∀ e j g, e.toNat < 768 →
      m₂.MapsAt (m₂.ctxDir D₀ c) e j g → m.LiveSpace c ∧ m.MapsAt (m.ctxDir D₀ c) e j g := by
    intro c hc e j g he hm
    rcases hcases c hc with ⟨-, hd⟩ | ⟨hc', hd⟩
    · rw [hd] at hm
      exact absurd hm.1 (hempty e he)
    · rw [hd] at hm
      exact ⟨hc', hold c hc' e j g (by omega) (huser e j he) hm⟩
  refine h.carry hdirs ?_ (fun c hc => ?_) husers (fun c hc e j g hlo hhi hw hm => ?_)
    (fun g hg => ?_) (fun p hp => ?_) (fun p hp T hT => ?_) fun g hg => ?_
  · rw [show m₂.phys D₀ 1020 = m.phys D₀ 1020 from
      h.dirs.cloned_entry h.window hnew (c := none) trivial (by decide)]
    exact h.window
  · rcases hcases c hc with ⟨-, hd⟩ | ⟨hc', hd⟩
    · rw [hd]
      exact fun e e' he _ hp => absurd hp (hempty e he)
    · rw [hd]
      intro e e' he he' hp hp' heq
      have hentry : ∀ e : BitVec 10, e.toNat < 768 →
          m₂.phys (m.ctxDir D₀ c) e = m.phys (m.ctxDir D₀ c) e :=
        fun e he => h.dirs.cloned_entry h.window hnew hc' (by omega)
      rw [hentry e he] at hp heq
      rw [hentry e' he'] at hp' heq
      exact h.apart c hc' e e' he he' hp hp' heq
  · rcases hcases c hc with ⟨-, hd⟩ | ⟨hc', hd⟩
    · -- the new directory has the entries of the loaded one
      rw [hd] at hm
      refine ⟨c₀, hc₀, hold c₀ hc₀ e j g hhi hw ?_⟩
      have hcopy : m₂.phys (frameNo f) e = m₂.phys (m.ctxDir D₀ c₀) e := by
        rw [show m₂.phys (frameNo f) e = m₁.cloneDir f e from hnewDir e, Mem.cloneDir,
          if_neg (by omega), if_pos hhi, hphys, hdir, hd₀]
        exact (h.dirs.cloned_entry h.window hnew hc₀ hhi).symm
      obtain ⟨hpe, hpj, hg⟩ := hm
      unfold Mem.kword at hpj hg
      rw [hcopy] at hpe hpj hg
      exact ⟨hpe, hpj, hg⟩
    · rw [hd] at hm
      exact ⟨c, hc', hold c hc' e j g hhi hw hm⟩
  · refine Function.update_of_ne (h.mapped_ne (hg.imp_left ?_) hf hhigh) _ _
    rintro ⟨c, hc, e, j, he, hm⟩
    obtain ⟨hc', hm'⟩ := husers c hc e j g he hm
    exact ⟨c, hc', e, j, he, hm'⟩
  · rcases hcases (some p) hp with ⟨-, hd⟩ | ⟨hp', hd⟩
    · rw [show frameNo (m₂.pctxTable p) = frameNo f from hd,
        show m₂.refs = (m₁.cloned f).refs from refs_same ⟨rfl, rfl, rfl, rfl, rfl, rfl⟩, hrefs',
        Function.update_self]
    · rw [show frameNo (m₂.pctxTable p) = frameNo (m.pctxTable p) from hd,
        hsame _ (by rw [h.dirs.dir_role hp']; simp), h.dirRef p hp']
  · obtain ⟨e, he, hpe, hTe⟩ := hT
    rcases hcases (some p) hp with ⟨-, hd⟩ | ⟨hp', hd⟩
    · rw [show frameNo (m₂.pctxTable p) = frameNo f from hd] at hpe
      exact absurd hpe (hempty e he)
    · rw [show frameNo (m₂.pctxTable p) = frameNo (m.pctxTable p) from hd] at hpe hTe
      have hentry : m₂.phys (frameNo (m.pctxTable p)) e = m.phys (frameNo (m.pctxTable p)) e :=
        h.dirs.cloned_entry h.window hnew (c := some p) hp' (by omega)
      rw [hentry] at hpe hTe
      have hT' : m.UserTab (frameNo (m.pctxTable p)) T := ⟨e, he, hpe, hTe⟩
      have hkeep := hsame T (by rw [h.dirs.utab_role hp' hT']; simp)
      exact hkeep.trans (h.tabRef p hp' T hT')
  · have hgf : g ≠ frameNo f := by
      rintro rfl
      rw [Function.update_self] at hg
      cases hg
    rw [Function.update_of_ne hgf] at hg
    rw [hsame g (by rw [hg]; simp)]
    exact h.heldRef g hg

section Free

variable {p : ℕ}

/-- What a context maps is held. -/
theorem Ledger.leaf_held (h : Ledger m D₀ ρ) (hp : m.pctxTable p ≠ 0) {g : BitVec 20}
    (hg : m.UserLeaf (frameNo (m.pctxTable p)) g) : ρ g = .held := by
  obtain ⟨e, j, he, hm⟩ := userLeaf_iff.mp hg
  rcases h.leaf (some p) hp e j g he hm with hr | ⟨hn, -⟩
  · exact hr
  · cases hn

/-- The role of a frame that `space_free` gives back. -/
theorem Ledger.freed_role (h : Ledger m D₀ ρ) (hp : m.pctxTable p ≠ 0) {g : BitVec 20}
    (hg : g ∈ m.spaceFrames (frameNo (m.pctxTable p))) :
    ρ g = .held ∨ ρ g = .utab (some p) ∨ ρ g = .dir (some p) := by
  rcases hg with hl | ht | rfl
  · exact Or.inl (h.leaf_held hp hl)
  · exact Or.inr (Or.inl (h.dirs.utab_role hp ht))
  · exact Or.inr (Or.inr (h.dirs.dir_role hp))

/-- A context shares no frame of its user part, also while its directory is shown. -/
theorem Ledger.unshared (h : Ledger m D₀ ρ) (hp : m.pctxTable p ≠ 0)
    (hload : m.dir ≠ frameNo (m.pctxTable p)) :
    (m.poke m.dir 1022 (dirEntry (m.pctxTable p))).Unshared (frameNo (m.pctxTable p)) := by
  obtain ⟨hs, htab⟩ := h.dirs.shows hp hload
  set S := frameNo (m.pctxTable p) with hS
  set m₀ := m.poke m.dir 1022 (dirEntry (m.pctxTable p)) with hm₀
  have hentry : ∀ e, m₀.phys S e = m.phys S e := fun e =>
    poke_of_ne _ _ _ _ _ _ (Or.inl hload.symm)
  have hmaps : ∀ e j g, e.toNat < 768 → m₀.MapsAt S e j g → m.MapsAt S e j g := by
    rintro e j g he ⟨hpe, hpj, hg⟩
    have hne : frameNo (m.phys S e) ≠ m.dir := by
      have hT := (hs.tabNe _ ⟨e, he, hpe, rfl⟩).2
      rw [hentry] at hT
      exact hT
    rw [hentry] at hpe
    have hword : m₀.kword S e j = m.kword S e j := by
      rw [Mem.kword, hentry]
      exact poke_of_ne _ _ _ _ _ _ (Or.inl hne)
    rw [hword] at hpj hg
    exact ⟨hpe, hpj, hg⟩
  have hleaf : ∀ g, m₀.UserLeaf S g → ρ g = .held := by
    intro g hg
    obtain ⟨e, j, he, hm⟩ := userLeaf_iff.mp hg
    exact h.leaf_held hp (userLeaf_iff.mpr ⟨e, j, he, hmaps e j g he hm⟩)
  refine ⟨fun e e' he he' hpe hpe' heq => ?_, fun e e' j j' he he' hpe hpe' hpj hpj' heq => ?_,
    fun g hg => ⟨fun hT => ?_, fun hgS => ?_⟩, fun hT => ?_⟩
  · rw [hentry] at hpe hpe'
    rw [hentry, hentry] at heq
    exact h.apart (some p) hp e e' he he' hpe hpe' heq
  · have hm := hmaps e j _ he ⟨hpe, hpj, rfl⟩
    have hm' := hmaps e' j' _ he' ⟨hpe', hpj', heq.symm⟩
    have hheld := h.leaf_held hp (userLeaf_iff.mpr ⟨e, j, he, hm⟩)
    exact (h.once (some p) (some p) hp hp e e' j j' _ he he' hm hm' hheld).2
  · have hr := hleaf g hg
    rw [h.dirs.utab_role hp ((htab g).mp hT)] at hr
    cases hr
  · have hr := hleaf g hg
    rw [hgS, hS, h.dirs.dir_role hp] at hr
    cases hr
  · have hr := h.dirs.utab_role hp ((htab S).mp hT)
    rw [hS, h.dirs.dir_role hp] at hr
    cases hr

section Freed

variable {m₂ : Mem} {c : Option ℕ}

/-- The entries of the other contexts, once a context has been freed. -/
theorem Dirs.freed_entry (h : Dirs m D₀ ρ) (hp : m.pctxTable p ≠ 0)
    (hload : m.dir ≠ frameNo (m.pctxTable p))
    (hF : FreeingSpace (m.poke m.dir 1022 (dirEntry (m.pctxTable p))) (frameNo (m.pctxTable p))
      768 m₂) (hc : m.LiveSpace c) (hcp : c ≠ some p) {e : BitVec 10} (he : e.toNat < 1022) :
    m₂.phys (m.ctxDir D₀ c) e = m.phys (m.ctxDir D₀ c) e := by
  have hr := h.tableOf_other hc hcp (Or.inl rfl)
  rw [h.keptFrame hp hload hF hr.1 hr.2]
  refine poke_of_ne _ _ _ _ _ _ (Or.inr ?_)
  rintro rfl
  simp at he

/-- The words of their tables. -/
theorem Dirs.freed_word (h : Dirs m D₀ ρ) (hp : m.pctxTable p ≠ 0)
    (hload : m.dir ≠ frameNo (m.pctxTable p))
    (hF : FreeingSpace (m.poke m.dir 1022 (dirEntry (m.pctxTable p))) (frameNo (m.pctxTable p))
      768 m₂) (hc : m.LiveSpace c) (hcp : c ≠ some p) {e : BitVec 10} (he : e.toNat < 1022)
    (hpe : Pres (m.phys (m.ctxDir D₀ c) e)) (j : BitVec 10) :
    m₂.kword (m.ctxDir D₀ c) e j = m.kword (m.ctxDir D₀ c) e j := by
  have hr := h.tableOf_other hc hcp (Or.inr ⟨e, he, hpe, rfl⟩)
  rw [Mem.kword, h.freed_entry hp hload hF hc hcp he, h.keptFrame hp hload hF hr.1 hr.2]
  refine poke_of_ne _ _ _ _ _ _ (Or.inl fun htd => ?_)
  -- no table is the directory that is loaded
  obtain ⟨c₁, hc₁, hd₁⟩ := h.cur
  have hrole := h.table_role hc he hpe
  rw [htd, hd₁, h.dir c₁ hc₁] at hrole
  exact tableRole_ne_dir c c₁ e hrole.symm

theorem Dirs.freed_maps (h : Dirs m D₀ ρ) (hp : m.pctxTable p ≠ 0)
    (hload : m.dir ≠ frameNo (m.pctxTable p))
    (hF : FreeingSpace (m.poke m.dir 1022 (dirEntry (m.pctxTable p))) (frameNo (m.pctxTable p))
      768 m₂) (hc : m.LiveSpace c) (hcp : c ≠ some p) {e j : BitVec 10} {g : BitVec 20}
    (he : e.toNat < 1022) (hm : m₂.MapsAt (m.ctxDir D₀ c) e j g) :
    m.MapsAt (m.ctxDir D₀ c) e j g := by
  obtain ⟨hpe, hpj, hg⟩ := hm
  rw [h.freed_entry hp hload hF hc hcp he] at hpe
  rw [h.freed_word hp hload hF hc hcp he hpe j] at hpj hg
  exact ⟨hpe, hpj, hg⟩

end Freed

open Classical in
/-- **`space_free`** of a context that is not loaded. -/
theorem Ledger.free (h : Ledger m D₀ ρ) (hp : m.pctxTable p ≠ 0)
    (hload : m.dir ≠ frameNo (m.pctxTable p)) :
    ∃ m₂, Released m m₂ (m.pctxTable p) (m.spaceFrames (frameNo (m.pctxTable p))) ∧
      SameVars m m₂ ∧ Ledger { m₂ with pctxTable := Function.update m₂.pctxTable p 0 } D₀
        fun g => if g ∈ m.spaceFrames (frameNo (m.pctxTable p)) ∧ m₂.refs g = 0 then .avail
          else ρ g := by
  set S := frameNo (m.pctxTable p) with hS
  set m₀ := m.poke m.dir 1022 (dirEntry (m.pctxTable p)) with hm₀
  obtain ⟨m₂, hF, hrel⟩ := spaceFree_refs h.dirs.selfMapped h.dirs.supply
    (h.dirs.shows hp hload).1 (h.unshared hp hload)
  rw [h.dirs.spaceFrames_eq hp hload] at hrel
  have hkeep := hrel.kept
  have hsame : SameFrames m m₀ := ⟨rfl, rfl, rfl, rfl, rfl, rfl⟩
  have hvars₀ : SameVars m m₀ := ⟨rfl, rfl, rfl, rfl, rfl, rfl, rfl⟩
  have hvars : SameVars m m₂ := hvars₀.trans hF.vars
  refine ⟨m₂, hrel, hvars, ?_⟩
  set m₃ : Mem := { m₂ with pctxTable := Function.update m₂.pctxTable p 0 } with hm₃
  have hrefs : m₃.refs = m₂.refs := refs_same ⟨rfl, rfl, rfl, rfl, rfl, rfl⟩
  have hleaf : ∀ g, m.UserLeaf S g → ∀ c, m.LiveSpace c → c ≠ some p → ¬m.TableOf D₀ c g := by
    rintro g hg c hc - hT
    have hheld := h.leaf_held hp hg
    rcases hT with rfl | ⟨e, he, hpe, rfl⟩
    · rw [h.dirs.dir c hc] at hheld
      cases hheld
    · rw [h.dirs.table_role hc he hpe] at hheld
      exact tableRole_ne_held c e hheld
  -- the contexts that are left
  have hcases : ∀ c, m₃.LiveSpace c → m.LiveSpace c ∧ c ≠ some p ∧
      m₃.ctxDir D₀ c = m.ctxDir D₀ c := by
    intro c hc
    rcases withCtx_live m₂ D₀ p 0 hc with ⟨-, hz, -⟩ | ⟨hne, hc', hd⟩
    · exact absurd rfl hz
    · obtain ⟨hlive, hd'⟩ := liveSpace_congr D₀ hvars.table c
      exact ⟨hlive.mp hc', hne, hd.trans hd'⟩
  have hmaps := fun {c} (hc : m.LiveSpace c) hcp {e j} {g} =>
    h.dirs.freed_maps hp hload hF (c := c) hc hcp (e := e) (j := j) (g := g)
  have hentries := fun {c} (hc : m.LiveSpace c) hcp {e} =>
    h.dirs.freed_entry hp hload hF (c := c) hc hcp (e := e)
  have husers : ∀ c, m₃.LiveSpace c → ∀ e j g, e.toNat < 768 → m₃.MapsAt (m₃.ctxDir D₀ c) e j g →
      m.LiveSpace c ∧ c ≠ some p ∧ m.MapsAt (m.ctxDir D₀ c) e j g := by
    intro c hc e j g he hm
    obtain ⟨hc', hcp, hd⟩ := hcases c hc
    rw [hd] at hm
    exact ⟨hc', hcp, hmaps hc' hcp (by omega) hm⟩
  -- a frame of the context is mapped by no other one
  have hout : ∀ g, m₃.UserMapped D₀ g ∨ Aside ρ g → g ∉ m.spaceFrames S := by
    rintro g (⟨c, hc, e, j, he, hm⟩ | hfix) hg
    · obtain ⟨hc', hcp, hm'⟩ := husers c hc e j g he hm
      have hr := h.leaf c hc' e j g he hm'
      rcases hg with hl | ht | rfl
      · obtain ⟨e', j', he', hm''⟩ := userLeaf_iff.mp hl
        exact hcp (h.once c (some p) hc' hp e e' j j' g he he' hm' hm'' (h.leaf_held hp hl)).1
      · rw [h.dirs.utab_role hp ht] at hr
        rcases hr with hr | ⟨-, hr⟩ <;> cases hr
      · rw [hS, h.dirs.dir_role hp] at hr
        rcases hr with hr | ⟨-, hr⟩ <;> cases hr
    · rcases h.freed_role hp hg with hr | hr | hr
      · exact hfix.2.1 hr
      · exact (hfix.2.2 p).2 hr
      · exact (hfix.2.2 p).1 hr
  have hkept : ∀ q g, q ≠ p → ρ g = .dir (some q) ∨ ρ g = .utab (some q) →
      m₂.refs g = m.refs g := by
    intro q g hqp hg
    refine hkeep g fun hin => ?_
    rcases h.freed_role hp hin with hr | hr | hr <;> rcases hg with hg | hg <;> rw [hr] at hg <;>
      cases hg <;> exact hqp rfl
  refine h.carry (h.dirs.freed hp hload hleaf hF (fun g hg => if_neg fun hand => hg hand.1) ?_) ?_
    (fun c hc => ?_) (fun c hc e j g he hm => ?_) (fun c hc e j g hlo hhi hw hm => ?_)
    (fun g hg => if_neg fun hand => hout g hg hand.1) (fun q hq => ?_) (fun q hq T hT => ?_)
    fun g hg => ?_
  · have hsup := (hF.frees.supply (h.dirs.supply.same hsame)).unused
    rw [h.dirs.spaceFrames_eq hp hload] at hsup
    refine hsup.mono ?_
    rintro g ⟨hg | hg, hz⟩
    · rw [Set.mem_ofPred_eq] at hg ⊢
      split
      · rfl
      · exact hg
    · exact if_pos ⟨hg, hz⟩
  · rw [show m₃.phys D₀ 1020 = m.phys D₀ 1020 from
      hentries (c := none) trivial (by simp) (by decide)]
    exact h.window
  · obtain ⟨hc', hcp, hd⟩ := hcases c hc
    rw [hd]
    intro e e' he he' hpe hpe' heq
    have hentry : ∀ e : BitVec 10, e.toNat < 768 →
        m₃.phys (m.ctxDir D₀ c) e = m.phys (m.ctxDir D₀ c) e :=
      fun e he => hentries hc' hcp (by omega)
    rw [hentry e he] at hpe heq
    rw [hentry e' he'] at hpe' heq
    exact h.apart c hc' e e' he he' hpe hpe' heq
  · obtain ⟨hc', -, hm'⟩ := husers c hc e j g he hm
    exact ⟨hc', hm'⟩
  · obtain ⟨hc', hcp, hd⟩ := hcases c hc
    rw [hd] at hm
    exact ⟨c, hc', hmaps hc' hcp hhi hm⟩
  · obtain ⟨hq', hqp, hd⟩ := hcases (some q) hq
    have hne : q ≠ p := fun he => hqp (congrArg some he)
    rw [show frameNo (m₃.pctxTable q) = frameNo (m.pctxTable q) from hd, hrefs,
      hkept q _ hne (Or.inl (h.dirs.dir_role hq')), h.dirRef q hq']
  · obtain ⟨hq', hqp, hd⟩ := hcases (some q) hq
    have hne : q ≠ p := fun he => hqp (congrArg some he)
    obtain ⟨e, he, hpe, hTe⟩ := hT
    rw [show frameNo (m₃.pctxTable q) = frameNo (m.pctxTable q) from hd] at hpe hTe
    have hentry : m₃.phys (frameNo (m.pctxTable q)) e = m.phys (frameNo (m.pctxTable q)) e :=
      hentries (c := some q) hq' hqp (by omega)
    rw [hentry] at hpe hTe
    have hT' : m.UserTab (frameNo (m.pctxTable q)) T := ⟨e, he, hpe, hTe⟩
    rw [hrefs, hkept q T hne (Or.inr (h.dirs.utab_role hq' hT')), h.tabRef q hq' T hT']
  · rw [hrefs]
    split at hg
    · cases hg
    · rename_i hn
      by_cases hin : g ∈ m.spaceFrames S
      · exact Nat.pos_of_ne_zero fun hz => hn ⟨hin, hz⟩
      · rw [hkeep g hin]
        exact h.heldRef g hg

end Free

end Contexts

end Pinion
