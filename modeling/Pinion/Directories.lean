/-
The directories of all paging contexts.

The boot context and the live entries of the context table each have a directory.  A
ghost map of roles says what every frame is used for, so that frames with different uses
are different frames.

* `Dirs m D₀ ρ` — every directory names itself and shares the kernel tables of the boot
  directory, and no frame in use can be allocated;
* `Dirs.touch`, `Dirs.set` — `page_touch` and `page_set` below `TMP_MAP`;
* `Dirs.clone`, `Dirs.freeSpace`, `Dirs.load` — the operations on contexts.
-/
import Pinion.Spaces

open Runs

namespace Pinion

/-! ### Contexts and roles -/

/-- The boot context, or an entry of the context table in use. -/
def Mem.LiveSpace (m : Mem) : Option ℕ → Prop
  | none => True
  | some p => m.pctxTable p ≠ 0

/-- The directory of a context. -/
def Mem.ctxDir (m : Mem) (D₀ : BitVec 20) : Option ℕ → BitVec 20
  | none => D₀
  | some p => frameNo (m.pctxTable p)

/-- What a frame is used for. -/
inductive Role
  | avail
  | other
  /-- Allocated, and not mapped yet. -/
  | held
  | dir (c : Option ℕ)
  | ktab (e : BitVec 10)
  | stab
  | utab (c : Option ℕ)
  /-- Mapped in the user part of a context. -/
  | leaf (c : Option ℕ)
  /-- Mapped in the heap. -/
  | heap (page : ℕ)
  deriving DecidableEq

/-- The directory and the page tables of a context. -/
def Mem.TableOf (m : Mem) (D₀ : BitVec 20) (c : Option ℕ) (f : BitVec 20) : Prop :=
  f = m.ctxDir D₀ c ∨ ∃ e : BitVec 10, e.toNat < 1022 ∧ Pres (m.phys (m.ctxDir D₀ c) e) ∧
    frameNo (m.phys (m.ctxDir D₀ c) e) = f

structure Dirs (m : Mem) (D₀ : BitVec 20) (ρ : BitVec 20 → Role) : Prop where
  cur : ∃ c, m.LiveSpace c ∧ m.dir = m.ctxDir D₀ c
  dir : ∀ c, m.LiveSpace c → ρ (m.ctxDir D₀ c) = .dir c
  selfPres : ∀ c, m.LiveSpace c → Pres (m.phys (m.ctxDir D₀ c) 1023)
  self : ∀ c, m.LiveSpace c → frameNo (m.phys (m.ctxDir D₀ c) 1023) = m.ctxDir D₀ c
  kern : ∀ c, m.LiveSpace c → ∀ e : BitVec 10, 960 ≤ e.toNat → e.toNat < 1022 →
    m.phys (m.ctxDir D₀ c) e = m.phys D₀ e
  ktab : ∀ e : BitVec 10, 960 ≤ e.toNat → e.toNat < 1022 → Pres (m.phys D₀ e) →
    Rw (m.phys D₀ e) ∧ ρ (frameNo (m.phys D₀ e)) = .ktab e
  stab : ∀ c, m.LiveSpace c → ∀ e : BitVec 10, 768 ≤ e.toNat → e.toNat < 960 →
    Pres (m.phys (m.ctxDir D₀ c) e) → ρ (frameNo (m.phys (m.ctxDir D₀ c) e)) = .stab
  utab : ∀ c, m.LiveSpace c → ∀ e : BitVec 10, e.toNat < 768 →
    Pres (m.phys (m.ctxDir D₀ c) e) → ρ (frameNo (m.phys (m.ctxDir D₀ c) e)) = .utab c
  supply : Supply m {f | ρ f = .avail}

variable {m m' : Mem} {D₀ : BitVec 20} {ρ ρ' : BitVec 20 → Role}

theorem Dirs.selfMapped (h : Dirs m D₀ ρ) : SelfMapped m := by
  obtain ⟨c, hc, hd⟩ := h.cur
  exact ⟨hd ▸ h.selfPres c hc, hd ▸ h.self c hc⟩

/-- The contexts are read off from the table. -/
theorem liveSpace_congr (D₀ : BitVec 20) (htable : m'.pctxTable = m.pctxTable) (c : Option ℕ) :
    (m'.LiveSpace c ↔ m.LiveSpace c) ∧ m'.ctxDir D₀ c = m.ctxDir D₀ c := by
  cases c with
  | none => exact ⟨Iff.rfl, rfl⟩
  | some p => simp only [Mem.LiveSpace, Mem.ctxDir, htable, and_self]

/-- The directories are read at every entry but the one for temporary mappings. -/
theorem Dirs.congr (h : Dirs m D₀ ρ) (hcr3 : m'.cr3 = m.cr3) (htable : m'.pctxTable = m.pctxTable)
    (hphys : ∀ c, m.LiveSpace c → ∀ e, e ≠ 1022 →
      m'.phys (m.ctxDir D₀ c) e = m.phys (m.ctxDir D₀ c) e)
    (hρ : ∀ c f, m.LiveSpace c → m.TableOf D₀ c f → ρ' f = ρ f)
    (hA : Supply m' {f | ρ' f = .avail}) : Dirs m' D₀ ρ' := by
  have hlive := fun c => (liveSpace_congr D₀ htable c).1
  have hdir := fun c => (liveSpace_congr D₀ htable c).2
  have hcur : m'.dir = m.dir := congrArg frameNo hcr3
  have hlt : ∀ {e : BitVec 10}, e.toNat < 1022 → e ≠ 1022 := by
    rintro e he rfl
    simp at he
  have hboot : ∀ e, e ≠ 1022 → m'.phys D₀ e = m.phys D₀ e := hphys none trivial
  refine ⟨?_, fun c hc => ?_, fun c hc => ?_, fun c hc => ?_, fun c hc e hlo hhi => ?_,
    fun e hlo hhi hp => ?_, fun c hc e hlo hhi hp => ?_, fun c hc e hlo hp => ?_, hA⟩
  · obtain ⟨c, hc, hd⟩ := h.cur
    exact ⟨c, (hlive c).mpr hc, by rw [hcur, hdir]; exact hd⟩
  · rw [hdir, hρ c _ ((hlive c).mp hc) (Or.inl rfl)]
    exact h.dir c ((hlive c).mp hc)
  · rw [hdir, hphys c ((hlive c).mp hc) _ (by decide)]
    exact h.selfPres c ((hlive c).mp hc)
  · rw [hdir, hphys c ((hlive c).mp hc) _ (by decide)]
    exact h.self c ((hlive c).mp hc)
  · rw [hdir, hphys c ((hlive c).mp hc) e (hlt hhi), hboot e (hlt hhi)]
    exact h.kern c ((hlive c).mp hc) e hlo hhi
  · rw [hboot e (hlt hhi)] at hp ⊢
    have hr : ρ' (frameNo (m.phys D₀ e)) = ρ (frameNo (m.phys D₀ e)) :=
      hρ none _ trivial (Or.inr ⟨e, hhi, hp, rfl⟩)
    rw [hr]
    exact h.ktab e hlo hhi hp
  · rw [hdir, hphys c ((hlive c).mp hc) e (hlt (by omega))] at hp ⊢
    rw [hρ c _ ((hlive c).mp hc) (Or.inr ⟨e, by omega, hp, rfl⟩)]
    exact h.stab c ((hlive c).mp hc) e hlo hhi hp
  · rw [hdir, hphys c ((hlive c).mp hc) e (hlt (by omega))] at hp ⊢
    rw [hρ c _ ((hlive c).mp hc) (Or.inr ⟨e, by omega, hp, rfl⟩)]
    exact h.utab c ((hlive c).mp hc) e hlo hp

/-- The role of the table of an entry. -/
def tableRole (c : Option ℕ) (e : BitVec 10) : Role :=
  if e.toNat < 768 then .utab c
  else if e.toNat < 960 then .stab
  else if e.toNat < 1022 then .ktab e
  else .other

/-- A role that no table has. -/
theorem tableRole_ne (c : Option ℕ) (e : BitVec 10) {r : Role} (hu : ∀ c, r ≠ .utab c)
    (hs : r ≠ .stab) (hk : ∀ e, r ≠ .ktab e) (ho : r ≠ .other) : tableRole c e ≠ r := by
  unfold tableRole
  split
  · exact (hu c).symm
  · split
    · exact hs.symm
    · split
      · exact (hk e).symm
      · exact ho.symm

theorem tableRole_ne_dir (c c' : Option ℕ) (e : BitVec 10) : tableRole c e ≠ .dir c' :=
  tableRole_ne c e (by simp) (by simp) (by simp) (by simp)

theorem tableRole_ne_leaf (c c' : Option ℕ) (e : BitVec 10) : tableRole c e ≠ .leaf c' :=
  tableRole_ne c e (by simp) (by simp) (by simp) (by simp)

theorem tableRole_ne_avail (c : Option ℕ) (e : BitVec 10) : tableRole c e ≠ .avail :=
  tableRole_ne c e (by simp) (by simp) (by simp) (by simp)

theorem tableRole_ne_held (c : Option ℕ) (e : BitVec 10) : tableRole c e ≠ .held :=
  tableRole_ne c e (by simp) (by simp) (by simp) (by simp)

theorem tableRole_ne_other (c : Option ℕ) {e : BitVec 10} (he : e.toNat < 1022) :
    tableRole c e ≠ .other := by
  unfold tableRole
  split
  · simp
  · split
    · simp
    · simp

theorem tableRole_ktab {c : Option ℕ} {e e' : BitVec 10} (h : tableRole c e = .ktab e') :
    e = e' := by
  unfold tableRole at h
  split at h
  · cases h
  · split at h
    · cases h
    · split at h
      · exact Role.ktab.inj h
      · cases h

theorem Dirs.table_role (h : Dirs m D₀ ρ) {c : Option ℕ} (hc : m.LiveSpace c) {e : BitVec 10}
    (he : e.toNat < 1022) (hp : Pres (m.phys (m.ctxDir D₀ c) e)) :
    ρ (frameNo (m.phys (m.ctxDir D₀ c) e)) = tableRole c e := by
  unfold tableRole
  by_cases hu : e.toNat < 768
  · rw [if_pos hu]
    exact h.utab c hc e hu hp
  · rw [if_neg hu]
    by_cases hs : e.toNat < 960
    · rw [if_pos hs]
      exact h.stab c hc e (by omega) hs hp
    · rw [if_neg hs, if_pos he]
      have hk := h.kern c hc e (by omega) he
      rw [hk] at hp ⊢
      exact (h.ktab e (by omega) he hp).2

/-- A directory or a table in use cannot be allocated. -/
theorem Dirs.tableOf_role (h : Dirs m D₀ ρ) {c : Option ℕ} {f : BitVec 20} (hc : m.LiveSpace c)
    (hf : m.TableOf D₀ c f) : ρ f ≠ .avail := by
  rcases hf with rfl | ⟨e, he, hp, rfl⟩
  · rw [h.dir c hc]
    simp
  · rw [h.table_role hc he hp]
    exact tableRole_ne_avail c e

/-- A word of a frame that is no directory. -/
theorem Dirs.poke (h : Dirs m D₀ ρ) {g : BitVec 20} (hg : ∀ c, ρ g ≠ .dir c) (j : BitVec 10)
    (w : U32) : Dirs (m.poke g j w) D₀ ρ := by
  refine h.congr rfl rfl (fun c hc e _ => ?_) (fun _ _ _ _ => rfl)
    (h.supply.same ⟨rfl, rfl, rfl, rfl, rfl, rfl⟩)
  refine poke_of_ne _ _ _ _ _ _ (Or.inl ?_)
  rintro rfl
  exact hg c (h.dir c hc)

/-- A new frame gets any role. -/
theorem Dirs.new (h : Dirs m D₀ ρ) {f : U32} (hnew : frameNew m = .ok (f, m')) (r : Role) :
    ρ (frameNo f) = .avail ∧ Dirs m' D₀ (Function.update ρ (frameNo f) r) := by
  obtain ⟨hf, hA, -, -⟩ := h.supply.new hnew
  have hvars := frameNew_vars hnew
  refine ⟨hf, h.congr hvars.cr3 hvars.table (fun c _ e _ => by rw [frameNew_phys hnew])
    (fun c g hc hg => Function.update_of_ne ?_ _ _) (hA.mono ?_)⟩
  · rintro rfl
    exact h.tableOf_role hc hg hf
  · rintro g ⟨hg, hgf⟩
    rw [Set.mem_ofPred_eq, Function.update_of_ne hgf]
    exact hg

/-- Another contents for a frame that is no directory. -/
theorem Dirs.fill (h : Dirs m D₀ ρ) {g : BitVec 20} (hg : ∀ c, ρ g ≠ .dir c)
    (w : BitVec 10 → U32) : Dirs (m.fill g w) D₀ ρ := by
  refine h.congr rfl rfl (fun c hc e _ => ?_) (fun _ _ _ _ => rfl)
    (h.supply.same ⟨rfl, rfl, rfl, rfl, rfl, rfl⟩)
  rw [fill_of_ne]
  rintro rfl
  exact hg c (h.dir c hc)

/-- Different contexts have different directories. -/
theorem Dirs.ctxDir_inj (h : Dirs m D₀ ρ) {c c' : Option ℕ} (hc : m.LiveSpace c)
    (hc' : m.LiveSpace c') (he : m.ctxDir D₀ c = m.ctxDir D₀ c') : c = c' := by
  have hr := h.dir c hc
  rw [he, h.dir c' hc'] at hr
  cases hr
  rfl

/-- The directory entry of a new table; one for the kernel only while the boot context is
the only one. -/
theorem Dirs.setEntry (h : Dirs m D₀ ρ) {c : Option ℕ} (hc : m.LiveSpace c) {e : BitVec 10}
    {w : U32}
    (he : e ≠ 1023)
    (hk : 960 ≤ e.toNat → e.toNat < 1022 →
      (∀ p, m.pctxTable p = 0) ∧ Rw w ∧ ρ (frameNo w) = .ktab e)
    (hs : 768 ≤ e.toNat → e.toNat < 960 → ρ (frameNo w) = .stab)
    (hu : e.toNat < 768 → ρ (frameNo w) = .utab c) :
    Dirs (m.poke (m.ctxDir D₀ c) e w) D₀ ρ := by
  have hat : ∀ c', m.LiveSpace c' → ∀ k, (m.poke (m.ctxDir D₀ c) e w).phys (m.ctxDir D₀ c') k =
      if c' = c ∧ k = e then w else m.phys (m.ctxDir D₀ c') k := by
    intro c' hc' k
    by_cases hck : c' = c ∧ k = e
    · rw [if_pos hck, hck.1, hck.2, poke_self]
    · rw [if_neg hck]
      refine poke_of_ne _ _ _ _ _ _ ?_
      rcases not_and_or.mp hck with hne | hne
      · exact Or.inl fun hd => hne (h.ctxDir_inj hc' hc hd)
      · exact Or.inr hne
  have hlast : ∀ c', ¬(c' = c ∧ (1023 : BitVec 10) = e) := fun c' hck => he hck.2.symm
  -- with a kernel entry only the boot context is there
  have honly : 960 ≤ e.toNat → e.toNat < 1022 → ∀ c', m.LiveSpace c' → c' = none := by
    rintro hlo hhi (_ | p) hc'
    · rfl
    · exact absurd ((hk hlo hhi).1 p) hc'
  have hboot := hat none trivial
  refine ⟨h.cur, h.dir, fun c' hc' => ?_, fun c' hc' => ?_, fun c' hc' k hlo hhi => ?_,
    fun k hlo hhi hp => ?_, fun c' hc' k hlo hhi hp => ?_, fun c' hc' k hlo hp => ?_,
    h.supply.same ⟨rfl, rfl, rfl, rfl, rfl, rfl⟩⟩
  · show Pres ((m.poke (m.ctxDir D₀ c) e w).phys (m.ctxDir D₀ c') 1023)
    rw [hat c' hc', if_neg (hlast c')]
    exact h.selfPres c' hc'
  · show frameNo ((m.poke (m.ctxDir D₀ c) e w).phys (m.ctxDir D₀ c') 1023) = m.ctxDir D₀ c'
    rw [hat c' hc', if_neg (hlast c')]
    exact h.self c' hc'
  · show (m.poke (m.ctxDir D₀ c) e w).phys (m.ctxDir D₀ c') k =
      (m.poke (m.ctxDir D₀ c) e w).phys (m.ctxDir D₀ none) k
    by_cases hke : k = e
    · have hc'n := honly (by rw [← hke]; exact hlo) (by rw [← hke]; exact hhi) c' hc'
      rw [hc'n]
    · rw [hat c' hc', hboot, if_neg fun hck => hke hck.2, if_neg fun hck => hke hck.2]
      exact h.kern c' hc' k hlo hhi
  · change Pres ((m.poke (m.ctxDir D₀ c) e w).phys (m.ctxDir D₀ none) k) at hp
    change Rw ((m.poke (m.ctxDir D₀ c) e w).phys (m.ctxDir D₀ none) k) ∧
      ρ (frameNo ((m.poke (m.ctxDir D₀ c) e w).phys (m.ctxDir D₀ none) k)) = _
    rw [hboot] at hp ⊢
    by_cases hck : none = c ∧ k = e
    · rw [if_pos hck]
      obtain ⟨-, rfl⟩ := hck
      exact (hk hlo hhi).2
    · rw [if_neg hck] at hp ⊢
      exact h.ktab k hlo hhi hp
  · change Pres ((m.poke (m.ctxDir D₀ c) e w).phys (m.ctxDir D₀ c') k) at hp
    change ρ (frameNo ((m.poke (m.ctxDir D₀ c) e w).phys (m.ctxDir D₀ c') k)) = _
    rw [hat c' hc'] at hp ⊢
    by_cases hck : c' = c ∧ k = e
    · rw [if_pos hck]
      obtain ⟨-, rfl⟩ := hck
      exact hs hlo hhi
    · rw [if_neg hck] at hp ⊢
      exact h.stab c' hc' k hlo hhi hp
  · change Pres ((m.poke (m.ctxDir D₀ c) e w).phys (m.ctxDir D₀ c') k) at hp
    change ρ (frameNo ((m.poke (m.ctxDir D₀ c) e w).phys (m.ctxDir D₀ c') k)) = _
    rw [hat c' hc'] at hp ⊢
    by_cases hck : c' = c ∧ k = e
    · rw [if_pos hck]
      obtain ⟨rfl, rfl⟩ := hck
      exact hu hlo
    · rw [if_neg hck] at hp ⊢
      exact h.utab c' hc' k hlo hp

/-! ### `page_touch` and `page_set` -/

/-- What `page_touch` changes: with no table there, one entry of the loaded directory and
a frame that was free, which is empty now. -/
structure TouchStep (m m' : Mem) (ρ ρ' : BitVec 20 → Role) (page : U32) : Prop where
  vars : SameVars m m'
  pres : Pres (m'.phys m.dir (pdx page))
  same : Pres (m.phys m.dir (pdx page)) → m' = m ∧ ρ' = ρ
  roles : ∀ g, ρ g ≠ .avail → ρ' g = ρ g
  frames : ∀ g, ρ g ≠ .avail → g ≠ m.dir → m'.phys g = m.phys g
  dir : ∀ e, e ≠ pdx page → m'.phys m.dir e = m.phys m.dir e
  fresh : ¬Pres (m.phys m.dir (pdx page)) → ρ (frameNo (m'.phys m.dir (pdx page))) = .avail ∧
    ∀ j, m'.phys (frameNo (m'.phys m.dir (pdx page))) j = 0

/-- A call of `page_touch` that returns found a table or a new frame for it. -/
theorem pageTouch_new (hself : SelfMapped m) {page : U32} (hp : ¬Pres (m.phys m.dir (pdx page)))
    (ht : pageTouch m page = .ok m') : ∃ f m₁, frameNew m = .ok (f, m₁) := by
  unfold pageTouch at ht
  dsimp only at ht
  rw [hself.read_cmap, segment_pdx] at ht
  obtain ⟨w, hw, ht⟩ := bind_eq_ok.mp ht
  cases hw
  rw [if_neg (show ¬¬_ from not_not.mpr (not_pres.mp hp))] at ht
  obtain ⟨⟨f, m₁⟩, hnew, -⟩ := bind_eq_ok.mp ht
  exact ⟨f, m₁, hnew⟩

/-- `page_touch` keeps the directories; the frame of the table is the only one whose role
changes. -/
theorem Dirs.touch_roles (h : Dirs m D₀ ρ) {page : U32} (ht : pageTouch m page = .ok m')
    (honly : 960 ≤ (pdx page).toNat → ¬Pres (m.phys m.dir (pdx page)) → ∀ p, m.pctxTable p = 0) :
    ∃ ρ', Dirs m' D₀ ρ' ∧ TouchStep m m' ρ ρ' page ∧
      ∀ g, g ≠ frameNo (m'.phys m.dir (pdx page)) → ρ' g = ρ g := by
  have hself := h.selfMapped
  by_cases hp : Pres (m.phys m.dir (pdx page))
  · cases ht.symm.trans (hself.touch_present hp)
    exact ⟨ρ, h, ⟨SameVars.refl m, hp, fun _ => ⟨rfl, rfl⟩, fun _ _ => rfl, fun _ _ _ => rfl,
      fun _ _ => rfl, fun hn => absurd hp hn⟩, fun _ _ => rfl⟩
  · obtain ⟨f, m₁, hnew⟩ := pageTouch_new hself hp ht
    obtain ⟨c, hc, hd⟩ := h.cur
    have hphys := frameNew_phys hnew
    have hvars := frameNew_vars hnew
    have hdir : m₁.dir = m.dir := congrArg frameNo hvars.cr3
    obtain ⟨hf, h₁⟩ := h.new hnew (tableRole c (pdx page))
    have hfd : frameNo f ≠ m.dir := by
      intro he
      rw [he, hd, h.dir c hc] at hf
      cases hf
    cases ht.symm.trans (hself.touch_absent hp hnew hphys hvars.cr3 hfd)
    have hlast : pdx page ≠ 1023 := by
      intro he
      rw [he] at hp
      exact hp hself.pres
    obtain ⟨hrw, hfw⟩ := touched_entry f
    set w := f ||| PF_PRES ||| PF_RW ||| PF_USER with hw
    have hrole : Function.update ρ (frameNo f) (tableRole c (pdx page)) (frameNo w) =
        tableRole c (pdx page) := by
      rw [hfw, Function.update_self]
    have hc₁ : m₁.LiveSpace c := by
      cases c with
      | none => trivial
      | some p => rw [Mem.LiveSpace, hvars.table]; exact hc
    have hd₁ : m₁.dir = m₁.ctxDir D₀ c := by
      rw [hdir, hd]
      cases c with
      | none => rfl
      | some p => rw [Mem.ctxDir, Mem.ctxDir, hvars.table]
    have h₂ : Dirs (m₁.poke m₁.dir (pdx page) w) D₀
        (Function.update ρ (frameNo f) (tableRole c (pdx page))) := by
      rw [hd₁]
      refine h₁.setEntry hc₁ hlast (fun hlo hhi => ⟨?_, hrw, ?_⟩) (fun hlo hhi => ?_) fun hlo => ?_
      · intro p
        rw [hvars.table]
        exact honly hlo hp p
      · rw [hrole, tableRole, if_neg (by omega), if_neg (by omega), if_pos hhi]
      · rw [hrole, tableRole, if_neg (by omega), if_pos hhi]
      · rw [hrole, tableRole, if_pos hlo]
    refine ⟨_, h₂.fill (fun c' => ?_) _, ?_⟩
    · rw [Function.update_self]
      exact tableRole_ne_dir c c' _
    · have hentry : (m₁.touched page f).phys m.dir (pdx page) = w := by
        rw [Mem.touched, fill_of_ne _ _ _ _ hfd.symm, hdir, poke_self]
      refine ⟨⟨hvars.trans ⟨rfl, rfl, rfl, rfl, rfl, rfl, rfl⟩, by rw [hentry]; exact hrw.pres,
        fun hpres => absurd hpres hp, fun g hg => Function.update_of_ne ?_ _ _, fun g hg hgd => ?_,
        fun e he => ?_, fun _ => ⟨?_, fun j => ?_⟩⟩, fun g hg => Function.update_of_ne ?_ _ _⟩
      · rintro rfl
        exact hg hf
      · have hgf : g ≠ frameNo f := by
          rintro rfl
          exact hg hf
        funext i
        rw [Mem.touched, fill_of_ne _ _ _ _ hgf, hdir,
          poke_of_ne _ _ _ _ _ _ (Or.inl hgd), hphys]
      · rw [Mem.touched, fill_of_ne _ _ _ _ hfd.symm, hdir,
          poke_of_ne _ _ _ _ _ _ (Or.inr he), hphys]
      · rw [hentry, hfw]
        exact hf
      · rw [hentry, hfw, Mem.touched, fill_self]
      · rw [hentry, hfw] at hg
        exact hg

/-- **`page_touch`** keeps the directories. -/
theorem Dirs.touch (h : Dirs m D₀ ρ) {page : U32} (ht : pageTouch m page = .ok m')
    (honly : 960 ≤ (pdx page).toNat → ¬Pres (m.phys m.dir (pdx page)) → ∀ p, m.pctxTable p = 0) :
    ∃ ρ', Dirs m' D₀ ρ' ∧ TouchStep m m' ρ ρ' page := by
  obtain ⟨ρ', h', hstep, -⟩ := h.touch_roles ht honly
  exact ⟨ρ', h', hstep⟩

/-- A call of `page_set` touches the segment and writes one word of its table. -/
theorem pageSet_touch (h : Dirs m D₀ ρ) {page v : U32} (hs : pageSet m page v = .ok m')
    (honly : 960 ≤ (pdx page).toNat → ¬Pres (m.phys m.dir (pdx page)) → ∀ p, m.pctxTable p = 0) :
    ∃ m₁, pageTouch m page = .ok m₁ ∧ m' = m₁.poke (m₁.tab page) (ptx page) v := by
  have hself := h.selfMapped
  by_cases hp : Pres (m.phys m.dir (pdx page))
  · cases hs.symm.trans (hself.set_present hp v)
    exact ⟨m, hself.touch_present hp, rfl⟩
  · unfold pageSet at hs
    rw [hself.read_cmap] at hs
    obtain ⟨w, hw, hs⟩ := bind_eq_ok.mp hs
    cases hw
    dsimp only at hs
    rw [if_pos (not_pres.mp hp)] at hs
    obtain ⟨m₁, ht, hs⟩ := bind_eq_ok.mp hs
    obtain ⟨ρ', h', hstep⟩ := h.touch ht honly
    have hdir : m₁.dir = m.dir := congrArg frameNo hstep.vars.cr3
    have hpres : Pres (m₁.phys m₁.dir (pdx page)) := by
      rw [hdir]
      exact hstep.pres
    cases hs.symm.trans (write_eq (h'.selfMapped.ctbl hpres) v)
    exact ⟨m₁, ht, rfl⟩

/-- **`page_set`** below the temporary mappings keeps the directories. -/
theorem Dirs.set (h : Dirs m D₀ ρ) {page v : U32} (hs : pageSet m page v = .ok m')
    (hlt : (pdx page).toNat < 1022)
    (honly : 960 ≤ (pdx page).toNat → ¬Pres (m.phys m.dir (pdx page)) → ∀ p, m.pctxTable p = 0) :
    ∃ m₁ ρ', Dirs m₁ D₀ ρ' ∧ TouchStep m m₁ ρ ρ' page ∧ Dirs m' D₀ ρ' ∧
      m' = m₁.poke (m₁.tab page) (ptx page) v := by
  obtain ⟨m₁, ht, rfl⟩ := pageSet_touch h hs honly
  obtain ⟨ρ', h₁, hstep⟩ := h.touch ht honly
  refine ⟨m₁, ρ', h₁, hstep, h₁.poke (fun c' => ?_) _ _, rfl⟩
  obtain ⟨c, hc, hd⟩ := h₁.cur
  have hdir : m₁.dir = m.dir := congrArg frameNo hstep.vars.cr3
  have hp := hstep.pres
  rw [← hdir, hd] at hp
  rw [Mem.tab, hd, h₁.table_role hc hlt hp]
  exact tableRole_ne_dir c c' _

/-- A word of a kernel table. -/
def Mem.kword (m : Mem) (D₀ : BitVec 20) (e j : BitVec 10) : U32 := m.phys (frameNo (m.phys D₀ e)) j

theorem TouchStep.kernel {m₁ : Mem} {page : U32} (hstep : TouchStep m m₁ ρ ρ' page)
    (h : Dirs m D₀ ρ) {e : BitVec 10} (hlo : 960 ≤ e.toNat) (hhi : e.toNat < 1022)
    (hp : Pres (m.phys D₀ e)) :
    m₁.phys D₀ e = m.phys D₀ e ∧
      m₁.phys (frameNo (m.phys D₀ e)) = m.phys (frameNo (m.phys D₀ e)) := by
  obtain ⟨c, hc, hd⟩ := h.cur
  have hboot : ρ D₀ = .dir none := h.dir none trivial
  have hrole := (h.ktab e hlo hhi hp).2
  constructor
  · by_cases hD : D₀ = m.dir
    · rw [hD]
      by_cases he : e = pdx page
      · rw [hD, he] at hp
        rw [(hstep.same hp).1]
      · exact hstep.dir e he
    · rw [hstep.frames D₀ (by rw [hboot]; simp) hD]
  · refine hstep.frames _ (by rw [hrole]; simp) ?_
    intro he
    rw [he, hd, h.dir c hc] at hrole
    cases hrole

/-- `page_set` writes at most its own word of the kernel tables. -/
theorem Dirs.set_kernel {m₁ : Mem} {page v : U32} (h : Dirs m D₀ ρ) (h₁ : Dirs m₁ D₀ ρ')
    (hstep : TouchStep m m₁ ρ ρ' page) (hlt : (pdx page).toNat < 1022) {e : BitVec 10}
    (hlo : 960 ≤ e.toNat) (hhi : e.toNat < 1022) (hp : Pres (m.phys D₀ e)) :
    (m₁.poke (m₁.tab page) (ptx page) v).phys D₀ e = m.phys D₀ e ∧
    ∀ j, (m₁.poke (m₁.tab page) (ptx page) v).kword D₀ e j =
      if e = pdx page ∧ j = ptx page then v else m.kword D₀ e j := by
  obtain ⟨hD, hT⟩ := hstep.kernel h hlo hhi hp
  obtain ⟨c, hc, hd⟩ := h₁.cur
  have hdir : m₁.dir = m.dir := congrArg frameNo hstep.vars.cr3
  have hpage : Pres (m₁.phys (m₁.ctxDir D₀ c) (pdx page)) := by
    rw [← hd, hdir]
    exact hstep.pres
  have htab : ρ' (m₁.tab page) = tableRole c (pdx page) := by
    rw [Mem.tab, hd]
    exact h₁.table_role hc hlt hpage
  have hD' : (m₁.poke (m₁.tab page) (ptx page) v).phys D₀ e = m.phys D₀ e := by
    rw [poke_of_ne, hD]
    refine Or.inl fun he => ?_
    have hboot : ρ' D₀ = .dir none := h₁.dir none trivial
    rw [he, htab] at hboot
    exact tableRole_ne_dir _ _ _ hboot
  refine ⟨hD', fun j => ?_⟩
  rw [Mem.kword, hD', Mem.kword]
  have hrole : ρ' (frameNo (m.phys D₀ e)) = .ktab e := by
    rw [← hD] at hp ⊢
    exact (h₁.ktab e hlo hhi hp).2
  by_cases hje : e = pdx page ∧ j = ptx page
  · -- the table of the page is the kernel table of its entry
    rw [if_pos hje, hje.2]
    have hsame : frameNo (m.phys D₀ e) = m₁.tab page := by
      rw [Mem.tab, ← hje.1, hd, h₁.kern c hc e hlo hhi, hD]
    rw [hsame, poke_self]
  · rw [if_neg hje, poke_of_ne, hT]
    rcases not_and_or.mp hje with hne | hne
    · refine Or.inl fun he => ?_
      rw [he, htab] at hrole
      exact hne (tableRole_ktab hrole).symm
    · exact Or.inr hne

/-! ### Contexts -/

/-- The contexts of a table with another entry. -/
theorem withCtx_live (m : Mem) (D₀ : BitVec 20) (i : ℕ) (f : U32) {c : Option ℕ}
    (hc : (m.withCtx i f).LiveSpace c) :
    c = some i ∧ f ≠ 0 ∧ (m.withCtx i f).ctxDir D₀ c = frameNo f ∨
      c ≠ some i ∧ m.LiveSpace c ∧ (m.withCtx i f).ctxDir D₀ c = m.ctxDir D₀ c := by
  cases c with
  | none => exact Or.inr ⟨by simp, trivial, rfl⟩
  | some p =>
    by_cases hpi : p = i
    · subst hpi
      rw [Mem.LiveSpace, withCtx_self] at hc
      exact Or.inl ⟨rfl, hc, by rw [Mem.ctxDir, withCtx_self]⟩
    · rw [Mem.LiveSpace, withCtx_of_ne m f hpi] at hc
      exact Or.inr ⟨fun he => hpi (Option.some.inj he), hc,
        by rw [Mem.ctxDir, withCtx_of_ne m f hpi, Mem.ctxDir]⟩

/-- The other contexts stay. -/
theorem withCtx_keep (m : Mem) (D₀ : BitVec 20) {i : ℕ} (f : U32) {c : Option ℕ}
    (hc : m.LiveSpace c) (hne : c ≠ some i) :
    (m.withCtx i f).LiveSpace c ∧ (m.withCtx i f).ctxDir D₀ c = m.ctxDir D₀ c := by
  cases c with
  | none => exact ⟨trivial, rfl⟩
  | some p =>
    have hpi : p ≠ i := fun he => hne (congrArg some he)
    rw [Mem.LiveSpace, Mem.ctxDir, withCtx_of_ne m f hpi]
    exact ⟨hc, rfl⟩

/-- A new entry of the context table, for a directory that is complete. -/
theorem Dirs.register (h : Dirs m D₀ ρ) {i : ℕ} {f : U32} (hi : m.pctxTable i = 0)
    (hrole : ρ (frameNo f) = .dir (some i)) (hpres : Pres (m.phys (frameNo f) 1023))
    (hself : frameNo (m.phys (frameNo f) 1023) = frameNo f)
    (hkern : ∀ e : BitVec 10, 960 ≤ e.toNat → e.toNat < 1022 →
      m.phys (frameNo f) e = m.phys D₀ e)
    (hstab : ∀ e : BitVec 10, 768 ≤ e.toNat → e.toNat < 960 → Pres (m.phys (frameNo f) e) →
      ρ (frameNo (m.phys (frameNo f) e)) = .stab)
    (hutab : ∀ e : BitVec 10, e.toNat < 768 → ¬Pres (m.phys (frameNo f) e)) :
    Dirs (m.withCtx i f) D₀ ρ := by
  have hcase := fun {c} => withCtx_live m D₀ i f (c := c)
  refine ⟨?_, fun c hc => ?_, fun c hc => ?_, fun c hc => ?_, fun c hc e hlo hhi => ?_, h.ktab,
    fun c hc e hlo hhi hp => ?_, fun c hc e hlo hp => ?_,
    h.supply.same ⟨rfl, rfl, rfl, rfl, rfl, rfl⟩⟩
  · obtain ⟨c, hc, hd⟩ := h.cur
    have hne : c ≠ some i := by
      rintro rfl
      exact hc hi
    obtain ⟨hc', hd'⟩ := withCtx_keep m D₀ f hc hne
    exact ⟨c, hc', hd.trans hd'.symm⟩
  · rcases hcase hc with ⟨rfl, -, hd⟩ | ⟨-, hc', hd⟩
    · rw [hd]; exact hrole
    · rw [hd]; exact h.dir c hc'
  · rcases hcase hc with ⟨rfl, -, hd⟩ | ⟨-, hc', hd⟩
    · rw [hd]; exact hpres
    · rw [hd]; exact h.selfPres c hc'
  · rcases hcase hc with ⟨rfl, -, hd⟩ | ⟨-, hc', hd⟩
    · rw [hd]; exact hself
    · rw [hd]; exact h.self c hc'
  · rcases hcase hc with ⟨rfl, -, hd⟩ | ⟨-, hc', hd⟩
    · rw [hd]; exact hkern e hlo hhi
    · rw [hd]; exact h.kern c hc' e hlo hhi
  · rcases hcase hc with ⟨rfl, -, hd⟩ | ⟨-, hc', hd⟩
    · rw [hd] at hp ⊢; exact hstab e hlo hhi hp
    · rw [hd] at hp ⊢; exact h.stab c hc' e hlo hhi hp
  · rcases hcase hc with ⟨rfl, -, hd⟩ | ⟨-, hc', hd⟩
    · rw [hd] at hp; exact absurd hp (hutab e hlo)
    · rw [hd] at hp ⊢; exact h.utab c hc' e hlo hp

/-- A call of `space_clone` that returns has allocated the directory. -/
theorem spaceClone_new {f : U32} (hc : spaceClone m = .ok (f, m')) :
    ∃ m₁, frameNew m = .ok (f, m₁) := by
  obtain ⟨⟨dest, m₂⟩, halloc, hc⟩ := bind_eq_ok.mp hc
  obtain ⟨m₃, -, hc⟩ := bind_eq_ok.mp hc
  obtain ⟨m₄, -, hc⟩ := bind_eq_ok.mp hc
  cases hc
  obtain ⟨⟨space, m₅⟩, hnew, halloc⟩ := bind_eq_ok.mp halloc
  obtain ⟨m₆, -, halloc⟩ := bind_eq_ok.mp halloc
  obtain ⟨m₇, -, halloc⟩ := bind_eq_ok.mp halloc
  obtain ⟨m₈, -, halloc⟩ := bind_eq_ok.mp halloc
  cases halloc
  exact ⟨m₅, hnew⟩

/-- The frame of a new directory is none of those that `space_clone` works through. -/
theorem Dirs.cloneFrames (h : Dirs m D₀ ρ) (hk : Pres (m.phys D₀ 1020)) {f : U32} {m₁ : Mem}
    (hnew : frameNew m = .ok (f, m₁)) : Pres (m.phys m.dir 1020) ∧ frameNo f ≠ m.dir ∧
      frameNo f ≠ m.tab TMP_SRC ∧ m.tab TMP_SRC ≠ m.dir ∧ ρ (m.tab TMP_SRC) = .ktab 1020 := by
  obtain ⟨c, hc, hd⟩ := h.cur
  have hf := (h.new hnew .other).1
  have hsrc : m.phys m.dir 1020 = m.phys D₀ 1020 := by
    rw [hd]
    exact h.kern c hc 1020 (by decide) (by decide)
  have htab : ρ (m.tab TMP_SRC) = .ktab 1020 := by
    rw [Mem.tab, tmpSrc_pdx, hsrc]
    exact (h.ktab 1020 (by decide) (by decide) hk).2
  have hdir : ρ m.dir = .dir c := by
    rw [hd]
    exact h.dir c hc
  refine ⟨by rw [hsrc]; exact hk, ?_, ?_, ?_, htab⟩
  · intro he
    rw [he, hdir] at hf
    cases hf
  · intro he
    rw [he, htab] at hf
    cases hf
  · intro he
    rw [he, hdir] at htab
    cases htab

/-- `space_clone`, read off from the directories. -/
theorem Dirs.cloned_eq (h : Dirs m D₀ ρ) (hk : Pres (m.phys D₀ 1020)) {f : U32} {m₁ : Mem}
    (hnew : frameNew m = .ok (f, m₁)) : spaceClone m = .ok (f, m₁.cloned f) := by
  obtain ⟨hsrc, hd, ht, htd, -⟩ := h.cloneFrames hk hnew
  exact spaceClone_eq h.selfMapped hnew (frameNew_phys hnew) (frameNew_vars hnew).cr3 hsrc hd ht htd

/-- **A cloned directory** becomes the context `i`. -/
theorem Dirs.clone (h : Dirs m D₀ ρ) (hk : Pres (m.phys D₀ 1020)) {f : U32} {m₁ : Mem}
    (hnew : frameNew m = .ok (f, m₁)) {i : ℕ} (hi : m.pctxTable i = 0) :
    Dirs { m₁.cloned f with pctxTable := Function.update (m₁.cloned f).pctxTable i f } D₀
      (Function.update ρ (frameNo f) (.dir (some i))) := by
  obtain ⟨hf, h₁⟩ := h.new hnew (.dir (some i))
  obtain ⟨hsrc, hfd, hft, htd, htab⟩ := h.cloneFrames hk hnew
  have hphys := frameNew_phys hnew
  have hvars := frameNew_vars hnew
  have hdir : m₁.dir = m.dir := congrArg frameNo hvars.cr3
  have htab₁ : m₁.tab TMP_SRC = m.tab TMP_SRC := by rw [Mem.tab, Mem.tab, hphys, hdir]
  obtain ⟨c, hc, hd⟩ := h.cur
  have hlive : ∀ c, m₁.LiveSpace c → m.LiveSpace c ∧ m₁.ctxDir D₀ c = m.ctxDir D₀ c := by
    intro c hc
    obtain ⟨hl, hcd⟩ := liveSpace_congr D₀ hvars.table c
    exact ⟨hl.mp hc, hcd⟩
  -- the words of the old directories
  have hold : ∀ c, m.LiveSpace c → ∀ e, e ≠ 1022 →
      (m₁.cloned f).phys (m.ctxDir D₀ c) e = m.phys (m.ctxDir D₀ c) e := by
    intro c hc e he
    have hne : m.ctxDir D₀ c ≠ frameNo f := by
      intro hcf
      rw [← hcf, h.dir c hc] at hf
      cases hf
    have hnt : m.ctxDir D₀ c ≠ m.tab TMP_SRC := by
      intro hct
      rw [← hct, h.dir c hc] at htab
      cases htab
    rw [Mem.cloned, fill_of_ne _ _ _ _ hne, poke_of_ne _ _ _ _ _ _ (Or.inr he), htab₁,
      poke_of_ne _ _ _ _ _ _ (Or.inl hnt), hphys]
  have h₂ : Dirs (m₁.cloned f) D₀ (Function.update ρ (frameNo f) (.dir (some i))) := by
    refine h₁.congr rfl rfl (fun c hc e he => ?_) (fun _ _ _ _ => rfl)
      (h₁.supply.same ⟨rfl, rfl, rfl, rfl, rfl, rfl⟩)
    obtain ⟨hc', hcd⟩ := hlive c hc
    rw [hcd, hold c hc' e he, hphys]
  have hnewDir : ∀ e, (m₁.cloned f).phys (frameNo f) e = m₁.cloneDir f e := by
    intro e
    rw [Mem.cloned, fill_self]
  have hlast : m₁.cloneDir f 1023 = dirEntry f := rfl
  refine h₂.register ?_ (Function.update_self _ _ _) ?_ ?_ (fun e hlo hhi => ?_)
    (fun e hlo hhi hp => ?_) fun e hlo => ?_
  · show m₁.pctxTable i = 0
    rw [hvars.table]
    exact hi
  · rw [hnewDir, hlast]
    exact dirEntry_pres f
  · rw [hnewDir, hlast]
    exact dirEntry_frame f
  · have he : e ≠ 1022 := by
      rintro rfl
      simp at hhi
    rw [hnewDir, Mem.cloneDir, if_neg (by omega), if_pos hhi, hphys, hdir, hd,
      h.kern c hc e hlo hhi]
    exact (hold none trivial e he).symm
  · rw [hnewDir, Mem.cloneDir, if_neg (by omega), if_pos (by omega), hphys, hdir, hd] at hp ⊢
    have hr := h.stab c hc e hlo hhi hp
    rw [Function.update_of_ne]
    · exact hr
    · intro hef
      rw [hef, hf] at hr
      cases hr
  · rw [hnewDir, Mem.cloneDir, if_pos hlo]
    exact not_pres_zero

/-- A context that is not loaded leaves the table. -/
theorem Dirs.drop (h : Dirs m D₀ ρ) {p : ℕ} (hp : m.dir ≠ frameNo (m.pctxTable p)) :
    Dirs (m.withCtx p 0) D₀ ρ := by
  have hold : ∀ c, (m.withCtx p 0).LiveSpace c →
      m.LiveSpace c ∧ (m.withCtx p 0).ctxDir D₀ c = m.ctxDir D₀ c := by
    intro c hc
    rcases withCtx_live m D₀ p 0 hc with ⟨-, hz, -⟩ | ⟨-, hc', hd⟩
    · exact absurd rfl hz
    · exact ⟨hc', hd⟩
  refine ⟨?_, fun c hc => ?_, fun c hc => ?_, fun c hc => ?_, fun c hc e hlo hhi => ?_, h.ktab,
    fun c hc e hlo hhi hpe => ?_, fun c hc e hlo hpe => ?_,
    h.supply.same ⟨rfl, rfl, rfl, rfl, rfl, rfl⟩⟩
  · obtain ⟨c, hc, hd⟩ := h.cur
    have hne : c ≠ some p := by
      rintro rfl
      exact hp hd
    obtain ⟨hc', hd'⟩ := withCtx_keep m D₀ 0 hc hne
    exact ⟨c, hc', hd.trans hd'.symm⟩
  · rw [(hold c hc).2]; exact h.dir c (hold c hc).1
  · rw [(hold c hc).2]; exact h.selfPres c (hold c hc).1
  · rw [(hold c hc).2]; exact h.self c (hold c hc).1
  · rw [(hold c hc).2]; exact h.kern c (hold c hc).1 e hlo hhi
  · rw [(hold c hc).2] at hpe ⊢; exact h.stab c (hold c hc).1 e hlo hhi hpe
  · rw [(hold c hc).2] at hpe ⊢; exact h.utab c (hold c hc).1 e hlo hpe

theorem tableRole_utab {c c' : Option ℕ} {e : BitVec 10} (h : tableRole c e = .utab c') :
    c = c' ∧ e.toNat < 768 := by
  unfold tableRole at h
  split at h
  · rename_i he
    exact ⟨Role.utab.inj h, he⟩
  · split at h
    · cases h
    · split at h <;> cases h

/-- The tables of different contexts below the system layer, and their directories, are
different frames. -/
theorem Dirs.tableOf_other (h : Dirs m D₀ ρ) {c c' : Option ℕ} {f : BitVec 20}
    (hc : m.LiveSpace c) (hne : c ≠ c') (hf : m.TableOf D₀ c f) :
    ρ f ≠ .dir c' ∧ ρ f ≠ .utab c' := by
  rcases hf with rfl | ⟨e, he, hp, rfl⟩
  · rw [h.dir c hc]
    exact ⟨fun hd => hne (Role.dir.inj hd), by simp⟩
  · rw [h.table_role hc he hp]
    exact ⟨tableRole_ne_dir c c' e, fun hu => hne (tableRole_utab hu).1⟩

section FreeSpace

variable {p : ℕ}

/-- During `space_free` of a context that is not loaded its directory is shown. -/
theorem Dirs.shows (h : Dirs m D₀ ρ) (hlive : m.pctxTable p ≠ 0)
    (hload : m.dir ≠ frameNo (m.pctxTable p)) :
    ShowsSpace (m.poke m.dir 1022 (dirEntry (m.pctxTable p))) (frameNo (m.pctxTable p)) ∧
    ∀ T, (m.poke m.dir 1022 (dirEntry (m.pctxTable p))).UserTab (frameNo (m.pctxTable p)) T ↔
      m.UserTab (frameNo (m.pctxTable p)) T := by
  set S := frameNo (m.pctxTable p) with hS
  set m₀ := m.poke m.dir 1022 (dirEntry (m.pctxTable p)) with hm₀
  have hphysS : ∀ e, m₀.phys S e = m.phys S e := fun e =>
    poke_of_ne _ _ _ _ _ _ (Or.inl hload.symm)
  have htab : ∀ T, m₀.UserTab S T ↔ m.UserTab S T := by
    intro T
    unfold Mem.UserTab
    simp only [hphysS]
  obtain ⟨c, hc, hd⟩ := h.cur
  refine ⟨⟨hload.symm, ?_, ?_, ?_, ?_, fun T hT => ?_⟩, htab⟩
  · show Pres (m₀.phys m.dir 1022)
    rw [hm₀, poke_self]
    exact dirEntry_pres _
  · show frameNo (m₀.phys m.dir 1022) = S
    rw [hm₀, poke_self]
    exact dirEntry_frame _
  · rw [hphysS]
    exact h.selfPres (some p) hlive
  · rw [hphysS]
    exact h.self (some p) hlive
  · obtain ⟨e, he, hpe, rfl⟩ := (htab T).mp hT
    have hr := h.utab (some p) hlive e he hpe
    constructor
    · intro hTS
      have hrS := h.dir (some p) hlive
      change ρ (frameNo (m.phys S e)) = _ at hr
      rw [hTS, show ρ S = _ from hrS] at hr
      cases hr
    · intro hTd
      change ρ (frameNo (m.phys S e)) = _ at hr
      have hTd' : frameNo (m.phys S e) = m.dir := hTd
      rw [hTd', hd, h.dir c hc] at hr
      cases hr

/-- Another frame than the directory and the tables of the context. -/
theorem Dirs.keptFrame (h : Dirs m D₀ ρ) (hlive : m.pctxTable p ≠ 0)
    (hload : m.dir ≠ frameNo (m.pctxTable p)) {m₂ : Mem}
    (hF : FreeingSpace (m.poke m.dir 1022 (dirEntry (m.pctxTable p))) (frameNo (m.pctxTable p))
      768 m₂) {g : BitVec 20} (hgd : ρ g ≠ .dir (some p)) (hgu : ρ g ≠ .utab (some p)) :
    m₂.phys g = (m.poke m.dir 1022 (dirEntry (m.pctxTable p))).phys g := by
  obtain ⟨-, htab⟩ := h.shows hlive hload
  refine hF.other g (fun hgS => hgd (hgS ▸ h.dir (some p) hlive)) fun hT => ?_
  obtain ⟨e, he, hpe, rfl⟩ := (htab g).mp hT
  exact hgu (h.utab (some p) hlive e he hpe)

/-- The frames `space_free` gives back, before it shows the directory. -/
theorem Dirs.spaceFrames_eq (h : Dirs m D₀ ρ) (hlive : m.pctxTable p ≠ 0)
    (hload : m.dir ≠ frameNo (m.pctxTable p)) :
    (m.poke m.dir 1022 (dirEntry (m.pctxTable p))).spaceFrames (frameNo (m.pctxTable p)) =
      m.spaceFrames (frameNo (m.pctxTable p)) := by
  obtain ⟨hs, htab⟩ := h.shows hlive hload
  have hleaf : ∀ g, (m.poke m.dir 1022 (dirEntry (m.pctxTable p))).UserLeaf
      (frameNo (m.pctxTable p)) g ↔ m.UserLeaf (frameNo (m.pctxTable p)) g := by
    intro g
    unfold Mem.UserLeaf
    refine exists_congr fun T => exists_congr fun j => ?_
    rw [htab]
    refine and_congr_right fun hT => ?_
    have hne : T ≠ m.dir := (hs.tabNe T ((htab T).mpr hT)).2
    rw [poke_of_ne _ _ _ _ _ _ (Or.inl hne)]
  ext g
  exact or_congr (hleaf g) (or_congr_left (htab g))

/-- The role of a frame that is not given back with the context. -/
theorem Dirs.tableOf_kept (h : Dirs m D₀ ρ) (hlive : m.pctxTable p ≠ 0)
    (hleaf : ∀ g, m.UserLeaf (frameNo (m.pctxTable p)) g → ∀ c, m.LiveSpace c → c ≠ some p →
      ¬m.TableOf D₀ c g) {c : Option ℕ} {f : BitVec 20} (hc : m.LiveSpace c) (hcp : c ≠ some p)
    (hf : m.TableOf D₀ c f) : f ∉ m.spaceFrames (frameNo (m.pctxTable p)) := by
  have hr := h.tableOf_other hc hcp hf
  rintro (hl | ⟨e, he, hpe, rfl⟩ | rfl)
  · exact hleaf f hl c hc hcp hf
  · exact hr.2 (h.utab (some p) hlive e he hpe)
  · exact hr.1 (h.dir (some p) hlive)

/-- The contexts that are left when one that is not loaded has been freed. -/
theorem Dirs.freed (h : Dirs m D₀ ρ) (hlive : m.pctxTable p ≠ 0)
    (hload : m.dir ≠ frameNo (m.pctxTable p))
    (hleaf : ∀ g, m.UserLeaf (frameNo (m.pctxTable p)) g → ∀ c, m.LiveSpace c → c ≠ some p →
      ¬m.TableOf D₀ c g) {m₂ : Mem}
    (hF : FreeingSpace (m.poke m.dir 1022 (dirEntry (m.pctxTable p))) (frameNo (m.pctxTable p))
      768 m₂) (hρ : ∀ g ∉ m.spaceFrames (frameNo (m.pctxTable p)), ρ' g = ρ g)
    (hA : Supply m₂ {g | ρ' g = .avail}) : Dirs (m₂.withCtx p 0) D₀ ρ' := by
  have hold : ∀ c, (m.withCtx p 0).LiveSpace c →
      m.LiveSpace c ∧ c ≠ some p ∧ (m.withCtx p 0).ctxDir D₀ c = m.ctxDir D₀ c := by
    intro c hc
    rcases withCtx_live m D₀ p 0 hc with ⟨-, hz, -⟩ | ⟨hne, hc', hd⟩
    · exact absurd rfl hz
    · exact ⟨hc', hne, hd⟩
  refine (h.drop hload).congr hF.vars.cr3 (congrArg (Function.update · p 0) hF.vars.table)
    (fun c hc e he => ?_) (fun c f hc hf => ?_) (hA.same ⟨rfl, rfl, rfl, rfl, rfl, rfl⟩)
  · obtain ⟨hc', hcp, hcd⟩ := hold c hc
    rw [hcd]
    show m₂.phys (m.ctxDir D₀ c) e = m.phys (m.ctxDir D₀ c) e
    have hr := h.tableOf_other hc' hcp (Or.inl rfl)
    rw [h.keptFrame hlive hload hF hr.1 hr.2]
    exact poke_of_ne _ _ _ _ _ _ (Or.inr he)
  · obtain ⟨hc', hcp, hcd⟩ := hold c hc
    have hf' : m.TableOf D₀ c f := by
      unfold Mem.TableOf at hf ⊢
      rw [hcd] at hf
      exact hf
    exact hρ f (h.tableOf_kept hlive hleaf hc' hcp hf')

open Classical in
/-- **`space_free`** of a context that is not loaded and maps no table of another one. -/
theorem Dirs.freeSpace (h : Dirs m D₀ ρ) (hlive : m.pctxTable p ≠ 0)
    (hload : m.dir ≠ frameNo (m.pctxTable p))
    (hleaf : ∀ g, m.UserLeaf (frameNo (m.pctxTable p)) g → ∀ c, m.LiveSpace c → c ≠ some p →
      ¬m.TableOf D₀ c g) :
    ∃ m₂, spaceFree m (m.pctxTable p) = .ok m₂ ∧
      FreeingSpace (m.poke m.dir 1022 (dirEntry (m.pctxTable p))) (frameNo (m.pctxTable p)) 768 m₂ ∧
      Dirs (m₂.withCtx p 0) D₀
        fun g => if g ∈ m.spaceFrames (frameNo (m.pctxTable p)) then .avail else ρ g := by
  obtain ⟨m₂, hfree, hF⟩ := spaceFree_freeing h.selfMapped h.supply (h.shows hlive hload).1
  refine ⟨m₂, hfree, hF, h.freed hlive hload hleaf hF (fun g hg => if_neg hg) ?_⟩
  have hsup := hF.frees.supply
    (h.supply.same (show SameFrames m (m.poke m.dir 1022 (dirEntry (m.pctxTable p))) from
      ⟨rfl, rfl, rfl, rfl, rfl, rfl⟩))
  rw [h.spaceFrames_eq hlive hload] at hsup
  refine hsup.mono ?_
  rintro g (hg | hg)
  · rw [Set.mem_ofPred_eq] at hg ⊢
    split
    · rfl
    · exact hg
  · exact if_pos hg

end FreeSpace

/-- `pctx_load` of a live context. -/
theorem Dirs.load (h : Dirs m D₀ ρ) {p : ℕ} (hp : m.pctxTable p ≠ 0) {a : ℤ} :
    Dirs { m with cr3 := m.pctxTable p, activePctx := a } D₀ ρ :=
  ⟨⟨some p, hp, rfl⟩, h.dir, h.selfPres, h.self, h.kern, h.ktab, h.stab, h.utab,
    h.supply.same ⟨rfl, rfl, rfl, rfl, rfl, rfl⟩⟩

end Pinion
