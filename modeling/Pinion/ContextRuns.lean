/-
Runs of calls around paging contexts.

* `NoContexts m D₀` — memory before the first context is made;
* `CtxStep` — the calls, and the frames their callers hold;
* `CtxRun.ledger` — along every run the frames keep their owners;
* `pctx_free_releases` — a context that is freed gives back its user part.
-/
import Pinion.Ledger
import Pinion.Mapping

open Runs

namespace Pinion

/-! ### Runs -/

/-- Memory before the first context is made: the boot directory `D₀` is loaded. -/
def NoContexts (m : Mem) (D₀ : BitVec 20) : Prop :=
  (∃ ρ, Ledger m D₀ ρ) ∧ ∀ p, m.pctxTable p = 0

/-- No user page of a live context maps the frame of an entry, except the page in the
loaded one that the entry is for. -/
def Mem.FreeFor (m : Mem) (D₀ : BitVec 20) (page v : U32) : Prop :=
  ∀ c, m.LiveSpace c → ∀ e j : BitVec 10, e.toNat < 768 →
    m.MapsAt (m.ctxDir D₀ c) e j (frameNo v) →
      m.ctxDir D₀ c = m.dir ∧ e = pdx page ∧ j = ptx page

/-- The calls, in memory and on the set of frames that callers got from `frame_new` and
have not given back.  The real allocator does not run dry, user pages map frames that are
held, and a frame is given back for the last time when no page maps it. -/
inductive CtxStep (D₀ : BitVec 20) : Mem × Set (BitVec 20) → Mem × Set (BitVec 20) → Prop
  | newCtx {m m' : Mem} {H : Set (BitVec 20)} {r : ℤ} : pctxNew m = .ok (r, m') →
      m'.oomPool = m.oomPool → CtxStep D₀ (m, H) (m', H)
  | loadCtx {m : Mem} {H : Set (BitVec 20)} (p : ℤ) : CtxStep D₀ (m, H) ((pctxLoad m p).2, H)
  | freeCtx {m m' : Mem} {H : Set (BitVec 20)} {p r : ℤ} :
      m.dir ≠ frameNo (m.pctxTable p.toNat) → pctxFree m p = .ok (r, m') →
      CtxStep D₀ (m, H) (m', {g | g ∈ H ∧ 0 < m'.refs g})
  | newFrame {m m' : Mem} {H : Set (BitVec 20)} {f : U32} : frameNew m = .ok (f, m') →
      m'.oomPool = m.oomPool → CtxStep D₀ (m, H) (m', insert (frameNo f) H)
  | refFrame {m m' : Mem} {H : Set (BitVec 20)} {f : U32} : frameNo f ∈ H →
      frameRefc m f ≠ .ok 0xFFFFFFFF → frameRef m f = .ok m' → CtxStep D₀ (m, H) (m', H)
  | freeFrame {m m' : Mem} {H : Set (BitVec 20)} {f : U32} : frameNo f ∈ H →
      (m.UserMapped D₀ (frameNo f) → 1 < m.refs (frameNo f)) → frameFree m f = .ok m' →
      CtxStep D₀ (m, H) (m', {g | g ∈ H ∧ 0 < m'.refs g})
  | setPage {m m' : Mem} {H : Set (BitVec 20)} {page v : U32} : page < SYSTEM_ADDR_BASE →
      pageSet m page v = .ok m' → m'.oomPool = m.oomPool →
      (Pres v → frameNo v ∈ H ∧ m.FreeFor D₀ page v) → CtxStep D₀ (m, H) (m', H)

/-- A run of calls, from memory in which no frame is held. -/
def CtxRun (D₀ : BitVec 20) (m₀ m : Mem) (H : Set (BitVec 20)) : Prop :=
  Relation.ReflTransGen (CtxStep D₀) (m₀, ∅) (m, H)

/-! ### The ledger of a run -/

section Steps

variable {m m' : Mem} {D₀ : BitVec 20} {ρ : BitVec 20 → Role} {H : Set (BitVec 20)}

/-- The boot pool does not grow. -/
theorem FrameInv.pool_le {F : FrameLists} {f : U32} (h : FrameInv m F)
    (hnew : frameNew m = .ok (f, m')) : m'.oomPool ≤ m.oomPool := by
  rcases frameNew_cases hnew with ⟨hempty, hoom⟩ | ⟨fs, -, -, -, rfl⟩
  · obtain ⟨-, hf, -, rfl⟩ := h.pool (h.free_nil hempty) hoom
    rw [BitVec.le_def]
    show f.toNat ≤ _
    rw [hf, h.pool_sub.2]
    exact Nat.sub_le _ _
  · rw [(takeFrame_vals m fs).2.2.2.1]
    exact BitVec.le_refl _

theorem Dirs.clone_pool {f : U32} (h : Dirs m D₀ ρ) (hk : Pres (m.phys D₀ 1020))
    (hc : spaceClone m = .ok (f, m')) : m'.oomPool ≤ m.oomPool := by
  obtain ⟨m₁, hnew⟩ := spaceClone_new hc
  cases hc.symm.trans (h.cloned_eq hk hnew)
  obtain ⟨F, hinv, -⟩ := h.supply
  show m₁.oomPool ≤ m.oomPool
  exact hinv.pool_le hnew

theorem pdx_user {page : U32} (h : page < SYSTEM_ADDR_BASE) : (pdx page).toNat < 768 := by
  have hlt := BitVec.lt_def.mp h
  have hbase : SYSTEM_ADDR_BASE.toNat = 4194304 * 768 := rfl
  rw [pdx_toNat]
  omega

/-- The slot the loop of `pctx_new` finds. -/
theorem free_slot {i : ℕ}
    (h : ((List.range PCTX_COUNT).find? fun i => m.pctxTable i = 0) = some i) :
    i < PCTX_COUNT ∧ m.pctxTable i = 0 := by
  have hzero := List.find?_some (p := fun i => decide (m.pctxTable i = 0)) h
  exact ⟨List.mem_range.mp (List.mem_of_find?_eq_some h), of_decide_eq_true hzero⟩

/-- What `pctx_new` does: slot 0 is filled first, then the first free one. -/
theorem pctxNew_cases {r : ℤ} (h : pctxNew m = .ok (r, m')) :
    ∃ m₁, (m.pctxTable 0 ≠ 0 ∧ m₁ = m ∨ m.pctxTable 0 = 0 ∧
        ∃ f m₂, spaceClone m = .ok (f, m₂) ∧ m₁ = m₂.withCtx 0 f) ∧
      (r = -1 ∧ m' = m₁ ∨ ∃ (i : ℕ) (f : U32) (m₂ : Mem), r = i ∧ i < PCTX_COUNT ∧
        m₁.pctxTable i = 0 ∧ spaceClone m₁ = .ok (f, m₂) ∧ m' = m₂.withCtx i f) := by
  unfold pctxNew at h
  dsimp only at h
  split at h
  · rename_i hz
    obtain ⟨⟨f, m₂⟩, hc, h⟩ := bind_eq_ok.mp h
    rw [pure_bind] at h
    refine ⟨m₂.withCtx 0 f, Or.inr ⟨hz, f, m₂, hc, rfl⟩, ?_⟩
    split at h
    · rename_i i hi
      obtain ⟨hlt, hzero⟩ := free_slot hi
      obtain ⟨⟨g, m₃⟩, hc', h⟩ := bind_eq_ok.mp h
      cases h
      exact Or.inr ⟨i, g, m₃, rfl, hlt, hzero, hc', rfl⟩
    · cases h
      exact Or.inl ⟨rfl, rfl⟩
  · rename_i hz
    rw [pure_bind] at h
    refine ⟨m, Or.inl ⟨hz, rfl⟩, ?_⟩
    split at h
    · rename_i i hi
      obtain ⟨hlt, hzero⟩ := free_slot hi
      obtain ⟨⟨g, m₃⟩, hc', h⟩ := bind_eq_ok.mp h
      cases h
      exact Or.inr ⟨i, g, m₃, rfl, hlt, hzero, hc', rfl⟩
    · cases h
      exact Or.inl ⟨rfl, rfl⟩

/-- **`pctx_new`** keeps the ledger. -/
theorem Ledger.newCtx (h : Ledger m D₀ ρ) {r : ℤ} (hnew : pctxNew m = .ok (r, m'))
    (hpool : m'.oomPool = m.oomPool) :
    ∃ ρ', Ledger m' D₀ ρ' ∧ ∀ g, ρ g ≠ .avail → ρ' g = ρ g := by
  -- one clone, when the pool is the same afterwards
  have hclone : ∀ {m m₂ : Mem} {ρ : BitVec 20 → Role} {i : ℕ} {f : U32}, Ledger m D₀ ρ →
      m.pctxTable i = 0 → spaceClone m = .ok (f, m₂) → m₂.oomPool = m.oomPool →
      ∃ ρ', Ledger (m₂.withCtx i f) D₀ ρ' ∧ ∀ g, ρ g ≠ .avail → ρ' g = ρ g := by
    intro m m₂ ρ i f h hi hc hpool
    obtain ⟨hf, -, -, hled, -⟩ := h.clone hi hc hpool
    refine ⟨_, hled, fun g hg => Function.update_of_ne ?_ _ _⟩
    rintro rfl
    exact hg hf
  obtain ⟨m₁, hfirst, hsecond⟩ := pctxNew_cases hnew
  rcases hfirst with ⟨-, rfl⟩ | ⟨hz, f, m₂, hc, rfl⟩
  · rcases hsecond with ⟨-, rfl⟩ | ⟨i, f, m₂, -, -, hi, hc, rfl⟩
    · exact ⟨ρ, h, fun _ _ => rfl⟩
    · exact hclone h hi hc hpool
  · have hle : m₂.oomPool ≤ m.oomPool := h.dirs.clone_pool h.window hc
    rcases hsecond with ⟨-, rfl⟩ | ⟨i, g, m₃, -, -, hi, hc', rfl⟩
    · exact hclone h hz hc hpool
    · -- neither clone can have used the pool
      have hk : Pres ((m₂.withCtx 0 f).phys D₀ 1020) := by
        obtain ⟨m₄, hnew₁⟩ := spaceClone_new hc
        cases hc.symm.trans (h.dirs.cloned_eq h.window hnew₁)
        rw [show ((m₄.cloned f).withCtx 0 f).phys D₀ 1020 = m.phys D₀ 1020 from
          h.dirs.cloned_entry h.window hnew₁ (c := none) trivial (by decide)]
        exact h.window
      have hdirs : ∃ ρ', Dirs (m₂.withCtx 0 f) D₀ ρ' := by
        obtain ⟨m₄, hnew₁⟩ := spaceClone_new hc
        cases hc.symm.trans (h.dirs.cloned_eq h.window hnew₁)
        exact ⟨_, h.dirs.clone h.window hnew₁ hz⟩
      obtain ⟨ρ₁, hdirs⟩ := hdirs
      have hle' : m₃.oomPool ≤ m₂.oomPool := hdirs.clone_pool hk hc'
      have hpool₂ : m₂.oomPool = m.oomPool := by
        rw [show m₃.oomPool = m.oomPool from hpool] at hle'
        exact BitVec.le_antisymm hle hle'
      obtain ⟨ρ', hled, hroles⟩ := hclone h hz hc hpool₂
      have hpool₃ : m₃.oomPool = (m₂.withCtx 0 f).oomPool := Eq.trans hpool hpool₂.symm
      obtain ⟨ρ'', hled', hroles'⟩ := hclone hled hi hc' hpool₃
      refine ⟨ρ'', hled', fun g hg => ?_⟩
      rw [hroles' g (by rw [hroles g hg]; exact hg), hroles g hg]

/-- `pctx_free` refuses, or frees a context. -/
theorem pctxFree_cases {p r : ℤ} (h : pctxFree m p = .ok (r, m')) :
    m' = m ∨ ∃ (q : ℕ) (m₂ : Mem), p = q ∧ (0 < q ∧ q < PCTX_COUNT) ∧ m.pctxTable q ≠ 0 ∧
      spaceFree m (m.pctxTable q) = .ok m₂ ∧ m' = m₂.withCtx q 0 := by
  unfold pctxFree at h
  split at h
  · cases h
    exact Or.inl rfl
  · rename_i hrange
    split at h
    · cases h
      exact Or.inl rfl
    · rename_i hlive
      obtain ⟨m₂, hfree, h⟩ := bind_eq_ok.mp h
      cases h
      obtain ⟨q, rfl⟩ := Int.eq_ofNat_of_zero_le (show 0 ≤ p by omega)
      exact Or.inr ⟨q, m₂, rfl, by omega, hlive, hfree, rfl⟩

theorem pctxFree_eq {p : ℕ} {m₂ : Mem} (hp : 0 < p) (hlt : p < PCTX_COUNT)
    (hlive : m.pctxTable p ≠ 0) (hfree : spaceFree m (m.pctxTable p) = .ok m₂) :
    pctxFree m p = .ok (0, m₂.withCtx p 0) := by
  unfold pctxFree
  rw [if_neg (by omega), if_neg (show ¬m.pctxTable (p : ℤ).toNat = 0 from hlive)]
  exact bind_eq_ok.mpr ⟨m₂, hfree, rfl⟩

theorem withCtx_refs (m : Mem) (i : ℕ) (f : U32) : (m.withCtx i f).refs = m.refs :=
  refs_same ⟨rfl, rfl, rfl, rfl, rfl, rfl⟩

/-- **Every call keeps the ledger**, and the frames that are held. -/
theorem CtxStep.ledger {x y : Mem × Set (BitVec 20)} (hstep : CtxStep D₀ x y)
    (h : ∃ ρ, Ledger x.1 D₀ ρ ∧ ∀ g ∈ x.2, ρ g = .held) :
    ∃ ρ, Ledger y.1 D₀ ρ ∧ ∀ g ∈ y.2, ρ g = .held := by
  obtain ⟨ρ, h, hH⟩ := h
  cases hstep with
  | newCtx hnew hpool =>
    obtain ⟨ρ', h', hroles⟩ := h.newCtx hnew hpool
    refine ⟨ρ', h', fun g hg => ?_⟩
    rw [hroles g (by rw [hH g hg]; simp)]
    exact hH g hg
  | loadCtx p =>
    refine ⟨ρ, ?_, hH⟩
    unfold pctxLoad
    split
    · exact h
    · split
      · exact h
      · rename_i hlive
        exact h.load hlive p
  | freeCtx hload hfree =>
    rcases pctxFree_cases hfree with rfl | ⟨q, m₂, rfl, -, hlive, hspace, rfl⟩
    · exact ⟨ρ, h, fun g hg => hH g hg.1⟩
    · obtain ⟨m₃, hrel, -, h'⟩ := h.free hlive hload
      cases hspace.symm.trans hrel.free
      refine ⟨_, h', fun g hg => ?_⟩
      have hpos := hg.2
      rw [withCtx_refs] at hpos
      rw [if_neg (fun hand => hpos.ne' hand.2)]
      exact hH g hg.1
  | @newFrame m m' H f hnew hpool =>
    obtain ⟨-, h'⟩ := h.new hnew hpool
    refine ⟨_, h', fun g hg => ?_⟩
    by_cases hgf : g = frameNo f
    · rw [hgf, Function.update_self]
    · rw [Function.update_of_ne hgf]
      exact hH g (Set.mem_of_mem_insert_of_ne hg hgf)
  | refFrame hf hmax href => exact ⟨ρ, h.share (hH _ hf) hmax href, hH⟩
  | freeFrame hf hlast hfree =>
    refine ⟨_, h.give (hH _ hf) hlast hfree, fun g hg => ?_⟩
    rw [if_neg (fun hand => hg.2.ne' hand.2)]
    exact hH g hg.1
  | setPage hpage hset hpool hv =>
    obtain ⟨ρ', h', hroles⟩ := h.set (pdx_user hpage) hset hpool fun hp =>
      ⟨hH _ (hv hp).1, (hv hp).2⟩
    refine ⟨ρ', h', fun g hg => ?_⟩
    rw [hroles g (by rw [hH g hg]; simp)]
    exact hH g hg

theorem CtxRun.ledger {m₀ : Mem} (hrun : CtxRun D₀ m₀ m H) (h₀ : NoContexts m₀ D₀) :
    ∃ ρ, Ledger m D₀ ρ ∧ ∀ g ∈ H, ρ g = .held := by
  obtain ⟨⟨ρ₀, hled⟩, -⟩ := h₀
  have hind : ∀ {y}, Relation.ReflTransGen (CtxStep D₀) (m₀, ∅) y →
      ∃ ρ, Ledger y.1 D₀ ρ ∧ ∀ g ∈ y.2, ρ g = .held := by
    intro y hy
    induction hy with
    | refl => exact ⟨ρ₀, hled, fun g hg => absurd hg (Set.notMem_empty g)⟩
    | tail _ hstep ih => exact hstep.ledger ih
  exact hind hrun

end Steps

/-! ### What is released -/

/-- A frame that holds a table at or above `SYSTEM_ADDR_BASE`, or that such a table maps in
another word than the window on a new directory.  The last two entries name directories. -/
def Mem.SystemFrame (m : Mem) (D₀ g : BitVec 20) : Prop :=
  ∃ c, m.LiveSpace c ∧ ∃ e : BitVec 10, 768 ≤ e.toNat ∧ e.toNat < 1022 ∧
    (Pres (m.phys (m.ctxDir D₀ c) e) ∧ frameNo (m.phys (m.ctxDir D₀ c) e) = g ∨
      ∃ j, ¬Window e j ∧ m.MapsAt (m.ctxDir D₀ c) e j g)

/-- `pctx_free p` has given back the user part of the context and nothing else. -/
structure UserReleased (m m' : Mem) (D₀ : BitVec 20) (p : ℕ) : Prop where
  returns : pctxFree m p = .ok (0, m')
  leaf : ∀ g, m.UserLeaf (frameNo (m.pctxTable p)) g → m.refs g = m'.refs g + 1
  table : ∀ g, m.UserTab (frameNo (m.pctxTable p)) g → m.refs g = 1 ∧ m'.refs g = 0
  dir : m.refs (frameNo (m.pctxTable p)) = 1 ∧ m'.refs (frameNo (m.pctxTable p)) = 0
  once : ((spaceFreeR m (m.pctxTable p)).log.map frameNo).Nodup
  calls : ∀ g, g ∈ (spaceFreeR m (m.pctxTable p)).log.map frameNo ↔
    m.UserLeaf (frameNo (m.pctxTable p)) g ∨ m.UserTab (frameNo (m.pctxTable p)) g ∨
      g = frameNo (m.pctxTable p)
  others : ∀ g, ¬m.UserLeaf (frameNo (m.pctxTable p)) g →
    ¬m.UserTab (frameNo (m.pctxTable p)) g → g ≠ frameNo (m.pctxTable p) → m'.refs g = m.refs g
  system : ∀ g, m.SystemFrame D₀ g → m'.refs g = m.refs g
  slot : ∀ q, m'.pctxTable q = if q = p then 0 else m.pctxTable q

section Released

variable {m : Mem} {D₀ : BitVec 20} {ρ : BitVec 20 → Role}

theorem Ledger.system_kept (h : Ledger m D₀ ρ) {p : ℕ} (hp : m.pctxTable p ≠ 0) {g : BitVec 20}
    (hg : m.SystemFrame D₀ g) : g ∉ m.spaceFrames (frameNo (m.pctxTable p)) := by
  intro hin
  obtain ⟨c, hc, e, hlo, hhi, ⟨hpe, rfl⟩ | ⟨j, hw, hm⟩⟩ := hg
  · have hrole := h.dirs.table_role hc hhi hpe
    rcases h.freed_role hp hin with hr | hr | hr <;> rw [hr] at hrole
    · exact tableRole_ne_held c e hrole.symm
    · have hlt := (tableRole_utab hrole.symm).2
      omega
    · exact tableRole_ne_dir c (some p) e hrole.symm
  · have hfix := h.sys c hc e j g hlo hhi hw hm
    rcases h.freed_role hp hin with hr | hr | hr
    · exact hfix.2.1 hr
    · exact (hfix.2.2 p).2 hr
    · exact (hfix.2.2 p).1 hr

theorem Ledger.released (h : Ledger m D₀ ρ) {p : ℕ} (hp : 0 < p) (hlt : p < PCTX_COUNT)
    (hlive : m.pctxTable p ≠ 0) (hload : m.dir ≠ frameNo (m.pctxTable p)) :
    ∃ m', UserReleased m m' D₀ p := by
  obtain ⟨m₂, hrel, hvars, -⟩ := h.free hlive hload
  have hone : ∀ g, m.UserTab (frameNo (m.pctxTable p)) g ∨ g = frameNo (m.pctxTable p) →
      m.refs g = 1 ∧ (m₂.withCtx p 0).refs g = 0 := by
    intro g hg
    have hcount : m.refs g = 1 := by
      rcases hg with ht | rfl
      · exact h.tabRef p hlive g ht
      · exact h.dirRef p hlive
    rw [withCtx_refs, hrel.lowered g (Or.inr hg), hcount]
    exact ⟨rfl, rfl⟩
  refine ⟨m₂.withCtx p 0, pctxFree_eq hp hlt hlive hrel.free, fun g hg => ?_,
    fun g hg => hone g (Or.inl hg), hone _ (Or.inr rfl), hrel.once, hrel.calls,
    fun g hl ht hd => ?_, fun g hg => ?_, fun q => ?_⟩
  · have hpos := h.heldRef g (h.leaf_held hlive hg)
    rw [withCtx_refs, hrel.lowered g (Or.inl hg)]
    omega
  · rw [withCtx_refs]
    refine hrel.kept g ?_
    rintro (hl' | ht' | hd')
    · exact hl hl'
    · exact ht ht'
    · exact hd hd'
  · rw [withCtx_refs]
    exact hrel.kept g (h.system_kept hlive hg)
  · show Function.update m₂.pctxTable p 0 q = _
    rw [Function.update_apply, hvars.table]

/-- A new context that is freed at once leaves every count as it was. -/
theorem Ledger.new_free (h : Ledger m D₀ ρ) (h₀ : m.pctxTable 0 ≠ 0) {i : ℤ} {m₁ : Mem}
    (hnew : pctxNew m = .ok (i, m₁)) (hi : i ≠ -1) (hpool : m₁.oomPool = m.oomPool) :
    ∃ m₂, pctxFree m₁ i = .ok (0, m₂) ∧ m₂.refs = m.refs := by
  obtain ⟨m', ⟨-, hm'⟩ | ⟨hz, -⟩, hcases⟩ := pctxNew_cases hnew
  · rw [hm'] at hcases
    obtain ⟨n, f, m₂, rfl, hlt, hzero, hc, rfl⟩ := hcases.resolve_left fun hleft => hi hleft.1
    obtain ⟨hf, hne, hvars, hled, hcount, hrefs, hempty⟩ := h.clone hzero hc hpool
    change Ledger (m₂.withCtx n f) D₀ _ at hled
    have hn : 0 < n := by
      refine Nat.pos_of_ne_zero ?_
      rintro rfl
      exact h₀ hzero
    have hslot : (m₂.withCtx n f).pctxTable n = f := Function.update_self _ _ _
    have hdir : (m₂.withCtx n f).dir = m.dir := congrArg frameNo hvars.cr3
    have hload : (m₂.withCtx n f).dir ≠ frameNo ((m₂.withCtx n f).pctxTable n) := by
      rw [hslot, hdir]
      intro he
      obtain ⟨c, hc', hd⟩ := h.dirs.cur
      rw [← he, hd, h.dirs.dir c hc'] at hf
      cases hf
    obtain ⟨m₃, hrel⟩ := hled.released hn hlt (by rw [hslot]; exact hne) hload
    refine ⟨m₃, hrel.returns, ?_⟩
    have hnotab : ∀ g, ¬(m₂.withCtx n f).UserTab (frameNo ((m₂.withCtx n f).pctxTable n)) g := by
      rintro g ⟨e, he, hp, -⟩
      rw [hslot] at hp
      exact hempty e he hp
    funext g
    by_cases hgf : g = frameNo f
    · have hd := hrel.dir.2
      rw [hslot] at hd
      rw [hgf, hd, hcount]
    · rw [hrel.others g (fun hl => ?_) (hnotab g) (by rw [hslot]; exact hgf), withCtx_refs, hrefs,
        Function.update_of_ne hgf]
      obtain ⟨T, j, hT, -⟩ := hl
      exact hnotab T hT
  · exact absurd hz h₀

end Released

/-- **Freeing a context** that is not loaded gives back exactly its user part, in every
state that a run of calls reaches: each frame that a user page maps loses one reference,
the user tables and the directory are freed once, and no other count changes.  A new
context that is freed at once changes no count. -/
theorem pctx_free_releases {m₀ m : Mem} {D₀ : BitVec 20} {H : Set (BitVec 20)}
    (h₀ : NoContexts m₀ D₀) (hrun : CtxRun D₀ m₀ m H) :
    (∀ p : ℕ, 0 < p → p < PCTX_COUNT → m.pctxTable p ≠ 0 → m.dir ≠ frameNo (m.pctxTable p) →
      ∃ m', UserReleased m m' D₀ p) ∧
    ∀ i m₁, m.pctxTable 0 ≠ 0 → pctxNew m = .ok (i, m₁) → i ≠ -1 → m₁.oomPool = m.oomPool →
      ∃ m₂, pctxFree m₁ i = .ok (0, m₂) ∧ m₂.refs = m.refs := by
  obtain ⟨ρ, hled, -⟩ := hrun.ledger h₀
  refine ⟨fun p hp hlt hlive hload => hled.released hp hlt hlive hload, ?_⟩
  intro i m₁ hslot hnew hi hpool
  exact hled.new_free hslot hnew hi hpool

/-! ### A context with two pages -/

/-- The boot pool has no frame left. -/
structure Dry (m : Mem) : Prop where
  pool : m.oomPool = KERNEL_BOOT_SIZE
  kend : m.kend = KERNEL_ADDR_BASE + KERNEL_BOOT_SIZE

section Total

variable {m m' : Mem} {D₀ : BitVec 20} {ρ : BitVec 20 → Role} {H : Set (BitVec 20)} {n : ℕ}

theorem Dry.same (h : Dry m) (hs : SameFrames m m') : Dry m' :=
  ⟨hs.pool.trans h.pool, hs.kend.trans h.kend⟩

/-- Then `frame_new` takes its frames from the list. -/
theorem Dry.new (h : Dry m) {f : U32} (hnew : frameNew m = .ok (f, m')) :
    Dry m' ∧ m'.oomPool = m.oomPool := by
  rcases frameNew_cases hnew with ⟨-, hoom⟩ | ⟨fs, -, -, -, rfl⟩
  · obtain ⟨rfl, hroom, -⟩ := frameNewOom_ok hoom
    have hroom : m.kend - KERNEL_ADDR_BASE < m.oomPool - PAGESZ := hroom
    rw [h.pool, h.kend] at hroom
    exact absurd hroom (by decide)
  · obtain ⟨-, -, -, hpool, hkend⟩ := takeFrame_vals m fs
    exact ⟨⟨hpool.trans h.pool, hkend.trans h.kend⟩, hpool⟩

/-- `frame_new` returns once for each frame on the list. -/
theorem plenty_list {F : FrameLists} (h : FrameInv m F) (hoom : m.outOfMemory = false)
    (hn : F.free.length = n) : Plenty n m := by
  induction n generalizing m F with
  | zero => exact .zero
  | succ n ih =>
    obtain ⟨fs, rest, hfree⟩ := List.exists_cons_of_length_eq_add_one hn
    have hpath := h.path
    rw [hfree] at hpath
    have hlist : m.frameList = some fs := hpath.1
    refine .succ (frameNew_list hoom hlist) (ih (h.takeFrame hlist hoom) ?_ ?_)
    · rw [(takeFrame_vals m fs).2.2.1]
      exact hoom
    · rw [FrameLists.take, hfree]
      rw [hfree] at hn
      exact Nat.succ.inj hn

/-- `page_set` returns if there is a frame for the table. -/
theorem Dirs.set_total (h : Dirs m D₀ ρ) (hn : Plenty (n + 1) m) (page v : U32) :
    ∃ m', pageSet m page v = .ok m' ∧ Plenty n m' ∧ (Dry m → Dry m' ∧ m'.oomPool = m.oomPool) := by
  by_cases hp : Pres (m.phys m.dir (pdx page))
  · refine ⟨_, h.selfMapped.set_present hp v, ?_, fun hdry => ⟨hdry.same ?_, rfl⟩⟩
    · exact (hn.mono (Nat.le_succ n)).same ⟨rfl, rfl, rfl, rfl, rfl, rfl⟩
    · exact ⟨rfl, rfl, rfl, rfl, rfl, rfl⟩
  · obtain ⟨f, m₁, hnew, hn₁⟩ := hn.new
    obtain ⟨c, hc, hd⟩ := h.cur
    have hfd : frameNo f ≠ m.dir := by
      intro he
      have hf := (h.new hnew .other).1
      rw [he, hd, h.dir c hc] at hf
      cases hf
    refine ⟨_, h.selfMapped.set_absent hp hnew (frameNew_phys hnew) (frameNew_vars hnew).cr3 hfd v,
      hn₁.same ⟨rfl, rfl, rfl, rfl, rfl, rfl⟩, fun hdry => ?_⟩
    obtain ⟨hdry₁, hpool⟩ := hdry.new hnew
    exact ⟨hdry₁.same ⟨rfl, rfl, rfl, rfl, rfl, rfl⟩, hpool⟩

/-- What `page_set` of a user page leaves of the loaded directory: the page is mapped, and those
of the other segments are as before. -/
theorem Ledger.set_maps (h : Ledger m D₀ ρ) {page v : U32} (hpage : (pdx page).toNat < 768)
    (hs : pageSet m page v = .ok m') (hpool : m'.oomPool = m.oomPool) (hv : Pres v) :
    m'.MapsAt m.dir (pdx page) (ptx page) (frameNo v) ∧
    ∀ e j g, e.toNat < 768 → e ≠ pdx page → m.MapsAt m.dir e j g → m'.MapsAt m.dir e j g := by
  obtain ⟨m₁, ht, rfl⟩ := pageSet_touch h.dirs hs fun hlo => absurd hlo (by omega)
  obtain ⟨ρ', h₁, hstep⟩ := h.touch hpage ht hpool
  obtain ⟨c, hc, hd⟩ := h₁.dirs.cur
  have hdir : m₁.dir = m.dir := congrArg frameNo hstep.vars.cr3
  have hpres : Pres (m₁.phys m₁.dir (pdx page)) := by
    rw [hdir]
    exact hstep.pres
  -- the table of the page is no directory
  have htab : m₁.dir ≠ m₁.tab page := by
    have hrole := h₁.dirs.utab c hc (pdx page) hpage (hd ▸ hpres)
    intro he
    rw [← hd, ← show m₁.tab page = frameNo (m₁.phys m₁.dir (pdx page)) from rfl, ← he, hd,
      h₁.dirs.dir c hc] at hrole
    cases hrole
  have hentry : ∀ e, (m₁.poke (m₁.tab page) (ptx page) v).phys m.dir e = m₁.phys m.dir e := by
    intro e
    rw [← hdir]
    exact poke_of_ne _ _ _ _ _ _ (Or.inl htab)
  constructor
  · have hword : (m₁.poke (m₁.tab page) (ptx page) v).kword m.dir (pdx page) (ptx page) = v := by
      rw [Mem.kword, hentry, ← hdir]
      exact poke_self _ _ _ _
    refine ⟨?_, ?_, ?_⟩
    · rw [hentry]
      exact hstep.pres
    · rw [hword]
      exact hv
    · rw [hword]
  · rintro e j g he hne ⟨hpe, hpj, hg⟩
    have hsame : m₁.phys m.dir e = m.phys m.dir e := hstep.dir e hne
    -- the table of another segment is another one, and was in use
    have hother : frameNo (m.phys m.dir e) ≠ m₁.tab page := by
      intro heq
      rw [← hsame, ← hdir] at heq hpe
      rw [hd] at heq hpe hpres
      have htp : m₁.tab page = frameNo (m₁.phys (m₁.ctxDir D₀ c) (pdx page)) := by
        rw [← hd]
        rfl
      exact hne (h₁.apart c hc e (pdx page) he hpage hpe hpres (heq.trans htp))
    obtain ⟨c₀, hc₀, hd₀⟩ := h.dirs.cur
    have hrole := h.dirs.utab c₀ hc₀ e he (hd₀ ▸ hpe)
    rw [← hd₀] at hrole
    have hframe : m₁.phys (frameNo (m.phys m.dir e)) = m.phys (frameNo (m.phys m.dir e)) := by
      refine hstep.frames _ (by rw [hrole]; simp) fun heq => ?_
      rw [heq, hd₀, h.dirs.dir c₀ hc₀] at hrole
      cases hrole
    have hword : (m₁.poke (m₁.tab page) (ptx page) v).kword m.dir e j = m.kword m.dir e j := by
      rw [Mem.kword, hentry, hsame, poke_of_ne _ _ _ _ _ _ (Or.inl hother), hframe]
      rfl
    refine ⟨?_, ?_, ?_⟩
    · rw [hentry, hsame]
      exact hpe
    · rw [hword]
      exact hpj
    · rw [hword]
      exact hg

/-- **A user page is mapped** to a frame from `frame_new`, when there is one for it and one for
its table. -/
theorem Ledger.map_total (h : Ledger m D₀ ρ) (hdry : Dry m) (hn : Plenty (n + 2) m) {page : U32}
    (hpage : page < SYSTEM_ADDR_BASE) (H : Set (BitVec 20)) :
    ∃ m' ρ' f, Relation.ReflTransGen (CtxStep D₀) (m, H) (m', insert f H) ∧ ρ f = .avail ∧
      ρ' f = .held ∧ Ledger m' D₀ ρ' ∧ Dry m' ∧ Plenty n m' ∧ SameVars m m' ∧
      m'.MapsAt m.dir (pdx page) (ptx page) f ∧
      ∀ e j g, e.toNat < 768 → e ≠ pdx page → m.MapsAt m.dir e j g → m'.MapsAt m.dir e j g := by
  obtain ⟨f, m₁, hnew, hn₁⟩ := hn.new
  obtain ⟨hdry₁, hpool₁⟩ := hdry.new hnew
  obtain ⟨hfree, h₁⟩ := h.new hnew hpool₁
  have hvars := frameNew_vars hnew
  obtain ⟨hfv, hpv, -⟩ := allocEntry f (PF_RW ||| PF_USER)
  set v := pageFmt f (((PF_RW ||| PF_USER) &&& PF_MASK) ||| PF_PRES)
  obtain ⟨m₂, hset, hn₂, hpool₂⟩ := h₁.dirs.set_total hn₁ page v
  obtain ⟨hdry₂, hpool₂⟩ := hpool₂ hdry₁
  -- the frame was free, so no page maps it
  have hunmapped : m₁.FreeFor D₀ page v := by
    intro c hc e j he hm
    rw [hfv] at hm
    have hm : m.MapsAt (m.ctxDir D₀ c) e j (frameNo f) := by
      rw [(liveSpace_congr D₀ hvars.table c).2] at hm
      unfold Mem.MapsAt Mem.kword at hm ⊢
      rwa [frameNew_phys hnew] at hm
    rcases h.leaf c ((liveSpace_congr D₀ hvars.table c).1.mp hc) e j _ he hm with hr | ⟨-, hr⟩
    · rw [hfree] at hr
      cases hr
    · rw [hfree] at hr
      cases hr
  have hheld : Function.update ρ (frameNo f) .held (frameNo v) = .held := by
    rw [hfv, Function.update_self]
  obtain ⟨ρ', h₂, hroles⟩ := h₁.set (pdx_user hpage) hset hpool₂ fun _ => ⟨hheld, hunmapped⟩
  have hdir : m₁.dir = m.dir := congrArg frameNo hvars.cr3
  obtain ⟨hmap, hkeep⟩ := h₁.set_maps (pdx_user hpage) hset hpool₂ hpv
  rw [hdir, hfv] at hmap
  rw [hdir] at hkeep
  have hstep₁ : CtxStep D₀ (m, H) (m₁, insert (frameNo f) H) := .newFrame hnew hpool₁
  have hstep₂ : CtxStep D₀ (m₁, insert (frameNo f) H) (m₂, insert (frameNo f) H) := by
    refine .setPage hpage hset hpool₂ fun _ => ⟨?_, hunmapped⟩
    rw [hfv]
    exact Set.mem_insert _ H
  obtain ⟨m₃, ht, rfl⟩ := pageSet_touch h₁.dirs hset fun hlo =>
    absurd hlo (by have := pdx_user hpage; omega)
  obtain ⟨_, -, hstep⟩ := h₁.touch (pdx_user hpage) ht hpool₂
  refine ⟨_, ρ', frameNo f, (Relation.ReflTransGen.single hstep₁).tail hstep₂, hfree, ?_, h₂, hdry₂,
    hn₂, hvars.trans (hstep.vars.trans ⟨rfl, rfl, rfl, rfl, rfl, rfl, rfl⟩), hmap,
    fun e j g he hne hm => hkeep e j g he hne ?_⟩
  · rw [hroles _ (by rw [Function.update_self]; simp), Function.update_self]
  · unfold Mem.MapsAt Mem.kword at hm ⊢
    rwa [frameNew_phys hnew]

/-- **A directory is cloned** into a slot of the table, when there is a frame for it. -/
theorem Ledger.clone_total (h : Ledger m D₀ ρ) (hdry : Dry m) (hn : Plenty (n + 1) m) {i : ℕ}
    (hi : m.pctxTable i = 0) :
    ∃ f m₁ ρ', spaceClone m = .ok (f, m₁) ∧ f ≠ 0 ∧ Ledger (m₁.withCtx i f) D₀ ρ' ∧
      Dry (m₁.withCtx i f) ∧ (m₁.withCtx i f).oomPool = m.oomPool ∧ Plenty n (m₁.withCtx i f) ∧
      (m₁.withCtx i f).cr3 = m.cr3 ∧
      (m₁.withCtx i f).pctxTable = Function.update m.pctxTable i f := by
  obtain ⟨f, m₁, hnew, hn₁⟩ := hn.new
  obtain ⟨hdry₁, hpool⟩ := hdry.new hnew
  have hc := h.dirs.cloned_eq h.window hnew
  obtain ⟨-, hf, hvars, hled, -⟩ := h.clone hi hc hpool
  have hsame : SameFrames m₁ ((m₁.cloned f).withCtx i f) := ⟨rfl, rfl, rfl, rfl, rfl, rfl⟩
  refine ⟨f, m₁.cloned f, _, hc, hf, hled, hdry₁.same hsame, hpool, hn₁.same hsame, hvars.cr3, ?_⟩
  rw [← hvars.table]
  rfl

/-- The slot that `pctx_new` finds. -/
theorem slot_found {i : ℕ} (hi : i < PCTX_COUNT) (hz : m.pctxTable i = 0)
    (hlt : ∀ j < i, m.pctxTable j ≠ 0) :
    ((List.range PCTX_COUNT).find? fun i => m.pctxTable i = 0) = some i := by
  refine List.find?_range_eq_some.mpr ⟨decide_eq_true hz, List.mem_range.mpr hi, fun j hj => ?_⟩
  rw [Bool.not_eq_true', decide_eq_false_iff_not]
  exact hlt j hj

/-- `pctx_new` when slot 0 is filled. -/
theorem pctxNew_next {i : ℕ} {f : U32} (h₀ : m.pctxTable 0 ≠ 0)
    (hi : ((List.range PCTX_COUNT).find? fun i => m.pctxTable i = 0) = some i)
    (hc : spaceClone m = .ok (f, m')) : pctxNew m = .ok (i, m'.withCtx i f) := by
  unfold Mem.withCtx pctxNew
  rw [if_neg h₀, pure_bind]
  dsimp only
  rw [hi]
  dsimp only
  rw [hc]
  rfl

/-- Two contexts are made, when there are frames for the three directories. -/
theorem Ledger.twoCtx_total (h : Ledger m D₀ ρ) (hnone : ∀ p, m.pctxTable p = 0) (hdry : Dry m)
    (hn : Plenty (n + 3) m) :
    ∃ m' ρ', CtxRun D₀ m m' ∅ ∧ Ledger m' D₀ ρ' ∧ Dry m' ∧ Plenty n m' ∧ m'.pctxTable 1 ≠ 0 ∧
      m'.pctxTable 2 ≠ 0 := by
  obtain ⟨f₀, m₀, ρ₀, hc₀, hf₀, h₀, hdry₀, hpool₀, hn₀, -, htab₀⟩ := h.clone_total hdry hn (hnone 0)
  have hone : (m₀.withCtx 0 f₀).pctxTable 1 = 0 := by
    rw [htab₀, Function.update_of_ne Nat.one_ne_zero]
    exact hnone 1
  obtain ⟨f₁, m₁, ρ₁, hc₁, hf₁, h₁, hdry₁, hpool₁, hn₁, -, htab₁⟩ := h₀.clone_total hdry₀ hn₀ hone
  have hslot₁ := slot_found (m := m₀.withCtx 0 f₀) (i := 1) (by decide) hone fun j hj => by
    rw [Nat.lt_one_iff.mp hj, htab₀, Function.update_self]
    exact hf₀
  have hnew₁ := pctxNew_first (hnone 0) hc₀ hslot₁ hc₁
  have htab : ∀ j, (m₁.withCtx 1 f₁).pctxTable j =
      if j = 1 then f₁ else if j = 0 then f₀ else 0 := by
    intro j
    rw [htab₁, htab₀, Function.update_apply, Function.update_apply, hnone]
  obtain ⟨f₂, m₂, ρ₂, hc₂, hf₂, h₂, hdry₂, hpool₂, hn₂, -, htab₂⟩ :=
    h₁.clone_total hdry₁ hn₁ (htab 2)
  have hslot₂ := slot_found (m := m₁.withCtx 1 f₁) (i := 2) (by decide) (htab 2) fun j hj => by
    rw [htab]
    interval_cases j
    · exact hf₀
    · exact hf₁
  have hnew₂ := pctxNew_next (by rw [htab]; exact hf₀) hslot₂ hc₂
  refine ⟨m₂.withCtx 2 f₂, ρ₂, ?_, h₂, hdry₂, hn₂, ?_, ?_⟩
  · exact (Relation.ReflTransGen.single (.newCtx hnew₁ (hpool₁.trans hpool₀))).tail
      (.newCtx hnew₂ hpool₂)
  · rw [htab₂, Function.update_of_ne (by decide), htab]
    exact hf₁
  · rw [htab₂, Function.update_self]
    exact hf₂

end Total

/-- Frame 5 is the boot directory, with one kernel table in frame 6; seven frames are free. -/
def ctxMem : Mem :=
  { flatMem with
    phys := fun f i => if f = 5 then (if i = 1020 then 0x6003 else if i = 1023 then 0x5003 else 0)
      else 0
    cr3 := 0x5000
    kend := 0xF0800000
    outOfMemory := false
    frameStruct := fun p => ⟨if p = 7 then none else some (p + 1), none, 0, 0x7FF + p⟩
    frameList := some 1 }

def ctxRoles (g : BitVec 20) : Role :=
  if g = 5 then .dir none
  else if g = 6 then .ktab 1020
  else if 0x800 ≤ g ∧ g ≤ 0x806 then .avail
  else .other

theorem ctxMem_node {p : Ptr} (hp : FrameLists.Node ⟨[1, 2, 3, 4, 5, 6, 7], fun _ => []⟩ p) :
    p = 1 ∨ p = 2 ∨ p = 3 ∨ p = 4 ∨ p = 5 ∨ p = 6 ∨ p = 7 := by
  rcases hp with hp | ⟨h, hp⟩
  · simpa using hp
  · cases hp

theorem ctxMem_frames : FrameInv ctxMem ⟨[1, 2, 3, 4, 5, 6, 7], fun _ => []⟩ := by
  refine ⟨⟨rfl, rfl, rfl, rfl, rfl, rfl, rfl, rfl⟩, fun _ => rfl, nofun, nofun, by decide,
    fun _ => List.nodup_nil, nofun, fun p q _ _ heq => ?_, fun p hp => ?_, nofun, by decide,
    by decide, by decide⟩
  · have heq : (0x7FF : U32) + p = 0x7FF + q := heq
    bv_omega
  · rcases ctxMem_node hp with rfl | rfl | rfl | rfl | rfl | rfl | rfl <;> decide

theorem ctxMem_supply : Supply ctxMem {g | ctxRoles g = .avail} := by
  refine ⟨_, ctxMem_frames, ?_, ?_⟩
  · intro p hp
    rcases ctxMem_node (Or.inl hp) with rfl | rfl | rfl | rfl | rfl | rfl | rfl <;> rfl
  · -- the boot pool is empty
    intro f _ hlow hhigh
    have hlow := BitVec.lt_def.mp hlow
    have hhigh := BitVec.lt_def.mp hhigh
    have hend : (ctxMem.kend - KERNEL_ADDR_BASE).toNat = ctxMem.oomPool.toNat := rfl
    omega

theorem ctxMem_ledger : Ledger ctxMem 5 ctxRoles := by
  have hlive : ∀ c, ctxMem.LiveSpace c → c = none := by
    rintro (_ | p) hc
    · rfl
    · exact absurd rfl hc
  have hentry : ∀ e : BitVec 10, e.toNat < 1022 → Pres (ctxMem.phys 5 e) → e = 1020 := by
    intro e he hp
    by_contra hne
    have hself : e ≠ 1023 := by
      rintro rfl
      simp at he
    have hzero : ctxMem.phys 5 e = 0 := by
      show (if e = 1020 then 0x6003 else if e = 1023 then 0x5003 else 0) = _
      rw [if_neg hne, if_neg hself]
    rw [hzero] at hp
    exact absurd hp (by decide)
  have huser : ∀ e : BitVec 10, e.toNat < 768 → ¬Pres (ctxMem.phys 5 e) := by
    intro e he hp
    rw [hentry e (by omega) hp] at he
    simp at he
  -- the kernel table is empty
  have hmaps : ∀ e j g, e.toNat < 1022 → ¬ctxMem.MapsAt 5 e j g := by
    rintro e j g he ⟨hpe, hpj, -⟩
    have hzero : ctxMem.kword 5 e j = 0 := by
      rw [hentry e he hpe]
      rfl
    rw [hzero] at hpj
    exact absurd hpj (by decide)
  refine ⟨⟨⟨none, trivial, rfl⟩, ?_, ?_, ?_, ?_, ?_, ?_, ?_, ctxMem_supply⟩, ?_, ?_, ?_, ?_, ?_,
    nofun, nofun, ?_⟩
  · intro c hc
    rw [hlive c hc]
    rfl
  · intro c hc
    rw [hlive c hc]
    decide
  · intro c hc
    rw [hlive c hc]
    rfl
  · intro c hc e _ _
    rw [hlive c hc]
    rfl
  · intro e _ hhi hp
    rw [hentry e hhi hp]
    exact ⟨rfl, rfl⟩
  · intro c hc e hlo hhi hp
    cases hlive c hc
    rw [hentry e (by omega) hp] at hhi
    simp at hhi
  · intro c hc e he hp
    cases hlive c hc
    exact absurd hp (huser e he)
  · decide
  · intro c hc e e' he _ hp
    cases hlive c hc
    exact absurd hp (huser e he)
  · intro c hc e j g he hm
    cases hlive c hc
    exact absurd hm (hmaps e j g (by omega))
  · intro c c' hc hc' e e' j j' g he _ hm
    cases hlive c hc
    exact absurd hm (hmaps e j g (by omega))
  · intro c hc e j g _ he _ hm
    cases hlive c hc
    exact absurd hm (hmaps e j g he)
  · intro g hg
    unfold ctxRoles at hg
    split_ifs at hg


/-- Two contexts are made and two pages in different segments are mapped in the first; it is
freed while the second is loaded. -/
theorem pctx_free_releases_pages : ∃ m H g₁ g₂, CtxRun 5 ctxMem m H ∧ m.pctxTable 1 ≠ 0 ∧
    m.MapsAt (frameNo (m.pctxTable 1)) 0 1 g₁ ∧ m.MapsAt (frameNo (m.pctxTable 1)) 1 0 g₂ ∧
    g₁ ≠ g₂ ∧ ∃ m', UserReleased m m' 5 1 := by
  have hdry : Dry ctxMem := ⟨rfl, rfl⟩
  obtain ⟨m₁, ρ₁, hrun₁, h₁, hdry₁, hn₁, hone, htwo⟩ :=
    ctxMem_ledger.twoCtx_total (fun _ => rfl) hdry (plenty_list ctxMem_frames rfl rfl)
  -- the first context is loaded, and its pages are mapped
  have hload₁ : (pctxLoad m₁ 1).2 = { m₁ with cr3 := m₁.pctxTable 1, activePctx := 1 } := by
    unfold pctxLoad
    rw [if_neg (by decide)]
    exact congrArg Prod.snd (if_neg hone)
  set m₂ := (pctxLoad m₁ 1).2 with hm₂
  have h₂ : Ledger m₂ 5 ρ₁ := by
    rw [hload₁]
    exact h₁.load hone 1
  have hsame₂ : SameFrames m₁ m₂ := by
    rw [hload₁]
    exact ⟨rfl, rfl, rfl, rfl, rfl, rfl⟩
  obtain ⟨m₃, ρ₃, g₁, hrun₃, -, hheld, h₃, hdry₃, hn₃, hvars₃, hmap₁, -⟩ :=
    h₂.map_total (hdry₁.same hsame₂) (hn₁.same hsame₂)
      (show (0x1000 : U32) < SYSTEM_ADDR_BASE by decide) ∅
  obtain ⟨m₄, ρ₄, g₂, hrun₄, havail, -, h₄, -, -, hvars₄, hmap₂, hkeep⟩ :=
    h₃.map_total hdry₃ hn₃ (show (0x400000 : U32) < SYSTEM_ADDR_BASE by decide) (insert g₁ ∅)
  have hne : g₁ ≠ g₂ := by
    rintro rfl
    rw [hheld] at havail
    cases havail
  have hdir₂ : m₂.dir = frameNo (m₁.pctxTable 1) := by rw [hload₁]; rfl
  have hdir₃ : m₃.dir = m₂.dir := congrArg frameNo hvars₃.cr3
  have htab : m₄.pctxTable = m₁.pctxTable := by
    rw [hvars₄.table, hvars₃.table, hload₁]
  -- the second context is loaded
  have hload₂ : (pctxLoad m₄ 2).2 = { m₄ with cr3 := m₄.pctxTable 2, activePctx := 2 } := by
    unfold pctxLoad
    rw [if_neg (by decide)]
    exact congrArg Prod.snd (if_neg (htab ▸ htwo))
  set m₅ := (pctxLoad m₄ 2).2 with hm₅
  have hphys : m₅.phys = m₄.phys ∧ m₅.pctxTable = m₁.pctxTable := by
    rw [hload₂]
    exact ⟨rfl, htab⟩
  have hrun : CtxRun 5 ctxMem m₅ (insert g₂ (insert g₁ ∅)) :=
    (((hrun₁.tail (.loadCtx 1)).trans hrun₃).trans hrun₄).tail (.loadCtx 2)
  have hmaps : ∀ {e j g}, m₄.MapsAt (frameNo (m₁.pctxTable 1)) e j g →
      m₅.MapsAt (frameNo (m₅.pctxTable 1)) e j g := by
    intro e j g hm
    unfold Mem.MapsAt Mem.kword at hm ⊢
    rwa [hphys.1, hphys.2]
  have hlive : m₅.pctxTable 1 ≠ 0 := by
    rw [hphys.2]
    exact hone
  rw [hdir₃, hdir₂] at hmap₂ hkeep
  rw [hdir₂] at hmap₁
  refine ⟨m₅, _, g₁, g₂, hrun, hlive, hmaps (hkeep 0 1 g₁ (by decide) (by decide) hmap₁),
    hmaps hmap₂, hne, ?_⟩
  have hother : m₅.dir ≠ frameNo (m₅.pctxTable 1) := by
    intro he
    have hr₁ := h₁.dirs.dir (some 1) hone
    have hr₂ := h₁.dirs.dir (some 2) htwo
    have he : frameNo (m₁.pctxTable 2) = frameNo (m₁.pctxTable 1) := by
      rw [hphys.2, hload₂] at he
      rw [← htab]
      exact he.trans (by rw [htab])
    change ρ₁ (frameNo (m₁.pctxTable 2)) = _ at hr₂
    change ρ₁ (frameNo (m₁.pctxTable 1)) = _ at hr₁
    rw [he, hr₁] at hr₂
    cases hr₂
  have h₀ : NoContexts ctxMem 5 := ⟨⟨ctxRoles, ctxMem_ledger⟩, fun _ => rfl⟩
  exact (pctx_free_releases h₀ hrun).1 1 Nat.one_pos (by decide) hlive hother

end Pinion
