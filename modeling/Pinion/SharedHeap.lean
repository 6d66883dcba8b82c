/-
Kernel heap memory in every address space.

The tables of the kernel layer exist before the first directory is cloned, so that a page the
heap maps later, in whatever context, is there in all of them.

* `Shares m D₀ ρ H` — the directories share the tables of the heap, user pages map frames of
  their own, and the callers of `frame_new` hold the frames in `H`;
* `Shares.alloc` … `Shares.free` — one lemma for each operation;
* `PagedBoot` — memory after `init`;
* `SharedRun.shared` — every sequence of operations keeps the sharing;
* `heap_shared` — the blocks of the heap in every live context.
-/
import Pinion.ContextRuns
import Pinion.InitPages

open Runs

namespace Pinion

/-! ### Sharing -/

structure Shares (m : Mem) (D₀ : BitVec 20) (ρ : BitVec 20 → Role) (H : Set (BitVec 20)) :
    Prop where
  dirs : Dirs m D₀ ρ
  heap : HeapPages m D₀ ρ
  leaf : ∀ c, m.LiveSpace c → ∀ e j g, e.toNat < 768 → m.MapsAt (m.ctxDir D₀ c) e j g →
    ρ g = .leaf c
  held : ∀ g ∈ H, ρ g = .held

section Operations

variable {m m' : Mem} {D₀ : BitVec 20} {ρ ρ' : BitVec 20 → Role} {H : Set (BitVec 20)}

/-- The table of the temporary mapping of `space_alloc`. -/
theorem Shares.window (h : Shares m D₀ ρ H) : Pres (m.phys D₀ 1020) :=
  h.heap.2.tabs 1020 (by decide) (by decide)

/-- **`heap_alloc`**, in whatever context. -/
theorem Shares.alloc (h : Shares m D₀ ρ H) {size : ℕ} {o : Option Ptr}
    (ha : heapAlloc m size = .ok (o, m')) :
    ∃ ρ', Shares m' D₀ ρ' H ∧ ∀ g, ρ g ≠ .avail → ρ' g = ρ g := by
  obtain ⟨ρ', hdirs, hheap, hgrow⟩ := h.heap.alloc h.dirs ha
  refine ⟨ρ', ⟨hdirs, hheap, fun c hc e j g he hm => ?_, fun g hg => ?_⟩, hgrow.roles⟩
  · obtain ⟨hlive, hd⟩ := liveSpace_congr D₀ hgrow.table c
    have hc' := hlive.mp hc
    rw [hd] at hm
    obtain ⟨hpe, hpj, hg⟩ := hm
    rw [hgrow.dirs c hc'] at hpe
    -- a user table is no table of the kernel layer
    have hrole := h.dirs.utab c hc' e he hpe
    have hword : m'.kword (m.ctxDir D₀ c) e j = m.kword (m.ctxDir D₀ c) e j := by
      rw [Mem.kword, hgrow.dirs c hc', hgrow.frames _ (by rw [hrole]; simp) (by rw [hrole]; simp)]
      rfl
    rw [hword] at hpj hg
    have hleaf := h.leaf c hc' e j g he ⟨hpe, hpj, hg⟩
    rw [hgrow.roles g (by rw [hleaf]; simp), hleaf]
  · rw [hgrow.roles g (by rw [h.held g hg]; simp)]
    exact h.held g hg

/-- **`heap_free`**. -/
theorem Shares.free (h : Shares m D₀ ρ H) (p : Ptr) (size : ℕ) :
    Shares (heapFree m p size) D₀ ρ H := by
  obtain ⟨hdirs, hheap⟩ := h.heap.free h.dirs p size
  refine ⟨hdirs, hheap, fun c hc e j g he hm => ?_, h.held⟩
  obtain ⟨hphys, htable, -⟩ := heapFree_tables m p size
  obtain ⟨hlive, hd⟩ := liveSpace_congr D₀ htable c
  rw [hd] at hm
  simp only [Mem.MapsAt, Mem.kword, hphys] at hm
  exact h.leaf c (hlive.mp hc) e j g he hm

/-- Steps outside the page tables. -/
theorem Shares.outside (h : Shares m D₀ ρ H) (hphys : m'.phys = m.phys)
    (hvars : SameVars m m') {H' : Set (BitVec 20)} (hdirs : Dirs m' D₀ ρ')
    (hρ : ∀ g, ρ g ≠ .avail → ρ g ≠ .other → ρ' g = ρ g) (hH : ∀ g ∈ H', ρ' g = .held) :
    Shares m' D₀ ρ' H' := by
  refine ⟨hdirs, ⟨hvars.brk ▸ h.heap.1, ?_⟩, fun c hc e j g he hm => ?_, hH⟩
  · rw [hvars.brk]
    refine h.heap.2.carry (fun _ _ _ => by rw [hphys])
      (fun _ _ _ => by simp only [Mem.hword, Mem.kword, hphys]) fun g n hg => ?_
    rw [hρ g (by rw [hg]; simp) (by rw [hg]; simp), hg]
  · obtain ⟨hlive, hd⟩ := liveSpace_congr D₀ hvars.table c
    rw [hd] at hm
    simp only [Mem.MapsAt, Mem.kword, hphys] at hm
    have hleaf := h.leaf c (hlive.mp hc) e j g he hm
    rw [hρ g (by rw [hleaf]; simp) (by rw [hleaf]; simp), hleaf]

/-- **`frame_new`** gives its caller a frame. -/
theorem Shares.new (h : Shares m D₀ ρ H) {f : U32} (hnew : frameNew m = .ok (f, m')) :
    ∃ ρ', Shares m' D₀ ρ' (insert (frameNo f) H) ∧ ∀ g, ρ g ≠ .avail → ρ' g = ρ g := by
  obtain ⟨hf, hdirs⟩ := h.dirs.new hnew .held
  have hρ : ∀ g, ρ g ≠ .avail → Function.update ρ (frameNo f) .held g = ρ g := by
    intro g hg
    refine Function.update_of_ne ?_ _ _
    rintro rfl
    exact hg hf
  refine ⟨_, h.outside (frameNew_phys hnew) (frameNew_vars hnew) hdirs (fun g hg _ => hρ g hg)
    fun g hg => ?_, hρ⟩
  rcases hg with rfl | hg
  · exact Function.update_self _ _ _
  · rw [hρ g (by rw [h.held g hg]; simp)]
    exact h.held g hg

/-- **`pctx_load`** of a live context. -/
theorem Shares.load (h : Shares m D₀ ρ H) (p : ℤ) : Shares (pctxLoad m p).2 D₀ ρ H := by
  unfold pctxLoad
  split
  · exact h
  · split
    · exact h
    · rename_i hlive
      exact ⟨h.dirs.load hlive, ⟨h.heap.1, h.heap.2.same rfl⟩, h.leaf, h.held⟩

/-- **`page_set`** below the kernel maps a frame of its own. -/
theorem Shares.set (h : Shares m D₀ ρ H) {page v : U32} (hpage : page < KERNEL_ADDR_BASE)
    (hv : frameNo v ∈ H) (hs : pageSet m page v = .ok m') :
    ∃ ρ', Shares m' D₀ ρ' (H \ {frameNo v}) ∧ ∀ g, ρ g = .other → ρ' g = .other := by
  have hpd : (pdx page).toNat < 960 := by
    have hlt := BitVec.lt_def.mp hpage
    refine pdx_lt ?_
    rw [show KERNEL_ADDR_BASE.toNat = 4194304 * 960 from rfl] at hlt
    exact hlt
  obtain ⟨m₁, ρ₁, h₁, hstep, h₂, rfl⟩ := h.dirs.set hs (by omega) fun hlo => absurd hlo (by omega)
  obtain ⟨c₁, hc₁, hd₁⟩ := h₁.cur
  have hdir : m₁.dir = m.dir := congrArg frameNo hstep.vars.cr3
  have hpres := hstep.pres
  rw [← hdir, hd₁] at hpres
  have hT : ρ₁ (m₁.tab page) = tableRole c₁ (pdx page) := by
    rw [Mem.tab, hd₁]
    exact h₁.table_role hc₁ (by omega) hpres
  have hheld : ρ₁ (frameNo v) = .held := by
    rw [hstep.roles _ (by rw [h.held _ hv]; simp)]
    exact h.held _ hv
  set m' := m₁.poke (m₁.tab page) (ptx page) v with hm'
  set r : Role := if (pdx page).toNat < 768 then .leaf c₁ else .other with hr
  have hrAvail : r ≠ .avail := by rw [hr]; split <;> simp
  have hlive := fun c => liveSpace_congr D₀ hstep.vars.table c
  have hρ : ∀ g, g ≠ frameNo v → ρ g ≠ .avail → Function.update ρ₁ (frameNo v) r g = ρ g := by
    intro g hg ha
    rw [Function.update_of_ne hg, hstep.roles g ha]
  refine ⟨Function.update ρ₁ (frameNo v) r, ⟨?_, ⟨?_, ?_⟩, fun c hc e j g he hm => ?_,
    fun g hg => ?_⟩, fun g hg => ?_⟩
  · -- no table is a frame that was held
    refine h₂.congr rfl rfl (fun _ _ _ _ => rfl) (fun c f hc hf => ?_) (h₂.supply.mono ?_)
    · refine Function.update_of_ne ?_ _ _
      rintro rfl
      rcases hf with he | ⟨e, he, hp, hef⟩
      · rw [he, h₂.dir c hc] at hheld
        cases hheld
      · rw [← hef, h₂.table_role hc he hp] at hheld
        exact tableRole_ne_held c e hheld
    · intro g hg
      rw [Set.mem_ofPred_eq] at hg ⊢
      rw [Function.update_of_ne]
      · exact hg
      · rintro rfl
        rw [hheld] at hg
        cases hg
  · show 4096 ∣ m₁.brk
    rw [hstep.vars.brk]
    exact h.heap.1
  · show HeapUpto m' D₀ _ (m₁.brk / 4096)
    rw [hstep.vars.brk]
    have hkern := fun {e : BitVec 10} (hlo : 960 ≤ e.toNat) (hhi : e.toNat < 1022) =>
      @Dirs.set_kernel _ D₀ _ _ m₁ page v h.dirs h₁ hstep (by omega) e hlo hhi
        (h.heap.2.tabs e hlo hhi)
    refine h.heap.2.carry (fun e hlo hhi => (hkern hlo hhi).1) (fun n hlo hhi => ?_)
      fun g n hg => ?_
    · obtain ⟨hlo', hhi'⟩ := heapPage_dir hlo hhi
      have hword := (hkern hlo' hhi').2 (pageTab n)
      rw [if_neg] at hword
      · exact hword
      · rintro ⟨he, -⟩
        rw [he] at hlo'
        omega
    · rw [hρ g _ (by rw [hg]; simp)]
      · exact hg
      · rintro rfl
        rw [h.held _ hv] at hg
        cases hg
  · have hc' : m.LiveSpace c := (hlive c).1.mp hc
    have hd : m'.ctxDir D₀ c = m.ctxDir D₀ c := (hlive c).2
    rw [hd, ← (hlive c).2] at hm
    rcases h₁.poke_maps (by rw [hT]; exact fun c' => tableRole_ne_dir c₁ c' _) hc (by omega) hm with
      hold | ⟨hrole, -, rfl⟩
    · rw [(hlive c).2] at hold
      have hleaf := h.leaf c hc' e j g he (hstep.maps h.dirs hc' (by omega) hold)
      rw [hρ g _ (by rw [hleaf]; simp)]
      · exact hleaf
      · rintro rfl
        rw [h.held _ hv] at hleaf
        cases hleaf
    · -- the page set is one of context `c`
      rw [hT, tableRole, if_pos he] at hrole
      obtain ⟨rfl, hlow⟩ := tableRole_utab hrole.symm
      rw [Function.update_self, hr, if_pos hlow]
  · rw [hρ g hg.2 (by rw [h.held g hg.1]; simp)]
    exact h.held g hg.1
  · rw [hρ g _ (by rw [hg]; simp)]
    · exact hg
    · rintro rfl
      rw [h.held _ hv] at hg
      cases hg

/-- **`space_clone`** into a new entry of the context table. -/
theorem Shares.clone (h : Shares m D₀ ρ H) {i : ℕ} {f : U32} (hi : m.pctxTable i = 0)
    (hc : spaceClone m = .ok (f, m')) : ∃ ρ', Shares (m'.withCtx i f) D₀ ρ' H := by
  obtain ⟨m₁, hnew⟩ := spaceClone_new hc
  have hw := h.window
  cases hc.symm.trans (h.dirs.cloned_eq hw hnew)
  obtain ⟨hf, -⟩ := h.dirs.new hnew .held
  have hvars := frameNew_vars hnew
  have hρ : ∀ g, ρ g ≠ .avail → Function.update ρ (frameNo f) (.dir (some i)) g = ρ g := by
    intro g hg
    refine Function.update_of_ne ?_ _ _
    rintro rfl
    exact hg hf
  have hwindow : ∀ {e : BitVec 10} (j : BitVec 10), e ≠ 1020 → ¬Window e j := by
    rintro e j he ⟨rfl, -⟩
    exact he tmpSrc_pdx
  refine ⟨_, h.dirs.clone hw hnew hi, ⟨?_, ?_⟩, fun c hc e j g he hm => ?_, fun g hg => ?_⟩
  · show 4096 ∣ m₁.brk
    rw [hvars.brk]
    exact h.heap.1
  · show HeapUpto _ D₀ _ (m₁.brk / 4096)
    rw [hvars.brk]
    have hentry := fun {e : BitVec 10} => h.dirs.cloned_entry hw hnew (c := none) trivial (e := e)
    refine h.heap.2.carry (fun e _ hhi => hentry hhi) (fun n hlo hhi => ?_) fun g n hg => ?_
    · obtain ⟨hlo', hhi'⟩ := heapPage_dir hlo hhi
      have hne : pageDir n ≠ 1020 := by
        intro he
        have hnat := congrArg BitVec.toNat he
        rw [pageDir, BitVec.toNat_ofNat, show (1020 : BitVec 10).toNat = 1020 from rfl] at hnat
        omega
      have hword := h.dirs.cloned_word hw hnew (c := none) trivial hhi'
        (h.heap.2.tabs _ hlo' hhi') (hwindow (pageTab n) hne)
      rw [← hentry hhi'] at hword
      exact hword
    · rw [hρ g (by rw [hg]; simp), hg]
  · rcases withCtx_live (m₁.cloned f) D₀ i f hc with ⟨-, -, hd⟩ | ⟨-, hc', hd⟩
    · -- the new context has no user tables
      rw [hd] at hm
      have hzero : (m₁.cloned f).phys (frameNo f) e = 0 := by
        rw [Mem.cloned, fill_self, Mem.cloneDir, if_pos he]
      have hpe : Pres ((m₁.cloned f).phys (frameNo f) e) := hm.1
      rw [hzero] at hpe
      exact absurd hpe not_pres_zero
    · obtain ⟨hlive, hd'⟩ := liveSpace_congr D₀ hvars.table c
      have hc₀ := hlive.mp hc'
      rw [hd, show (m₁.cloned f).ctxDir D₀ c = m.ctxDir D₀ c from hd'] at hm
      obtain ⟨hpe, hpj, hg⟩ := hm
      have hentry := h.dirs.cloned_entry hw hnew hc₀ (show e.toNat < 1022 by omega)
      have hpe' : Pres (m.phys (m.ctxDir D₀ c) e) := hentry ▸ hpe
      have hne : e ≠ 1020 := by
        rintro rfl
        simp at he
      have hword := h.dirs.cloned_word hw hnew hc₀ (show e.toNat < 1022 by omega) hpe'
        (hwindow j hne)
      rw [← hentry] at hword
      have hleaf := h.leaf c hc₀ e j g he ⟨hpe', hword ▸ hpj, hword ▸ hg⟩
      rw [hρ g (by rw [hleaf]; simp), hleaf]
  · rw [hρ g (by rw [h.held g hg]; simp)]
    exact h.held g hg

/-- **`pctx_new`**, with the first context when there is none. -/
theorem Shares.newCtx (h : Shares m D₀ ρ H) {r : ℤ} (hnew : pctxNew m = .ok (r, m')) :
    ∃ ρ', Shares m' D₀ ρ' H := by
  obtain ⟨m₁, hfirst, hrest⟩ := pctxNew_cases hnew
  have h₁ : ∃ ρ', Shares m₁ D₀ ρ' H := by
    rcases hfirst with ⟨-, rfl⟩ | ⟨hz, f, m₂, hc, rfl⟩
    · exact ⟨ρ, h⟩
    · exact h.clone hz hc
  obtain ⟨ρ₁, h₁⟩ := h₁
  rcases hrest with ⟨-, rfl⟩ | ⟨i, f, m₂, -, -, hi, hc, rfl⟩
  · exact ⟨ρ₁, h₁⟩
  · exact h₁.clone hi hc

/-- The frames that a context gives back. -/
theorem Shares.freed_role (h : Shares m D₀ ρ H) {p : ℕ} (hp : m.pctxTable p ≠ 0) {g : BitVec 20}
    (hg : g ∈ m.spaceFrames (frameNo (m.pctxTable p))) :
    ρ g = .leaf (some p) ∨ ρ g = .utab (some p) ∨ ρ g = .dir (some p) := by
  rcases hg with hl | ht | rfl
  · obtain ⟨e, j, he, hm⟩ := userLeaf_iff.mp hl
    exact Or.inl (h.leaf (some p) hp e j g he hm)
  · exact Or.inr (Or.inl (h.dirs.utab_role hp ht))
  · exact Or.inr (Or.inr (h.dirs.dir_role hp))

open Classical in
/-- **`pctx_free`** of a context that is not loaded. -/
theorem Shares.freeCtx (h : Shares m D₀ ρ H) {p : ℕ} (hp : m.pctxTable p ≠ 0)
    (hload : m.dir ≠ frameNo (m.pctxTable p)) (hfree : spaceFree m (m.pctxTable p) = .ok m') :
    ∃ ρ', Shares (m'.withCtx p 0) D₀ ρ' H := by
  have hleaf : ∀ g, m.UserLeaf (frameNo (m.pctxTable p)) g → ∀ c, m.LiveSpace c → c ≠ some p →
      ¬m.TableOf D₀ c g := by
    rintro g hg c hc - hT
    obtain ⟨e, j, he, hm⟩ := userLeaf_iff.mp hg
    have hrole := h.leaf (some p) hp e j g he hm
    rcases hT with rfl | ⟨e', he', hpe, rfl⟩
    · rw [h.dirs.dir c hc] at hrole
      cases hrole
    · rw [h.dirs.table_role hc he' hpe] at hrole
      exact tableRole_ne_leaf c _ e' hrole
  obtain ⟨m₂, hm₂, hF, hdirs⟩ := h.dirs.freeSpace hp hload hleaf
  cases hfree.symm.trans hm₂
  set ρ' : BitVec 20 → Role := fun g =>
    if g ∈ m.spaceFrames (frameNo (m.pctxTable p)) then .avail else ρ g with hρ'
  have hbrk : m'.brk = m.brk := hF.vars.brk
  -- what is given back belongs to context `p`
  have hkeep : ∀ g, (∀ r, ρ g = r → r ≠ .leaf (some p) ∧ r ≠ .utab (some p) ∧ r ≠ .dir (some p)) →
      ρ' g = ρ g := by
    intro g hg
    refine if_neg fun hin => ?_
    rcases h.freed_role hp hin with hr | hr | hr
    · exact (hg _ hr).1 rfl
    · exact (hg _ hr).2.1 rfl
    · exact (hg _ hr).2.2 rfl
  refine ⟨ρ', hdirs, ⟨hbrk ▸ h.heap.1, ?_⟩, fun c hc e j g he hm => ?_, fun g hg => ?_⟩
  · show HeapUpto _ D₀ ρ' (m'.brk / 4096)
    rw [hbrk]
    have hentry := fun {e : BitVec 10} =>
      h.dirs.freed_entry hp hload hF (c := none) trivial (by simp) (e := e)
    refine h.heap.2.carry (fun e _ hhi => hentry hhi) (fun n hlo hhi => ?_) fun g n hg => ?_
    · obtain ⟨hlo', hhi'⟩ := heapPage_dir hlo hhi
      exact h.dirs.freed_word hp hload hF (c := none) trivial (by simp) hhi'
        (h.heap.2.tabs _ hlo' hhi') (pageTab n)
    · rw [hkeep g (by rintro r rfl; rw [hg]; simp), hg]
  · rcases withCtx_live m' D₀ p 0 hc with ⟨-, hz, -⟩ | ⟨hcp, hc', hd⟩
    · exact absurd rfl hz
    · obtain ⟨hlive, hd'⟩ := liveSpace_congr D₀ hF.vars.table c
      have hc₀ : m.LiveSpace c := hlive.mp hc'
      rw [hd, show m'.ctxDir D₀ c = m.ctxDir D₀ c from hd'] at hm
      have hm₀ := h.dirs.freed_maps hp hload hF hc₀ hcp (by omega) hm
      have hrole := h.leaf c hc₀ e j g he hm₀
      rw [hkeep g (by rintro r rfl; rw [hrole]; simpa using hcp), hrole]
  · have hheld := h.held g hg
    rw [hkeep g (by rintro r rfl; rw [hheld]; simp), hheld]

/-- **`mem_alloc`** below the kernel. -/
theorem Shares.allocLoop {flags stop : U32} (hstop : stop ≤ KERNEL_ADDR_BASE) : ∀ {fuel : ℕ}
    {i : U32} {m m' : Mem} {ρ : BitVec 20 → Role}, Shares m D₀ ρ ∅ →
      memAllocLoop flags stop fuel i m = .ok m' →
      ∃ ρ', Shares m' D₀ ρ' ∅ ∧ ∀ g, ρ g = .other → ρ' g = .other := by
  intro fuel
  induction fuel with
  | zero =>
    intro i m m' ρ _ hrun
    cases hrun
  | succ fuel ih =>
    intro i m m' ρ h hrun
    rw [memAllocLoop] at hrun
    by_cases hlt : i < stop
    · rw [if_pos hlt] at hrun
      obtain ⟨e, -, hrun⟩ := bind_eq_ok.mp hrun
      dsimp only at hrun
      split at hrun
      · obtain ⟨⟨f, m₁⟩, hnew, hrun⟩ := bind_eq_ok.mp hrun
        obtain ⟨m₂, hset, hrun⟩ := bind_eq_ok.mp hrun
        obtain ⟨ρ₁, h₁, hroles₁⟩ := h.new hnew
        have hin : frameNo (pageFmt f ((flags &&& PF_MASK) ||| PF_PRES)) ∈
            insert (frameNo f) (∅ : Set (BitVec 20)) := by
          rw [pageFmt_frame]
          exact Set.mem_insert _ _
        have hbelow : i < KERNEL_ADDR_BASE := by
          rw [BitVec.lt_def] at hlt ⊢
          exact hlt.trans_le (BitVec.le_def.mp hstop)
        obtain ⟨ρ₂, h₂, hroles₂⟩ := h₁.set hbelow hin hset
        rw [pageFmt_frame, Set.insert_sdiff_self_of_notMem (Set.notMem_empty _)] at h₂
        obtain ⟨ρ', h', hroles'⟩ := ih h₂ hrun
        refine ⟨ρ', h', fun g hg => hroles' g (hroles₂ g ?_)⟩
        rw [hroles₁ g (by rw [hg]; simp)]
        exact hg
      · rw [pure_bind] at hrun
        exact ih h hrun
    · rw [if_neg hlt] at hrun
      cases hrun
      exact ⟨ρ, h, fun _ hg => hg⟩

/-- A block of at most a page can be had when there is a frame for it. -/
theorem Shares.alloc_total (h : Shares m D₀ ρ H) {size n : ℕ} (hsize : heapFindBucket size ≤ 10)
    (hroom : m.brk + 4096 < KERNEL_HEAP_END) (hn : Plenty (n + 1) m) :
    ∃ p m', heapAlloc m size = .ok (some p, m') ∧ Plenty n m' ∧ m'.brk ≤ m.brk + 4096 := by
  obtain ⟨f, m₁, hnew, hn₁⟩ := hn.new
  obtain ⟨p, m', halloc, hframes, hbrk⟩ := h.heap.alloc_block h.dirs hsize hroom hnew
  refine ⟨p, m', halloc, ?_, hbrk⟩
  rcases hframes with hsame | hsame
  · exact (hn.mono (Nat.le_succ n)).same hsame
  · exact hn₁.same hsame

/-- The first two contexts can be made when there are frames for their directories. -/
theorem Dirs.newCtx_total (h : Dirs m D₀ ρ) (hw : Pres (m.phys D₀ 1020))
    (hnone : ∀ p, m.pctxTable p = 0) {n : ℕ} (hn : Plenty (n + 2) m) :
    ∃ m', pctxNew m = .ok (1, m') ∧ m'.LiveSpace (some 1) ∧ Plenty n m' := by
  obtain ⟨f, m₁, hnew₁, hn₁⟩ := hn.new
  have hvars₁ := frameNew_vars hnew₁
  have hclone₁ := h.cloned_eq hw hnew₁
  have h₁ := h.clone hw hnew₁ (hnone 0)
  obtain ⟨-, -, -, hf⟩ := h.supply.new hnew₁
  have hw₁ : Pres ((m₁.cloned f).phys D₀ 1020) := by
    have hentry := h.cloned_entry hw hnew₁ (c := none) trivial (e := 1020) (by decide)
    rw [show (m₁.cloned f).phys D₀ 1020 = m.phys D₀ 1020 from hentry]
    exact hw
  -- the second one
  have hn₁' : Plenty (n + 1) ((m₁.cloned f).withCtx 0 f) :=
    hn₁.same ⟨rfl, rfl, rfl, rfl, rfl, rfl⟩
  obtain ⟨g, m₂, hnew₂, hn₂⟩ := hn₁'.new
  have hclone₂ := h₁.cloned_eq hw₁ hnew₂
  obtain ⟨-, -, -, hg⟩ := h₁.supply.new hnew₂
  have hone : ((m₁.cloned f).withCtx 0 f).pctxTable 1 = 0 := by
    rw [withCtx_of_ne _ f Nat.one_ne_zero]
    exact (congrFun hvars₁.table 1).trans (hnone 1)
  have hslot := slot_found (m := (m₁.cloned f).withCtx 0 f) (i := 1) (by decide) hone fun j hj => by
    rw [Nat.lt_one_iff.mp hj, withCtx_self]
    exact hf
  refine ⟨_, pctxNew_first (hnone 0) hclone₁ hslot hclone₂, ?_,
    hn₂.same ⟨rfl, rfl, rfl, rfl, rfl, rfl⟩⟩
  show (Mem.withCtx _ 1 g).pctxTable 1 ≠ 0
  rw [withCtx_self]
  exact hg

end Operations

/-! ### Memory after `init` -/

/-- Memory after `init`, with the directory `K` and the numbers of the frames in the memory
map.  The system image is linked below the kernel. -/
inductive PagedBoot (K : BitVec 20) : Set U32 → Mem → Prop
  | paging {m₀ m : Mem} {T : BitVec 20} : EarlyMem m₀ K T → initPaging m₀ = .ok m →
      PagedBoot K ∅ m
  | frame {A : Set U32} {m m' : Mem} {f : U32} : PagedBoot K A m → KERNEL_BOOT_SIZE ≤ f →
      f / PAGESZ ∉ A → frameAdd m f = .ok m' → PagedBoot K (insert (f / PAGESZ) A) m'
  | load {A : Set U32} {m m' : Mem} {base size flags : U32} : PagedBoot K A m →
      base.toNat + size.toNat ≤ KERNEL_ADDR_BASE.toNat → memAlloc m base size flags = .ok m' →
      PagedBoot K A m'
  | alloc {A : Set U32} {m m' : Mem} {size : ℕ} {o : Option Ptr} : PagedBoot K A m →
      heapAlloc m size = .ok (o, m') → PagedBoot K A m'

/-- What holds during `init`: a frame above the boot memory is in no use before it is added,
and the frame structures are blocks of the heap. -/
structure Booted (m : Mem) (K : BitVec 20) (A : Set U32) : Prop where
  shares : ∃ ρ, Shares m K ρ ∅ ∧
    ∀ g : BitVec 20, 0x800 ≤ g.toNat → g.setWidth 32 ∉ A → ρ g = .other
  nodes : ∃ F L, FrameInv m F ∧ HeapInv m L ∧ ∀ p, F.Node p → p ∈ L 2 ∧ m.addrOf p ∈ A

section Boot

variable {m m' : Mem} {K T : BitVec 20} {A : Set U32}

/-- Calls of `frame_new` leave the structures where they are. -/
theorem nodes_news {F : FrameLists} (h : FrameInv m F) (hn : News m m') :
    ∃ F', FrameInv m' F' ∧ ∀ p, F'.Node p → F.Node p ∧ m'.addrOf p = m.addrOf p := by
  obtain ⟨r, ht⟩ := h.tracks
  obtain ⟨F', r', -, ht', hnode, -⟩ := ht.news hn
  exact ⟨F', ht'.inv, fun p hp => ⟨(hnode p).mp hp, hn.addr p⟩⟩

theorem EarlyMem.booted {m₀ : Mem} (h : EarlyMem m₀ K T) (hi : initPaging m₀ = .ok m) :
    Booted m K ∅ := by
  obtain ⟨ρ, hs, hheap⟩ := h.paged hi
  obtain ⟨ht, L, hL, -⟩ := h.frames.tracks
  obtain ⟨F, hF, hnode⟩ := nodes_news ht.inv hs.news
  refine ⟨⟨ρ, ⟨hs.dirs, hheap, fun c hc e j g he hm => ?_, fun g hg => absurd hg
    (Set.notMem_empty g)⟩, fun g hg _ => hs.above g hg⟩, F, L, hF, hL.same hs.vars.heap,
    fun p hp => ?_⟩
  · -- no user page is mapped
    cases c with
    | none =>
      refine absurd hm (hs.quiet e j g (by omega) ?_ ?_)
      · rintro rfl
        simp at he
      · rintro rfl
        simp at he
    | some p => exact absurd (hs.table h.cold.table p) hc
  · rcases (hnode p hp).1 with hf | ⟨k, hu⟩
    · exact absurd hf List.not_mem_nil
    · exact absurd hu List.not_mem_nil

theorem Booted.alloc (h : Booted m K A) {size : ℕ} {o : Option Ptr}
    (ha : heapAlloc m size = .ok (o, m')) : Booted m' K A := by
  obtain ⟨⟨ρ, hs, hfresh⟩, F, L, hF, hL, hnode⟩ := h
  obtain ⟨ρ', hs', hroles⟩ := hs.alloc ha
  obtain ⟨F', hF', hnode'⟩ := nodes_news hF (heapAlloc_news ha)
  have hL' : ∃ L', HeapInv m' L' ∧ ∀ p, p ∈ L 2 → p ∈ L' 2 := by
    rcases hL.alloc ha with ⟨-, -, rfl⟩ | ⟨p, -, -, -, hinv, -⟩
    · exact ⟨L, hL, fun _ hp => hp⟩
    · exact ⟨_, hinv, fun q hq => mem_push_of_mem hq⟩
  obtain ⟨L', hL', hsub⟩ := hL'
  refine ⟨⟨ρ', hs', fun g hg hA => ?_⟩, F', L', hF', hL', fun p hp => ?_⟩
  · rw [hroles g (by rw [hfresh g hg hA]; simp)]
    exact hfresh g hg hA
  · obtain ⟨hold, haddr⟩ := hnode' p hp
    rw [haddr]
    exact ⟨hsub p (hnode p hold).1, (hnode p hold).2⟩

theorem Booted.load (h : Booted m K A) {base size flags : U32}
    (hbelow : base.toNat + size.toNat ≤ KERNEL_ADDR_BASE.toNat)
    (ha : memAlloc m base size flags = .ok m') : Booted m' K A := by
  obtain ⟨⟨ρ, hs, hfresh⟩, F, L, hF, hL, hnode⟩ := h
  have hstop : base + size ≤ KERNEL_ADDR_BASE := by
    rw [BitVec.le_def, BitVec.toNat_add]
    exact (Nat.mod_le _ _).trans hbelow
  obtain ⟨ρ', hs', hroles⟩ := hs.allocLoop hstop ha
  obtain ⟨F', hF', hnode'⟩ := nodes_news hF (memAllocLoop_steps ha).news
  refine ⟨⟨ρ', hs', fun g hg hA => hroles g (hfresh g hg hA)⟩, F', L, hF',
    hL.same (memAlloc_steps ha).vars.heap, fun p hp => ?_⟩
  obtain ⟨hold, haddr⟩ := hnode' p hp
  rw [haddr]
  exact hnode p hold

/-- The number of a frame above the boot memory. -/
theorem bootFrame {f : U32} (hboot : KERNEL_BOOT_SIZE ≤ f) : 0x800 ≤ f / PAGESZ ∧
    f / PAGESZ < 0x100000 ∧ 0x800 ≤ (frameNo (f / PAGESZ * PAGESZ)).toNat ∧
      (frameNo (f / PAGESZ * PAGESZ)).setWidth 32 = f / PAGESZ := by
  have hnum : (f / PAGESZ).toNat = f.toNat / 4096 := BitVec.toNat_udiv
  have hlow : 0x800000 ≤ f.toNat := BitVec.le_def.mp hboot
  have hf := f.isLt
  have hhi : f / PAGESZ < 0x100000 := by
    rw [BitVec.lt_def, hnum, show (0x100000 : U32).toNat = 0x100000 from rfl]
    omega
  have htn : (frameNo (f / PAGESZ * PAGESZ)).toNat = (f / PAGESZ).toNat :=
    frameNo_mul_toNat hhi
  refine ⟨?_, hhi, by omega, ?_⟩
  · rw [BitVec.le_def, hnum, show (0x800 : U32).toNat = 0x800 from rfl]
    omega
  · apply BitVec.eq_of_toNat_eq
    rw [BitVec.toNat_setWidth, htn, Nat.mod_eq_of_lt (f / PAGESZ).isLt]

/-- **`frame_add`** of a frame in no use makes it available. -/
theorem Dirs.addFrame {ρ : BitVec 20 → Role} {F : FrameLists} {fs : Ptr} {n : U32}
    (h : Dirs m K ρ) (hF : FrameInv m F) (hfs : ¬F.Node fs) (hn : ∀ q, F.Node q → m.addrOf q ≠ n)
    (hlo : 0x800 ≤ n) (hhi : n < 0x100000) (hother : ρ (frameNo (n * PAGESZ)) = .other) :
    Dirs (m.addFrame fs n) K (Function.update ρ (frameNo (n * PAGESZ)) .avail) := by
  set t := frameNo (n * PAGESZ) with ht
  have hsup : Supply (m.addFrame fs n) (insert t {g | ρ g = .avail}) :=
    h.supply.add hF hfs hn hlo hhi
  obtain ⟨hvars, hphys⟩ := addFrame_vars m fs n
  refine h.congr hvars.cr3 hvars.table (fun _ _ _ _ => by rw [hphys])
    (fun c g hc hg => Function.update_of_ne ?_ _ _) (hsup.mono ?_)
  · -- a frame that was not added is no table
    rintro rfl
    rcases hg with he | ⟨e, he, hpe, heg⟩
    · rw [he, h.dir c hc] at hother
      cases hother
    · rw [← heg, h.table_role hc he hpe] at hother
      exact tableRole_ne_other c he hother
  · rintro g (rfl | hg)
    · exact Function.update_self _ _ _
    · rw [Set.mem_ofPred_eq] at hg ⊢
      rw [Function.update_of_ne]
      · exact hg
      · rintro rfl
        rw [hother] at hg
        cases hg

/-- **`frame_add`** during `init`. -/
theorem Booted.frame (h : Booted m K A) {f : U32} (hboot : KERNEL_BOOT_SIZE ≤ f)
    (hA : f / PAGESZ ∉ A) (hadd : frameAdd m f = .ok m') :
    Booted m' K (insert (f / PAGESZ) A) := by
  obtain ⟨fs, m₁, halloc, rfl⟩ := frameAdd_cases hadd
  obtain ⟨⟨ρ, hs, hfree⟩, F₀, L, hF₀, hL, hnode₀⟩ := h
  -- the block for the structure is none that is in use
  obtain ⟨p, hp, hfresh, hL₁, -⟩ :=
    hL.allocated (show heapFindBucket 16 = 2 by decide) (by decide) halloc
  cases hp
  obtain ⟨F, hF, hnode⟩ := nodes_news hF₀ (heapAlloc_news halloc)
  have hold : ∀ q, F.Node q → q ∈ L 2 ∧ m₁.addrOf q ∈ A := by
    intro q hq
    obtain ⟨hq₀, haddr⟩ := hnode q hq
    rw [haddr]
    exact hnode₀ q hq₀
  obtain ⟨ρ₁, hs₁, hroles⟩ := hs.alloc halloc
  obtain ⟨hlo, hhi, htn, hwide⟩ := bootFrame hboot
  set n := f / PAGESZ with hn
  set t := frameNo (n * PAGESZ) with ht
  have hfs : ¬F.Node fs := fun hq => hfresh (hold fs hq).1
  have hnew : ∀ q, F.Node q → m₁.addrOf q ≠ n := fun q hq he => hA (he ▸ (hold q hq).2)
  have hother : ρ₁ t = .other := by
    have h₀ := hfree t htn (by rw [hwide]; exact hA)
    rw [hroles t (by rw [h₀]; simp), h₀]
  obtain ⟨hvars, hphys⟩ := addFrame_vars m₁ fs n
  have hdirs := hs₁.dirs.addFrame hF hfs hnew hlo hhi hother
  have hρ : ∀ g, g ≠ t → Function.update ρ₁ t .avail g = ρ₁ g := fun g hg =>
    Function.update_of_ne hg _ _
  refine ⟨⟨_, hs₁.outside hphys hvars hdirs (fun g _ hg => hρ g ?_) fun g hg =>
    absurd hg (Set.notMem_empty g), fun g hg hgA => ?_⟩, F.add fs, L.push 2 fs, ?_,
    hL₁.same hvars.heap, fun q hq => ?_⟩
  · rintro rfl
    exact hg hother
  · have hne : g ≠ t := by
      rintro rfl
      exact hgA (hwide ▸ Set.mem_insert _ _)
    have h₀ := hfree g hg fun hin => hgA (Set.mem_insert_of_mem _ hin)
    rw [hρ g hne, hroles g (by rw [h₀]; simp), h₀]
  · exact hF.addFrame hfs hnew hlo hhi
  · rw [(addFrame_data m₁ fs q n).1]
    rcases FrameLists.add_node.mp hq with rfl | hq'
    · rw [if_pos rfl]
      exact ⟨mem_push_self 2 q, Set.mem_insert _ _⟩
    · rw [if_neg]
      · exact ⟨mem_push_of_mem (hold q hq').1, Set.mem_insert_of_mem _ (hold q hq').2⟩
      · rintro rfl
        exact hfresh (hold q hq').1

theorem PagedBoot.booted (h : PagedBoot K A m) : Booted m K A := by
  induction h with
  | paging hearly hi => exact hearly.booted hi
  | frame _ hboot hA hadd ih => exact ih.frame hboot hA hadd
  | load _ hbelow ha ih => exact ih.load hbelow ha
  | alloc _ ha ih => exact ih.alloc ha

end Boot

/-! ### Runs -/

/-- What a run has done: memory, the blocks of the heap that callers have, the frames they
got from `frame_new` and have not mapped, and every block that was ever returned, with its
bucket. -/
structure SharedTrace where
  mem : Mem
  live : Blocks
  held : Set (BitVec 20)
  returned : Set (Ptr × ℕ)

/-- The operations, in whatever context is loaded.  A block is freed with the size it was
allocated with, a context while it is not loaded, and a page below the kernel maps a frame of
its own. -/
inductive SharedOp : SharedTrace → SharedTrace → Prop
  | alloc {t : SharedTrace} {size : ℕ} {p : Ptr} {m' : Mem} :
      heapAlloc t.mem size = .ok (some p, m') →
      SharedOp t ⟨m', t.live.push (heapFindBucket size) p, t.held,
        insert (p, heapFindBucket size) t.returned⟩
  | refuse {t : SharedTrace} {size : ℕ} {m' : Mem} : heapAlloc t.mem size = .ok (none, m') →
      SharedOp t { t with mem := m' }
  | free {t : SharedTrace} {size : ℕ} {p : Ptr} : heapFindBucket size < 16 →
      p ∈ t.live (heapFindBucket size) →
      SharedOp t { t with
        mem := heapFree t.mem p size
        live := t.live.drop (heapFindBucket size) p }
  | newCtx {t : SharedTrace} {r : ℤ} {m' : Mem} : pctxNew t.mem = .ok (r, m') →
      SharedOp t { t with mem := m' }
  | freeCtx {t : SharedTrace} {p r : ℤ} {m' : Mem} :
      t.mem.dir ≠ frameNo (t.mem.pctxTable p.toNat) → pctxFree t.mem p = .ok (r, m') →
      SharedOp t { t with mem := m' }
  | loadCtx {t : SharedTrace} (p : ℤ) : SharedOp t { t with mem := (pctxLoad t.mem p).2 }
  | newFrame {t : SharedTrace} {f : U32} {m' : Mem} : frameNew t.mem = .ok (f, m') →
      SharedOp t { t with
        mem := m'
        held := insert (frameNo f) t.held }
  | setPage {t : SharedTrace} {page v : U32} {m' : Mem} : page < KERNEL_ADDR_BASE →
      frameNo v ∈ t.held → pageSet t.mem page v = .ok m' →
      SharedOp t { t with
        mem := m'
        held := t.held \ {frameNo v} }

/-- A run of operations after `init`. -/
def SharedRun (m₀ : Mem) : SharedTrace → Prop :=
  Relation.ReflTransGen SharedOp ⟨m₀, fun _ => [], ∅, ∅⟩

/-- What every run keeps. -/
structure HeapShared (K : BitVec 20) (t : SharedTrace) : Prop where
  shares : ∃ ρ, Shares t.mem K ρ t.held
  blocks : HeapInv t.mem t.live
  returned : ∀ x ∈ t.returned, KERNEL_HEAP ≤ x.1.toNat ∧ x.1.toNat + blockSize x.2 ≤ t.mem.brk

section Run

variable {K : BitVec 20} {A : Set U32} {m₀ : Mem} {t t' : SharedTrace}

theorem PagedBoot.shared (h : PagedBoot K A m₀) : HeapShared K ⟨m₀, fun _ => [], ∅, ∅⟩ := by
  obtain ⟨⟨ρ, hs, -⟩, F, L, -, hL, -⟩ := h.booted
  exact ⟨⟨ρ, hs⟩, hL.fewer fun b => List.nil_sublist _, fun x hx => absurd hx (Set.notMem_empty x)⟩

theorem HeapShared.same (h : HeapShared K t) {m' : Mem} {H : Set (BitVec 20)}
    (hs : ∃ ρ, Shares m' K ρ H) (hheap : SameHeap t.mem m') :
    HeapShared K { t with
      mem := m'
      held := H } :=
  ⟨hs, h.blocks.same hheap, fun x hx => by
    show _ ∧ _ ≤ m'.brk
    rw [hheap.brk]
    exact h.returned x hx⟩

/-- **Every operation** keeps the heap shared. -/
theorem SharedOp.shared (hop : SharedOp t t') (h : HeapShared K t) : HeapShared K t' := by
  obtain ⟨ρ, hs⟩ := h.shares
  cases hop with
  | @alloc size p m' ha =>
    obtain ⟨ρ', hs', -⟩ := hs.alloc ha
    rcases h.blocks.alloc ha with ⟨-, hnone, -⟩ | ⟨q, hb, hq, -, hinv, -⟩
    · cases hnone
    · obtain rfl := Option.some.inj hq
      refine ⟨⟨ρ', hs'⟩, hinv, fun x hx => ?_⟩
      rcases hx with rfl | hx
      · exact hinv.packed.inside (heapFindBucket size, p.toNat)
          ⟨p, List.mem_append_right _ (mem_push_self _ p), rfl⟩
      · obtain ⟨hlo, hhi⟩ := h.returned x hx
        exact ⟨hlo, hhi.trans (heapAlloc_brk ha)⟩
  | refuse ha =>
    obtain ⟨ρ', hs', -⟩ := hs.alloc ha
    rcases h.blocks.alloc ha with ⟨-, -, rfl⟩ | ⟨q, -, hq, -⟩
    · exact ⟨⟨ρ', hs'⟩, h.blocks, h.returned⟩
    · cases hq
  | @free size p hb hp =>
    refine ⟨⟨ρ, hs.free p size⟩, h.blocks.free hb hp, fun x hx => ?_⟩
    show _ ∧ _ ≤ (heapFree t.mem p size).brk
    rw [(heapFree_tables t.mem p size).2.2]
    exact h.returned x hx
  | newCtx hnew => exact h.same (hs.newCtx hnew) (pctxNew_heap hnew)
  | @freeCtx p r m' hload hfree =>
    refine h.same ?_ (pctxFree_heap hfree)
    rcases pctxFree_cases hfree with rfl | ⟨q, m₂, rfl, -, hlive, hspace, rfl⟩
    · exact ⟨ρ, hs⟩
    · exact hs.freeCtx hlive hload hspace
  | loadCtx p => exact h.same ⟨ρ, hs.load p⟩ (pctxLoad_heap t.mem p)
  | newFrame hnew =>
    obtain ⟨ρ', hs', -⟩ := hs.new hnew
    exact h.same ⟨ρ', hs'⟩ (frameNew_vars hnew).heap
  | setPage hpage hv hset =>
    obtain ⟨ρ', hs', -⟩ := hs.set hpage hv hset
    exact h.same ⟨ρ', hs'⟩ (pageSet_steps hset).vars.heap

theorem SharedRun.shared (hrun : SharedRun m₀ t) (hboot : PagedBoot K A m₀) : HeapShared K t := by
  induction hrun with
  | refl => exact hboot.shared
  | tail _ hop ih => exact hop.shared ih

/-- The directory maps the page of an address to the frame, present and writable. -/
def Mem.MapsRw (m : Mem) (S : BitVec 20) (va : U32) (g : BitVec 20) : Prop :=
  Rw (m.phys S (pdx va)) ∧ Rw (m.kword S (pdx va) (ptx va)) ∧
    frameNo (m.kword S (pdx va) (ptx va)) = g

/-- The pages below the break are the same in all contexts. -/
theorem Shares.maps {m : Mem} {ρ : BitVec 20 → Role} {H : Set (BitVec 20)} (h : Shares m K ρ H)
    {va : U32} (hlo : KERNEL_HEAP ≤ va.toNat) (hhi : va.toNat < m.brk) :
    ∃ g, ∀ c, m.LiveSpace c → m.MapsRw (m.ctxDir K c) va g := by
  obtain ⟨hbase, htop⟩ := heap_pages
  obtain ⟨hpage, hupto⟩ := h.heap
  set n := va.toNat / 4096 with hn
  have hlast := hupto.top
  have hn₁ : 0xF1000 ≤ n := by omega
  have hn₂ : n < m.brk / 4096 := by omega
  have hpd : pdx va = pageDir n := by
    apply BitVec.eq_of_toNat_eq
    rw [pdx_toNat, pageDir, BitVec.toNat_ofNat]
    omega
  have hpt : ptx va = pageTab n := by
    apply BitVec.eq_of_toNat_eq
    rw [ptx_toNat, pageTab, BitVec.toNat_ofNat]
  obtain ⟨hword, -⟩ := hupto.below n hn₁ hn₂
  obtain ⟨he, he'⟩ := heapPage_dir hn₁ (by omega)
  refine ⟨frameNo (m.hword K n), fun c hc => ?_⟩
  -- every directory names the table of the kernel layer
  have hentry := h.dirs.kern c hc (pageDir n) he he'
  rw [Mem.MapsRw, Mem.kword, hpd, hpt, hentry]
  exact ⟨(h.dirs.ktab _ he he' (hupto.tabs _ he he')).1, hword, rfl⟩

/-- **The blocks of the heap** are mapped by every live context to the same frames, whatever
was done after `init` and in whatever context. -/
theorem heap_shared (hboot : PagedBoot K A m₀) (hrun : SharedRun m₀ t) {p : Ptr} {b : ℕ}
    (hx : (p, b) ∈ t.returned) {va : U32} (hlo : p.toNat ≤ va.toNat)
    (hhi : va.toNat < p.toNat + blockSize b) :
    ∃ g, ∀ c, t.mem.LiveSpace c → t.mem.MapsRw (t.mem.ctxDir K c) va g := by
  have h := hrun.shared hboot
  obtain ⟨ρ, hs⟩ := h.shares
  obtain ⟨hbase, htop⟩ := h.returned (p, b) hx
  exact hs.maps (hbase.trans hlo) (hhi.trans_le htop)

end Run

/-- Memory as `boot.s` leaves it, with an image that ends at `0x110000`. -/
def earlyMem : Mem :=
  { flatMem with
    phys := fun f i =>
      if f = 0x105 then
        if i = 960 then frameAddr 0x106 + 0x203
        else if i = 1023 then frameAddr 0x105 + 0x203
        else 0
      else if f = 0x106 then (i.setWidth 32 <<< 12) ||| 3
      else 0
    cr3 := frameAddr 0x105
    kend := 0xF0110000 }

theorem earlyMem_early : EarlyMem earlyMem 0x105 0x106 :=
  ⟨⟨rfl, fun _ => rfl, fun _ => rfl, fun _ => rfl, rfl⟩,
    ⟨rfl, fun _ => rfl, rfl, rfl, rfl, fun _ => rfl⟩, rfl, fun _ => rfl, fun _ => rfl,
    by decide, by decide, by decide⟩

/-- A block and a context created after it. -/
theorem heap_shared_new : ∃ m₀ t p g, PagedBoot 0x105 ∅ m₀ ∧ SharedRun m₀ t ∧
    (p, 2) ∈ t.returned ∧ t.mem.LiveSpace (some 1) ∧ t.mem.MapsRw 0x105 p g ∧
    t.mem.MapsRw (frameNo (t.mem.pctxTable 1)) p g := by
  obtain ⟨m₀, hinit, hn₀⟩ := earlyMem_early.initPaging_total (n := 3)
    (plenty_pool rfl (by decide))
  have hboot : PagedBoot 0x105 ∅ m₀ := .paging earlyMem_early hinit
  obtain ⟨ρ₀, hsettling, -⟩ := earlyMem_early.paged hinit
  obtain ⟨⟨ρ, hs, -⟩, -⟩ := hboot.booted
  -- the first block cuts a page
  have hroom : m₀.brk + 4096 < KERNEL_HEAP_END := by
    rw [hsettling.vars.brk]
    decide
  obtain ⟨p, m₂, halloc, hn₂, -⟩ : ∃ p m₂, heapAlloc m₀ 16 = .ok (some p, m₂) ∧ Plenty 2 m₂ ∧
      m₂.brk ≤ m₀.brk + 4096 := hs.alloc_total (by decide) hroom hn₀
  -- and then a context is made
  obtain ⟨ρ₂, hs₂, -⟩ := hs.alloc halloc
  have htable : ∀ q, m₂.pctxTable q = 0 := by
    intro q
    obtain ⟨_, -, -, hgrow⟩ := hs.heap.alloc hs.dirs halloc
    rw [hgrow.table]
    exact hsettling.table earlyMem_early.cold.table q
  obtain ⟨m₃, hctx, hlive, -⟩ := hs₂.dirs.newCtx_total hs₂.window htable hn₂
  have hrun : SharedRun m₀ ⟨m₃, _, _, _⟩ := (Relation.ReflTransGen.single (.alloc halloc)).tail
    (.newCtx hctx)
  obtain ⟨g, hmaps⟩ := heap_shared hboot hrun (Set.mem_insert _ _) le_rfl
    (Nat.lt_add_of_pos_right (by decide))
  exact ⟨m₀, _, p, g, hboot, hrun, Set.mem_insert _ _, hlive, hmaps none trivial,
    hmaps (some 1) hlive⟩

end Pinion
