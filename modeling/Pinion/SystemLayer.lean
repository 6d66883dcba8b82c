/-
The system layer in every paging context.

`space_clone` copies the directory entries of the system layer, so that the contexts share the
tables there are at that time.  `init` is meant to make all of them before the first context, but
its second loop starts at `SYSTEM_ADDR_SIZE`: a segment gets its table when its first page is set,
in the directory that is loaded then.

* `SystemShared` — all contexts have the same entries for the pages of the system layer;
* `LayerRun` — the calls on contexts and pages, and switches of contexts;
* `LayerCallOk` — the calls that make no table in one context only, and free no directory or table
  that is in use;
* `Layered` — the directories have the same tables above `SYSTEM_ADDR_BASE`;
* `system_shared` — every run of such calls keeps the layer shared;
* `system_shared_fails` — a first table for a segment when there are two directories.
-/
import Pinion.Contexts
import Pinion.PageCalls
import Pinion.SharedHeap

open Runs

namespace Pinion

/-! ### The calls -/

/-- All contexts have the same entries for the pages of the system layer. -/
def SystemShared (K : BitVec 20) (m : Mem) : Prop :=
  ∀ c c', m.LiveSpace c → m.LiveSpace c' → ∀ page, SYSTEM_ADDR_BASE ≤ page →
    page < KERNEL_ADDR_BASE → m.entry (m.ctxDir K c) page = m.entry (m.ctxDir K c') page

/-- A call that returns, with the registers `i` of its caller, or a switch of contexts. -/
inductive LayerStep (ok : Mem → Call → Image → Prop) : Mem → Mem → Prop
  | call {m m' : Mem} {c : Call} {i i' : Image} :
      c ∈ [Call.newpctx, .freepctx, .setframe, .setflags] →
      (c = .setframe ∨ c = .setflags → i.ebx < TMP_MAP) → ok m c i →
      pagingCall c m i = .ok (i', m') → LayerStep ok m m'
  | switch {m : Mem} (p : ℤ) : LayerStep ok m (pctxLoad m p).2

def LayerRun (ok : Mem → Call → Image → Prop) : Mem → Mem → Prop :=
  Relation.ReflTransGen (LayerStep ok)

/-- The segment of a page of the system layer has a table, or there are no contexts yet. -/
def SegmentOk (m : Mem) (page : U32) : Prop :=
  SYSTEM_ADDR_BASE ≤ page → page < KERNEL_ADDR_BASE →
    Pres (m.phys m.dir (pdx page)) ∨ ∀ p, m.pctxTable p = 0

/-- A context can be freed when it is not loaded and its user pages map neither a directory nor
a table of another one. -/
def FreePctxOk (K : BitVec 20) (m : Mem) (p : ℕ) : Prop :=
  m.pctxTable p ≠ 0 → m.dir ≠ frameNo (m.pctxTable p) ∧
    ∀ g, m.UserLeaf (frameNo (m.pctxTable p)) g → ∀ c, m.LiveSpace c → c ≠ some p →
      ¬m.TableOf K c g

/-- The calls that keep the layer shared. -/
def LayerCallOk (K : BitVec 20) (m : Mem) (c : Call) (i : Image) : Prop :=
  (c = .setframe ∨ c = .setflags → SegmentOk m i.ebx) ∧
    (c = .freepctx → ∀ p : ℕ, i.ebx.toInt = p → FreePctxOk K m p)

/-! ### The invariant -/

/-- The directories have the tables of the kernel layer, and the same ones of the system
layer. -/
structure Layered (m : Mem) (K : BitVec 20) (ρ : BitVec 20 → Role) : Prop where
  dirs : Dirs m K ρ
  kernel : ∀ e : BitVec 10, 960 ≤ e.toNat → e.toNat < 1022 → Pres (m.phys K e)
  system : ∀ c, m.LiveSpace c → ∀ e : BitVec 10, 768 ≤ e.toNat → e.toNat < 960 →
    m.phys (m.ctxDir K c) e = m.phys K e

theorem system_index {page : U32} (hlo : SYSTEM_ADDR_BASE ≤ page) (hhi : page < KERNEL_ADDR_BASE) :
    768 ≤ (pdx page).toNat ∧ (pdx page).toNat < 960 := by
  rw [BitVec.le_def, show SYSTEM_ADDR_BASE.toNat = 4194304 * 768 from rfl] at hlo
  rw [BitVec.lt_def, show KERNEL_ADDR_BASE.toNat = 4194304 * 960 from rfl] at hhi
  rw [pdx_toNat]
  omega

theorem system_page {page : U32} (hlo : 768 ≤ (pdx page).toNat) (hhi : (pdx page).toNat < 960) :
    SYSTEM_ADDR_BASE ≤ page ∧ page < KERNEL_ADDR_BASE := by
  have hpage := page.isLt
  rw [pdx_toNat] at hlo hhi
  rw [BitVec.le_def, BitVec.lt_def, show SYSTEM_ADDR_BASE.toNat = 4194304 * 768 from rfl,
    show KERNEL_ADDR_BASE.toNat = 4194304 * 960 from rfl]
  omega

section Layer

variable {m m' : Mem} {K T : BitVec 20} {ρ : BitVec 20 → Role} {A : Set U32} {page v : U32}

/-- With the same tables, the entries are read from the same words. -/
theorem Layered.shared (h : Layered m K ρ) : SystemShared K m := by
  intro c c' hc hc' page hlo hhi
  obtain ⟨he, he'⟩ := system_index hlo hhi
  rw [Mem.entry, Mem.entry, h.system c hc _ he he', h.system c' hc' _ he he']

theorem Layered.window (h : Layered m K ρ) : Pres (m.phys K 1020) :=
  h.kernel 1020 (by decide) (by decide)

/-- `page_set` writes the entry of its page, and at most one entry of the loaded directory. -/
theorem Dirs.set_entries (h : Dirs m K ρ) (hlt : (pdx page).toNat < 1022)
    (honly : 960 ≤ (pdx page).toNat → ¬Pres (m.phys m.dir (pdx page)) → ∀ p, m.pctxTable p = 0)
    (hs : pageSet m page v = .ok m') :
    ∃ ρ', Dirs m' K ρ' ∧ SameVars m m' ∧ m'.entry m.dir page = v ∧
      ∀ c, m.LiveSpace c → ∀ e, m'.phys (m.ctxDir K c) e = m.phys (m.ctxDir K c) e ∨
        m.ctxDir K c = m.dir ∧ e = pdx page ∧ ¬Pres (m.phys m.dir (pdx page)) := by
  obtain ⟨m₁, ρ', h₁, hstep, h₂, rfl⟩ := h.set hs hlt honly
  obtain ⟨c₁, hc₁, hd₁⟩ := h₁.cur
  have hdir : m₁.dir = m.dir := congrArg frameNo hstep.vars.cr3
  have hpres : Pres (m₁.phys m₁.dir (pdx page)) := by
    rw [hdir]
    exact hstep.pres
  have hT : ∀ c, ρ' (m₁.tab page) ≠ .dir c := by
    intro c
    rw [Mem.tab, hd₁, h₁.table_role hc₁ hlt (hd₁ ▸ hpres)]
    exact tableRole_ne_dir c₁ c _
  -- no directory is the table that is written
  have hpoke : ∀ c, m₁.LiveSpace c → ∀ e,
      (m₁.poke (m₁.tab page) (ptx page) v).phys (m₁.ctxDir K c) e = m₁.phys (m₁.ctxDir K c) e := by
    intro c hc e
    refine poke_of_ne _ _ _ _ _ _ (Or.inl fun hdT => ?_)
    exact hT c (hdT ▸ h₁.dir c hc)
  refine ⟨ρ', h₂, hstep.vars.trans ⟨rfl, rfl, rfl, rfl, rfl, rfl, rfl⟩, ?_, fun c hc e => ?_⟩
  · have hentry := hpoke c₁ hc₁ (pdx page)
    rw [← hd₁] at hentry
    rw [← hdir, Mem.entry, hentry, if_pos hpres]
    exact poke_self _ _ _ _
  · obtain ⟨hlive, hd⟩ := liveSpace_congr K hstep.vars.table c
    rw [← hd, hpoke c (hlive.mpr hc) e, hd]
    exact hstep.entry h hc e

/-- The tables of the kernel layer are there, whatever page is set. -/
theorem Layered.only (h : Layered m K ρ) (hlt : (pdx page).toNat < 1022) :
    960 ≤ (pdx page).toNat → ¬Pres (m.phys m.dir (pdx page)) → ∀ p, m.pctxTable p = 0 := by
  intro hlo hn
  obtain ⟨c, hc, hd⟩ := h.dirs.cur
  rw [hd, h.dirs.kern c hc _ hlo hlt] at hn
  exact absurd (h.kernel _ hlo hlt) hn

/-- **`page_set`** below the temporary mappings. -/
theorem Layered.set (h : Layered m K ρ) (hlt : (pdx page).toNat < 1022) (hok : SegmentOk m page)
    (hs : pageSet m page v = .ok m') :
    ∃ ρ', Layered m' K ρ' ∧ m'.entry m'.dir page = v := by
  obtain ⟨ρ', h', hvars, hentry, hkeep⟩ := h.dirs.set_entries hlt (h.only hlt) hs
  have hdir : m'.dir = m.dir := congrArg frameNo hvars.cr3
  refine ⟨ρ', ⟨h', fun e hlo hhi => ?_, fun c hc e hlo hhi => ?_⟩, hdir ▸ hentry⟩
  · rcases hkeep none trivial e with heq | ⟨hK, rfl, hn⟩
    · rw [show m'.phys K e = m.phys K e from heq]
      exact h.kernel e hlo hhi
    · rw [← hK] at hn
      exact absurd (h.kernel _ hlo hhi) hn
  · obtain ⟨hlive, hd⟩ := liveSpace_congr K hvars.table c
    by_cases hall : ∀ p, m.pctxTable p = 0
    · -- there is only the boot context
      cases c with
      | none => rfl
      | some p => exact absurd (hall p) (hlive.mp hc)
    · have hsame : ∀ c, m.LiveSpace c → m'.phys (m.ctxDir K c) e = m.phys (m.ctxDir K c) e := by
        intro c hc
        rcases hkeep c hc e with heq | ⟨-, rfl, hn⟩
        · exact heq
        · obtain ⟨hlow, hhigh⟩ := system_page hlo hhi
          rcases hok hlow hhigh with hp | hz
          · exact absurd hp hn
          · exact absurd hz hall
      rw [hd, hsame c (hlive.mp hc), show m'.phys K e = m.phys K e from hsame none trivial]
      exact h.system c (hlive.mp hc) e hlo hhi

/-- **`space_clone`** into a new entry of the context table. -/
theorem Layered.clone (h : Layered m K ρ) {i : ℕ} {f : U32} (hi : m.pctxTable i = 0)
    (hc : spaceClone m = .ok (f, m')) :
    (∃ ρ', Layered (m'.withCtx i f) K ρ') ∧
      ∀ e : BitVec 10, e.toNat < 1022 → m'.phys K e = m.phys K e := by
  obtain ⟨m₁, hnew⟩ := spaceClone_new hc
  cases hc.symm.trans (h.dirs.cloned_eq h.window hnew)
  have hvars := frameNew_vars hnew
  have hdir : m₁.dir = m.dir := congrArg frameNo hvars.cr3
  have hentry := fun {c : Option ℕ} (hc : m.LiveSpace c) {e : BitVec 10} =>
    h.dirs.cloned_entry h.window hnew hc (e := e)
  have hboot : ∀ e : BitVec 10, e.toNat < 1022 → (m₁.cloned f).phys K e = m.phys K e :=
    fun e he => hentry (c := none) trivial he
  refine ⟨⟨_, h.dirs.clone h.window hnew hi, fun e hlo hhi => ?_, fun c hc e hlo hhi => ?_⟩,
    hboot⟩
  · show Pres ((m₁.cloned f).phys K e)
    rw [hboot e hhi]
    exact h.kernel e hlo hhi
  · show (m₁.cloned f).phys (((m₁.cloned f).withCtx i f).ctxDir K c) e = (m₁.cloned f).phys K e
    rw [hboot e (by omega)]
    rcases withCtx_live (m₁.cloned f) K i f hc with ⟨-, -, hd⟩ | ⟨-, hc', hd⟩
    · -- the new directory has the entries of the one that is loaded
      obtain ⟨c₀, hc₀, hd₀⟩ := h.dirs.cur
      rw [hd, Mem.cloned, fill_self, Mem.cloneDir, if_neg (by omega), if_pos (by omega),
        frameNew_phys hnew, hdir, hd₀]
      exact h.system c₀ hc₀ e hlo hhi
    · obtain ⟨hlive, hd'⟩ := liveSpace_congr K hvars.table c
      rw [hd, show (m₁.cloned f).ctxDir K c = m.ctxDir K c from hd',
        hentry (hlive.mp hc') (by omega)]
      exact h.system c (hlive.mp hc') e hlo hhi

/-- **`pctx_new`**. -/
theorem Layered.newCtx (h : Layered m K ρ) {r : ℤ} (hnew : pctxNew m = .ok (r, m')) :
    (∃ ρ', Layered m' K ρ') ∧ ∀ e : BitVec 10, e.toNat < 1022 → m'.phys K e = m.phys K e := by
  obtain ⟨m₁, hfirst, hrest⟩ := pctxNew_cases hnew
  have h₁ : (∃ ρ', Layered m₁ K ρ') ∧
      ∀ e : BitVec 10, e.toNat < 1022 → m₁.phys K e = m.phys K e := by
    rcases hfirst with ⟨-, rfl⟩ | ⟨hz, f, m₂, hc, rfl⟩
    · exact ⟨⟨ρ, h⟩, fun _ _ => rfl⟩
    · exact h.clone hz hc
  obtain ⟨⟨ρ₁, h₁⟩, hboot₁⟩ := h₁
  rcases hrest with ⟨-, rfl⟩ | ⟨i, f, m₂, -, -, hi, hc, rfl⟩
  · exact ⟨⟨ρ₁, h₁⟩, hboot₁⟩
  · obtain ⟨h₂, hboot₂⟩ := h₁.clone hi hc
    exact ⟨h₂, fun e he => (hboot₂ e he).trans (hboot₁ e he)⟩

/-- **`space_free`** of a context. -/
theorem Layered.freeCtx (h : Layered m K ρ) {p : ℕ} (hp : m.pctxTable p ≠ 0)
    (hok : FreePctxOk K m p) (hfree : spaceFree m (m.pctxTable p) = .ok m') :
    ∃ ρ', Layered (m'.withCtx p 0) K ρ' := by
  obtain ⟨hload, hleaf⟩ := hok hp
  obtain ⟨m₂, hm₂, hF, hdirs⟩ := h.dirs.freeSpace hp hload hleaf
  cases hfree.symm.trans hm₂
  have hentry := fun {c : Option ℕ} (hc : m.LiveSpace c) (hcp : c ≠ some p) {e : BitVec 10} =>
    h.dirs.freed_entry hp hload hF hc hcp (e := e)
  have hboot : ∀ e : BitVec 10, e.toNat < 1022 → m'.phys K e = m.phys K e :=
    fun e he => hentry (c := none) trivial (by simp) he
  refine ⟨_, hdirs, fun e hlo hhi => ?_, fun c hc e hlo hhi => ?_⟩
  · show Pres (m'.phys K e)
    rw [hboot e hhi]
    exact h.kernel e hlo hhi
  · show m'.phys ((m'.withCtx p 0).ctxDir K c) e = m'.phys K e
    rw [hboot e (by omega)]
    rcases withCtx_live m' K p 0 hc with ⟨-, hz, -⟩ | ⟨hcp, hc', hd⟩
    · exact absurd rfl hz
    · obtain ⟨hlive, hd'⟩ := liveSpace_congr K hF.vars.table c
      have hc₀ : m.LiveSpace c := hlive.mp hc'
      rw [hd, show m'.ctxDir K c = m.ctxDir K c from hd', hentry hc₀ hcp (by omega)]
      exact h.system c hc₀ e hlo hhi

/-- **`pctx_load`**. -/
theorem Layered.load (h : Layered m K ρ) (p : ℤ) : Layered (pctxLoad m p).2 K ρ := by
  unfold pctxLoad
  split
  · exact h
  · split
    · exact h
    · rename_i hlive
      exact ⟨h.dirs.load hlive, h.kernel, h.system⟩

end Layer

/-! ### Runs -/

section Run

variable {m₀ m m' : Mem} {K T : BitVec 20} {ρ : BitVec 20 → Role} {A : Set U32}

/-- The contexts are as `boot.s` has left them. -/
theorem PagedBoot.ctx (h : PagedBoot K A m) :
    (∀ p, m.pctxTable p = 0) ∧ m.activePctx = 0 ∧ m.dir = K := by
  have hsame : ∀ {m m' : Mem}, SameCtx m m' →
      ((∀ p, m.pctxTable p = 0) ∧ m.activePctx = 0 ∧ m.dir = K) →
      (∀ p, m'.pctxTable p = 0) ∧ m'.activePctx = 0 ∧ m'.dir = K := by
    intro m m' hs h
    rw [hs.table, hs.active, Mem.dir, hs.cr3]
    exact h
  induction h with
  | paging hearly hi =>
    obtain ⟨ρ, hs, -⟩ := hearly.paged hi
    refine ⟨hs.table hearly.cold.table, ?_, hs.dir hearly.dir⟩
    rw [hs.vars.active]
    exact hearly.cold.active
  | frame _ _ _ hadd ih => exact hsame (frameAdd_ctx hadd) ih
  | load _ _ ha ih => exact hsame (memAlloc_steps ha).vars.ctx ih
  | alloc _ ha ih => exact hsame (heapAlloc_ctx ha) ih

/-- After `init` there are no contexts. -/
theorem PagedBoot.layered (h : PagedBoot K A m) : ∃ ρ, Layered m K ρ := by
  obtain ⟨⟨ρ, hs, -⟩, -⟩ := h.booted
  refine ⟨ρ, hs.dirs, hs.heap.2.tabs, fun c hc e _ _ => ?_⟩
  cases c with
  | none => rfl
  | some p => exact absurd (h.ctx.1 p) hc

/-- **Every call** that meets the condition keeps the directories alike. -/
theorem LayerStep.layered (hstep : LayerStep (LayerCallOk K) m m') (h : ∃ ρ, Layered m K ρ) :
    ∃ ρ, Layered m' K ρ := by
  obtain ⟨ρ, h⟩ := h
  cases hstep with
  | @call _ c i i' hc hpage hok hcall =>
    cases c with
    | newpctx =>
      obtain ⟨⟨r, m₁⟩, hnew, hcall⟩ := bind_eq_ok.mp hcall
      cases hcall
      exact (h.newCtx hnew).1
    | freepctx =>
      obtain ⟨⟨r, m₁⟩, hfree, hcall⟩ := bind_eq_ok.mp hcall
      cases hcall
      rcases pctxFree_cases hfree with rfl | ⟨p, m₂, hp, -, hlive, hspace, rfl⟩
      · exact ⟨ρ, h⟩
      · exact h.freeCtx hlive (hok.2 rfl p hp) hspace
    | setframe =>
      obtain ⟨e, -, hcall⟩ := bind_eq_ok.mp hcall
      obtain ⟨m₁, hset, hcall⟩ := bind_eq_ok.mp hcall
      cases hcall
      obtain ⟨ρ', h', -⟩ := h.set (page_lt (hpage (Or.inl rfl))) (hok.1 (Or.inl rfl)) hset
      exact ⟨ρ', h'⟩
    | setflags =>
      obtain ⟨e, -, hcall⟩ := bind_eq_ok.mp hcall
      obtain ⟨m₁, hset, hcall⟩ := bind_eq_ok.mp hcall
      cases hcall
      obtain ⟨ρ', h', -⟩ := h.set (page_lt (hpage (Or.inr rfl))) (hok.1 (Or.inr rfl)) hset
      exact ⟨ρ', h'⟩
    | _ => simp at hc
  | switch p => exact ⟨ρ, h.load p⟩

theorem LayerRun.layered (hrun : LayerRun (LayerCallOk K) m₀ m) (hboot : PagedBoot K A m₀) :
    ∃ ρ, Layered m K ρ := by
  induction hrun with
  | refl => exact hboot.layered
  | tail _ hstep ih => exact hstep.layered ih

/-- **The system layer is shared** along every run whose calls meet the condition, and a page set
there in one context is set in all of them. -/
theorem system_shared (hboot : PagedBoot K A m₀) (hrun : LayerRun (LayerCallOk K) m₀ m) :
    SystemShared K m ∧ ∀ page v m', SYSTEM_ADDR_BASE ≤ page → page < KERNEL_ADDR_BASE →
      SegmentOk m page → pageSet m page v = .ok m' →
      ∀ c, m'.LiveSpace c → m'.entry (m'.ctxDir K c) page = v := by
  obtain ⟨ρ, h⟩ := hrun.layered hboot
  refine ⟨h.shared, fun page v m' hlo hhi hok hs c hc => ?_⟩
  obtain ⟨-, hindex⟩ := system_index hlo hhi
  obtain ⟨ρ', h', hentry⟩ := h.set (by omega) hok hs
  obtain ⟨c₀, hc₀, hd₀⟩ := h'.dirs.cur
  rw [h'.shared c c₀ hc hc₀ page hlo hhi, ← hd₀]
  exact hentry

end Run

/-- The registers of `SETFRAME`. -/
def setframeImage (page frame : U32) : Image := { Image.zero with ebx := page, ecx := frame }

theorem setframe_total {m : Mem} {K : BitVec 20} {ρ : BitVec 20 → Role} {n : ℕ} (h : Dirs m K ρ)
    (hn : Plenty (n + 1) m) (page frame : U32) :
    ∃ i' m', pagingCall .setframe m (setframeImage page frame) = .ok (i', m') ∧
      pageSet m page (pageFmt frame (m.entry m.dir page)) = .ok m' ∧ Plenty n m' := by
  set v := pageFmt frame (m.entry m.dir page) with hv
  obtain ⟨m', hset, hn', -⟩ := h.set_total hn page v
  refine ⟨{ setframeImage page frame with eax := 0 }, m',
    bind_eq_ok.mpr ⟨_, h.selfMapped.get page, ?_⟩, hset, hn'⟩
  exact bind_eq_ok.mpr ⟨m', hset, rfl⟩

theorem newpctx_step {ok : Mem → Call → Image → Prop} {m m' : Mem} {r : ℤ}
    (hok : ok m .newpctx Image.zero) (hnew : pctxNew m = .ok (r, m')) : LayerStep ok m m' :=
  .call (by simp) (by simp) hok (bind_eq_ok.mpr ⟨_, hnew, rfl⟩)

theorem setframe_step {ok : Mem → Call → Image → Prop} {m m' : Mem} {i' : Image} {page frame : U32}
    (hpage : page < TMP_MAP) (hok : ok m .setframe (setframeImage page frame))
    (hset : pagingCall .setframe m (setframeImage page frame) = .ok (i', m')) :
    LayerStep ok m m' := .call (by simp) (fun _ => hpage) hok hset

/-- A page of the system layer that is set before there are contexts, and again afterwards. -/
theorem system_shared_set : ∃ m₀ m m', PagedBoot 0x105 ∅ m₀ ∧
    LayerRun (LayerCallOk 0x105) m₀ m ∧ SystemShared 0x105 m ∧ m.LiveSpace (some 1) ∧
    pageSet m 0xD0000000 0x901003 = .ok m' ∧
    m'.entry (m'.ctxDir 0x105 (some 1)) 0xD0000000 = 0x901003 := by
  obtain ⟨m₀, hinit, hn₀⟩ := earlyMem_early.initPaging_total (n := 3) (plenty_pool rfl (by decide))
  have hboot : PagedBoot 0x105 ∅ m₀ := .paging earlyMem_early hinit
  obtain ⟨_, hsettling, -⟩ := earlyMem_early.paged hinit
  obtain ⟨ρ₀, h₀⟩ := hboot.layered
  have hnone : SegmentOk m₀ 0xD0000000 := fun _ _ => Or.inr hboot.ctx.1
  obtain ⟨i₁, m₁, hcall₁, hset₁, hn₁⟩ := setframe_total h₀.dirs hn₀ 0xD0000000 0x900000
  have hstep₁ : LayerStep (LayerCallOk 0x105) m₀ m₁ :=
    setframe_step (by decide) ⟨fun _ => hnone, by simp⟩ hcall₁
  obtain ⟨ρ₁, h₁, hentry₁⟩ := h₀.set (by decide) hnone hset₁
  have hvars := (pageSet_steps hset₁).vars
  have htable : ∀ p, m₁.pctxTable p = 0 := fun p => hvars.table ▸ hboot.ctx.1 p
  -- the contexts are cloned from the boot directory
  obtain ⟨m₂, hnew, hlive, -⟩ := h₁.dirs.newCtx_total h₁.window htable hn₁
  obtain ⟨⟨ρ₂, h₂⟩, hbase⟩ := h₁.newCtx hnew
  have hrun : LayerRun (LayerCallOk 0x105) m₀ m₂ :=
    (Relation.ReflTransGen.single hstep₁).tail (newpctx_step ⟨by simp, by simp⟩ hnew)
  obtain ⟨hshared, hset⟩ := system_shared hboot hrun
  -- the table of the segment is there
  have hindex : pdx 0xD0000000 = 832 := by decide
  have hdir₁ : m₁.dir = 0x105 := by
    rw [Mem.dir, hvars.cr3]
    exact hsettling.dir earlyMem_early.dir
  have hdir₂ : m₂.dir = 0x105 := by
    rw [Mem.dir, (pctxNew_ctx hnew).1]
    exact hdir₁
  have hpres : Pres (m₂.phys m₂.dir (pdx 0xD0000000)) := by
    rw [hdir₂, hindex, hbase 832 (by decide), ← hdir₁, ← hindex]
    by_contra hn
    have hzero : m₀.entry m₀.dir 0xD0000000 = 0 := by
      refine if_neg ?_
      rw [hindex, hsettling.dir earlyMem_early.dir, hsettling.bare 832 (by decide) (by decide)]
      exact not_pres_zero
    rw [Mem.entry, if_neg hn, hzero] at hentry₁
    exact absurd hentry₁ (by decide)
  have hset₂ := h₂.dirs.selfMapped.set_present hpres 0x901003
  refine ⟨m₀, m₂, _, hboot, hrun, hshared, hlive, hset₂, ?_⟩
  exact hset _ _ _ (by decide) (by decide) (fun _ _ => Or.inl hpres) hset₂ (some 1) hlive

/-- **A segment that gets its first table when there are contexts** is not shared: `NEWPCTX`, a
switch to the new context, and `SETFRAME`. -/
theorem system_shared_fails : ∃ m₀ m, PagedBoot 0x105 ∅ m₀ ∧
    LayerRun (fun _ _ _ => True) m₀ m ∧ ¬SystemShared 0x105 m := by
  obtain ⟨m₀, hinit, hn₀⟩ := earlyMem_early.initPaging_total (n := 3) (plenty_pool rfl (by decide))
  have hboot : PagedBoot 0x105 ∅ m₀ := .paging earlyMem_early hinit
  obtain ⟨_, hsettling, -⟩ := earlyMem_early.paged hinit
  obtain ⟨ρ₀, h₀⟩ := hboot.layered
  obtain ⟨m₁, hnew, hlive, hn₁⟩ := h₀.dirs.newCtx_total h₀.window hboot.ctx.1 hn₀
  obtain ⟨⟨ρ₁, h₁⟩, hbase⟩ := h₀.newCtx hnew
  -- context 1 is loaded
  have hload : (pctxLoad m₁ 1).2 = { m₁ with cr3 := m₁.pctxTable 1, activePctx := 1 } :=
    pctxLoad_live ⟨by decide, by decide, hlive⟩
  have h₂ := h₁.load 1
  have hstep₂ : LayerStep (fun _ _ _ => True) m₁ (pctxLoad m₁ 1).2 := .switch 1
  rw [hload] at h₂ hstep₂
  set m₂ : Mem := { m₁ with cr3 := m₁.pctxTable 1, activePctx := 1 } with hm₂
  have hdir : m₂.dir = m₂.ctxDir 0x105 (some 1) := rfl
  -- its directory has no table for the segment, nor has that of `boot.s`
  have hzero : m₂.phys 0x105 832 = 0 := by
    show m₁.phys 0x105 832 = 0
    rw [hbase 832 (by decide)]
    exact hsettling.bare 832 (by decide) (by decide)
  have habsent : ¬Pres (m₂.phys m₂.dir 832) := by
    rw [hdir, h₂.system (some 1) hlive 832 (by decide) (by decide), hzero]
    exact not_pres_zero
  obtain ⟨i₃, m₃, hcall, hset, -⟩ := setframe_total h₂.dirs
    (hn₁.same ⟨rfl, rfl, rfl, rfl, rfl, rfl⟩ : Plenty 1 m₂) 0xD0000000 0x900000
  refine ⟨m₀, m₃, hboot, ((Relation.ReflTransGen.single (newpctx_step trivial hnew)).tail
    hstep₂).tail (setframe_step (by decide) trivial hcall), fun hshared => ?_⟩
  have hindex : pdx 0xD0000000 = 832 := by decide
  have hnone : m₂.entry m₂.dir 0xD0000000 = 0 := if_neg (by rw [hindex]; exact habsent)
  rw [hnone] at hset
  obtain ⟨ρ₃, h₃, hvars, hentry, hkeep⟩ :=
    h₂.dirs.set_entries (by decide) (h₂.only (by decide)) hset
  obtain ⟨hlive₃, hd₃⟩ := liveSpace_congr 0x105 hvars.table (some 1)
  have heq := hshared none (some 1) trivial (hlive₃.mpr hlive) 0xD0000000 (by decide) (by decide)
  rw [hd₃, ← hdir, hentry] at heq
  have hboot₃ : m₃.phys 0x105 832 = 0 := by
    rcases hkeep none trivial 832 with hsame | ⟨hd, -⟩
    · exact hsame.trans hzero
    · have hsame : none = some 1 := h₂.dirs.ctxDir_inj trivial hlive hd
      cases hsame
  have hz : m₃.entry (m₃.ctxDir 0x105 none) 0xD0000000 = 0 := by
    refine if_neg ?_
    rw [hindex]
    show ¬Pres (m₃.phys 0x105 832)
    rw [hboot₃]
    exact not_pres_zero
  rw [hz] at heq
  exact absurd heq (by decide)

end Pinion
