/-
The pages of the kernel heap.

Every page below the break is mapped by the kernel tables, which all directories share,
to a frame of its own.

* `HeapUpto m D₀ ρ N` — the heap pages below number `N` are mapped, those above are not;
* `HeapPages` — the same, for the break;
* `Grow` — what a growing heap leaves as it was;
* `HeapUpto.map`, `HeapUpto.allocLoop` — one more page, and the loop of `mem_alloc`;
* `HeapPages.valloc`, `HeapPages.alloc` — `heap_valloc` and `heap_alloc`.
-/
import Pinion.Directories
import Pinion.HeapBlocks
import Pinion.Halting

open Runs

namespace Pinion

variable {m m' : Mem} {D₀ : BitVec 20} {ρ ρ' : BitVec 20 → Role}

/-! ### Page numbers -/

/-- The address of a page. -/
def pageAddr (n : ℕ) : U32 := BitVec.ofNat 32 (4096 * n)

/-- The directory index of a page. -/
def pageDir (n : ℕ) : BitVec 10 := BitVec.ofNat 10 (n / 1024)

/-- The table index of a page. -/
def pageTab (n : ℕ) : BitVec 10 := BitVec.ofNat 10 n

theorem pageAddr_indices {n : ℕ} (hn : n < 2 ^ 20) :
    pdx (pageAddr n) = pageDir n ∧ ptx (pageAddr n) = pageTab n := by
  unfold pageAddr pageDir pageTab
  constructor
  · apply BitVec.eq_of_toNat_eq
    rw [pdx_toNat, BitVec.toNat_ofNat, BitVec.toNat_ofNat]
    omega
  · apply BitVec.eq_of_toNat_eq
    rw [ptx_toNat, BitVec.toNat_ofNat, BitVec.toNat_ofNat]
    omega

theorem page_inj {n k : ℕ} (hn : n < 2 ^ 20) (hk : k < 2 ^ 20) (hd : pageDir n = pageDir k)
    (ht : pageTab n = pageTab k) : n = k := by
  have hd' := congrArg BitVec.toNat hd
  have ht' := congrArg BitVec.toNat ht
  simp only [pageDir, pageTab, BitVec.toNat_ofNat] at hd' ht'
  omega

/-- The number of the first page of the heap, and of the first one above it. -/
theorem heap_pages : KERNEL_HEAP = 4096 * 0xF1000 ∧ KERNEL_HEAP_END = 4096 * 0xF8000 := by decide

theorem heapPage_dir {n : ℕ} (hlo : 0xF1000 ≤ n) (hhi : n < 0xF8000) :
    960 ≤ (pageDir n).toNat ∧ (pageDir n).toNat < 1022 := by
  rw [pageDir, BitVec.toNat_ofNat]
  omega

/-! ### Mapped pages -/

/-- The table entry of a heap page. -/
def Mem.hword (m : Mem) (D₀ : BitVec 20) (n : ℕ) : U32 := m.kword D₀ (pageDir n) (pageTab n)

structure HeapUpto (m : Mem) (D₀ : BitVec 20) (ρ : BitVec 20 → Role) (N : ℕ) : Prop where
  tabs : ∀ e : BitVec 10, 960 ≤ e.toNat → e.toNat < 1022 → Pres (m.phys D₀ e)
  base : 0xF1000 ≤ N
  top : N ≤ 0xF8000
  below : ∀ n, 0xF1000 ≤ n → n < N → Rw (m.hword D₀ n) ∧ ρ (frameNo (m.hword D₀ n)) = .heap n
  above : ∀ n, N ≤ n → n < 0xF8000 → ¬Pres (m.hword D₀ n)

/-- The heap is mapped up to the break. -/
def HeapPages (m : Mem) (D₀ : BitVec 20) (ρ : BitVec 20 → Role) : Prop :=
  4096 ∣ m.brk ∧ HeapUpto m D₀ ρ (m.brk / 4096)

/-- The heap has grown above page `N`: directories, mapped pages and frames in use
outside the kernel tables are as they were. -/
structure Grow (m m' : Mem) (D₀ : BitVec 20) (ρ ρ' : BitVec 20 → Role) (N : ℕ) : Prop where
  cr3 : m'.cr3 = m.cr3
  table : m'.pctxTable = m.pctxTable
  dirs : ∀ c, m.LiveSpace c → m'.phys (m.ctxDir D₀ c) = m.phys (m.ctxDir D₀ c)
  roles : ∀ g, ρ g ≠ .avail → ρ' g = ρ g
  frames : ∀ g, ρ g ≠ .avail → (∀ e, ρ g ≠ .ktab e) → m'.phys g = m.phys g
  words : ∀ n, 0xF1000 ≤ n → n < N → m'.hword D₀ n = m.hword D₀ n

theorem Grow.refl (m : Mem) (D₀ : BitVec 20) (ρ : BitVec 20 → Role) (N : ℕ) :
    Grow m m D₀ ρ ρ N :=
  ⟨rfl, rfl, fun _ _ => rfl, fun _ _ => rfl, fun _ _ _ => rfl, fun _ _ _ => rfl⟩

theorem Grow.trans {m₁ m₂ m₃ : Mem} {ρ₁ ρ₂ ρ₃ : BitVec 20 → Role} {N M : ℕ}
    (h : Grow m₁ m₂ D₀ ρ₁ ρ₂ N) (h' : Grow m₂ m₃ D₀ ρ₂ ρ₃ M) (hNM : N ≤ M) :
    Grow m₁ m₃ D₀ ρ₁ ρ₃ N := by
  refine ⟨h'.cr3.trans h.cr3, h'.table.trans h.table, fun c hc => ?_, fun g hg => ?_,
    fun g hg hk => ?_, fun n hlo hhi => ?_⟩
  · obtain ⟨hlive, hd⟩ := liveSpace_congr D₀ h.table c
    have hdirs := h'.dirs c (hlive.mpr hc)
    rw [hd] at hdirs
    exact hdirs.trans (h.dirs c hc)
  · rw [h'.roles g (by rw [h.roles g hg]; exact hg), h.roles g hg]
  · have hr := h.roles g hg
    rw [h'.frames g (by rw [hr]; exact hg) (by rw [hr]; exact hk), h.frames g hg hk]
  · rw [h'.words n hlo (by omega), h.words n hlo hhi]

/-- In every context a kernel page has the entry of the shared table. -/
theorem Dirs.entry_kernel (h : Dirs m D₀ ρ) {c : Option ℕ} (hc : m.LiveSpace c) {page : U32}
    (hlo : 960 ≤ (pdx page).toNat) (hhi : (pdx page).toNat < 1022)
    (hp : Pres (m.phys D₀ (pdx page))) :
    m.entry (m.ctxDir D₀ c) page = m.kword D₀ (pdx page) (ptx page) := by
  rw [Mem.entry, h.kern c hc _ hlo hhi, if_pos hp]
  rfl

/-- One more page of the heap. -/
theorem HeapUpto.map {N : ℕ} (hu : HeapUpto m D₀ ρ N) (h : Dirs m D₀ ρ) (hN : N < 0xF8000)
    {f v : U32} {m₁ : Mem} (hnew : frameNew m = .ok (f, m₁)) (hrw : Rw v)
    (hfv : frameNo v = frameNo f) (hset : pageSet m₁ (pageAddr N) v = .ok m') :
    ∃ ρ', Dirs m' D₀ ρ' ∧ HeapUpto m' D₀ ρ' (N + 1) ∧ Grow m m' D₀ ρ ρ' N := by
  have hbase := hu.base
  obtain ⟨hf, h₁⟩ := h.new hnew (.heap N)
  have hphys := frameNew_phys hnew
  have hvars := frameNew_vars hnew
  obtain ⟨hpd, hpt⟩ := pageAddr_indices (show N < 2 ^ 20 by omega)
  obtain ⟨hlo, hhi⟩ := heapPage_dir hbase hN
  have htabs : ∀ e : BitVec 10, 960 ≤ e.toNat → e.toNat < 1022 → Pres (m₁.phys D₀ e) := by
    rw [hphys]
    exact hu.tabs
  obtain ⟨c, hc, hd⟩ := h₁.cur
  have hpres : Pres (m₁.phys m₁.dir (pdx (pageAddr N))) := by
    rw [hpd, hd, h₁.kern c hc _ hlo hhi]
    exact htabs _ hlo hhi
  -- the table of the page exists, so only one word of it changes
  cases hset.symm.trans (h₁.selfMapped.set_present hpres v)
  have htouch : TouchStep m₁ m₁ (Function.update ρ (frameNo f) (.heap N))
      (Function.update ρ (frameNo f) (.heap N)) (pageAddr N) :=
    ⟨SameVars.refl m₁, hpres, fun _ => ⟨rfl, rfl⟩, fun _ _ => rfl, fun _ _ _ => rfl,
      fun _ _ => rfl, fun hn => absurd hpres hn⟩
  have hlt : (pdx (pageAddr N)).toNat < 1022 := by rw [hpd]; exact hhi
  have hword := fun {e : BitVec 10} (hlo : 960 ≤ e.toNat) (hhi : e.toNat < 1022) =>
    @Dirs.set_kernel _ D₀ _ _ m₁ (pageAddr N) v h₁ h₁ htouch hlt e hlo hhi (htabs e hlo hhi)
  have htab : m₁.tab (pageAddr N) = frameNo (m₁.phys D₀ (pageDir N)) := by
    rw [Mem.tab, hpd, hd, h₁.kern c hc _ hlo hhi]
  have hrole :
      Function.update ρ (frameNo f) (.heap N) (m₁.tab (pageAddr N)) = .ktab (pageDir N) := by
    rw [htab]
    exact (h₁.ktab _ hlo hhi (htabs _ hlo hhi)).2
  have hhword : ∀ n, 0xF1000 ≤ n → n < 0xF8000 →
      (m₁.poke (m₁.tab (pageAddr N)) (ptx (pageAddr N)) v).hword D₀ n =
        if n = N then v else m.hword D₀ n := by
    intro n hn hn'
    obtain ⟨hlo', hhi'⟩ := heapPage_dir hn hn'
    rw [Mem.hword, (hword hlo' hhi').2 (pageTab n), hpd, hpt]
    by_cases hnN : n = N
    · rw [if_pos hnN, if_pos ⟨by rw [hnN], by rw [hnN]⟩]
    · rw [if_neg hnN, if_neg fun he => hnN (page_inj (by omega) (by omega) he.1 he.2)]
      rw [Mem.hword, Mem.kword, Mem.kword, hphys]
  refine ⟨_, h₁.poke (fun c' => by rw [hrole]; simp) _ v, ⟨fun e he he' => ?_, by omega, by omega,
    fun n hn hn' => ?_, fun n hn hn' => ?_⟩,
      ⟨hvars.cr3, hvars.table, fun c hc => ?_, fun g hg => ?_,
    fun g hg hk => ?_, fun n hn hn' => ?_⟩⟩
  · rw [(hword he he').1]
    exact htabs e he he'
  · rw [hhword n hn (by omega)]
    by_cases hnN : n = N
    · rw [if_pos hnN, hfv, hnN, Function.update_self]
      exact ⟨hrw, rfl⟩
    · rw [if_neg hnN]
      obtain ⟨hr, hheap⟩ := hu.below n hn (by omega)
      refine ⟨hr, ?_⟩
      rw [Function.update_of_ne]
      · exact hheap
      · intro he
        rw [he, hf] at hheap
        cases hheap
  · rw [hhword n (by omega) hn', if_neg (by omega)]
    exact hu.above n (by omega) hn'
  · -- directories are no tables
    funext e
    rw [poke_of_ne, hphys]
    refine Or.inl fun he => ?_
    have hr := h.dir c hc
    rw [he] at hr
    have hne : m₁.tab (pageAddr N) ≠ frameNo f := by
      intro hef
      rw [hef, hf] at hr
      cases hr
    rw [Function.update_of_ne hne, hr] at hrole
    cases hrole
  · refine Function.update_of_ne ?_ _ _
    rintro rfl
    exact hg hf
  · funext e
    rw [poke_of_ne, hphys]
    refine Or.inl fun he => ?_
    rw [← he, Function.update_of_ne] at hrole
    · exact hk _ hrole
    · rintro rfl
      exact hg hf
  · rw [hhword n hn (by omega), if_neg (by omega)]

/-! ### `mem_alloc` -/

theorem pageAddr_toNat {n : ℕ} (hn : n < 2 ^ 20) : (pageAddr n).toNat = 4096 * n := by
  rw [pageAddr, BitVec.toNat_ofNat, Nat.mod_eq_of_lt (by omega)]

theorem pageAddr_succ {n : ℕ} (hn : n + 1 < 2 ^ 20) : pageAddr n + 0x1000 = pageAddr (n + 1) := by
  apply BitVec.eq_of_toNat_eq
  rw [BitVec.toNat_add, pageAddr_toNat (by omega), pageAddr_toNat hn,
    show (0x1000 : U32).toNat = 4096 from rfl, Nat.mod_eq_of_lt (by omega)]
  omega

/-- What `page_get` returns for a heap page. -/
theorem HeapUpto.get {N n : ℕ} (hu : HeapUpto m D₀ ρ N) (h : Dirs m D₀ ρ) (hlo : 0xF1000 ≤ n)
    (hhi : n < 0xF8000) : pageGet m (pageAddr n) = .ok (m.hword D₀ n) := by
  obtain ⟨hpd, hpt⟩ := pageAddr_indices (show n < 2 ^ 20 by omega)
  obtain ⟨he, he'⟩ := heapPage_dir hlo hhi
  obtain ⟨c, hc, hd⟩ := h.cur
  have hpres := hu.tabs _ he he'
  rw [h.selfMapped.get, hd, h.entry_kernel hc (by rw [hpd]; exact he) (by rw [hpd]; exact he')
    (by rw [hpd]; exact hpres), hpd, hpt]
  rfl

/-- The entry the loop of `mem_alloc` writes for the heap. -/
theorem heapEntry (f : U32) :
    Rw (pageFmt f (((PF_PRES ||| PF_RW) &&& PF_MASK) ||| PF_PRES)) ∧
      frameNo (pageFmt f (((PF_PRES ||| PF_RW) &&& PF_MASK) ||| PF_PRES)) = frameNo f := by
  refine ⟨?_, pageFmt_frame f _⟩
  rw [Rw, pageFmt_flags]
  rfl

/-- **The loop of `mem_alloc`** skips the pages that are there and maps the others. -/
theorem HeapUpto.allocLoop {M : ℕ} (hM : M ≤ 0xF8000) : ∀ {fuel k N : ℕ} {m m' : Mem}
    {ρ : BitVec 20 → Role}, HeapUpto m D₀ ρ N → Dirs m D₀ ρ → 0xF1000 ≤ k → k ≤ N → N ≤ M →
      memAllocLoop (PF_PRES ||| PF_RW) (pageAddr M) fuel (pageAddr k) m = .ok m' →
      ∃ ρ', Dirs m' D₀ ρ' ∧ HeapUpto m' D₀ ρ' M ∧ Grow m m' D₀ ρ ρ' N := by
  intro fuel
  induction fuel with
  | zero =>
    intro k N m m' ρ _ _ _ _ _ hrun
    cases hrun
  | succ fuel ih =>
    intro k N m m' ρ hu h hk hkN hNM hrun
    have hlt : pageAddr k < pageAddr M ↔ k < M := by
      rw [BitVec.lt_def, pageAddr_toNat (by omega), pageAddr_toNat (by omega)]
      omega
    rw [memAllocLoop] at hrun
    by_cases hkM : k < M
    · rw [if_pos (hlt.mpr hkM), pageAddr_succ (by omega)] at hrun
      obtain ⟨e, he, hrun⟩ := bind_eq_ok.mp hrun
      cases he.symm.trans (hu.get h hk (by omega))
      by_cases hkN' : k < N
      · -- the page was there
        have hp := ((hu.below k hk hkN').1).pres
        rw [if_neg (show ¬m.hword D₀ k &&& PF_PRES = 0 from hp)] at hrun
        exact ih hu h (by omega) (by omega) hNM hrun
      · have hkN : k = N := by omega
        subst hkN
        rw [if_pos (not_pres.mp (hu.above k le_rfl (by omega)))] at hrun
        obtain ⟨⟨f, m₁⟩, hnew, hrun⟩ := bind_eq_ok.mp hrun
        obtain ⟨m₂, hset, hrun⟩ := bind_eq_ok.mp hrun
        obtain ⟨hrw, hf⟩ := heapEntry f
        obtain ⟨ρ₁, h₁, hu₁, hgrow₁⟩ := hu.map h (by omega) hnew hrw hf hset
        obtain ⟨ρ', h', hu', hgrow'⟩ := ih hu₁ h₁ (by omega) le_rfl (by omega) hrun
        exact ⟨ρ', h', hu', hgrow₁.trans hgrow' (Nat.le_succ k)⟩
    · rw [if_neg fun hl => hkM (hlt.mp hl)] at hrun
      cases hrun
      have hNM' : N = M := by omega
      subst hNM'
      exact ⟨ρ, h, hu, Grow.refl m D₀ ρ N⟩

/-! ### The heap -/

/-- The variables of the heap do not matter to the directories. -/
theorem Dirs.heapVars (h : Dirs m D₀ ρ) (hphys : m'.phys = m.phys) (hcr3 : m'.cr3 = m.cr3)
    (htable : m'.pctxTable = m.pctxTable) (hframes : SameFrames m m') : Dirs m' D₀ ρ :=
  h.congr hcr3 htable (fun _ _ _ _ => by rw [hphys]) (fun _ _ _ _ => rfl) (h.supply.same hframes)

/-- The heap pages of another memory whose kernel tables have the same words for them. -/
theorem HeapUpto.carry {N : ℕ} (hu : HeapUpto m D₀ ρ N)
    (hentry : ∀ e : BitVec 10, 960 ≤ e.toNat → e.toNat < 1022 → m'.phys D₀ e = m.phys D₀ e)
    (hword : ∀ n, 0xF1000 ≤ n → n < 0xF8000 → m'.hword D₀ n = m.hword D₀ n)
    (hρ : ∀ g n, ρ g = .heap n → ρ' g = .heap n) : HeapUpto m' D₀ ρ' N := by
  have htop := hu.top
  refine ⟨fun e hlo hhi => ?_, hu.base, htop, fun n hlo hhi => ?_, fun n hlo hhi => ?_⟩
  · rw [hentry e hlo hhi]
    exact hu.tabs e hlo hhi
  · rw [hword n hlo (by omega)]
    obtain ⟨hrw, hrole⟩ := hu.below n hlo hhi
    exact ⟨hrw, hρ _ n hrole⟩
  · have hbase := hu.base
    rw [hword n (by omega) hhi]
    exact hu.above n hlo hhi

theorem HeapUpto.same {N : ℕ} (hu : HeapUpto m D₀ ρ N) (hphys : m'.phys = m.phys) :
    HeapUpto m' D₀ ρ N :=
  hu.carry (fun _ _ _ => by rw [hphys])
    (fun _ _ _ => by simp only [Mem.hword, Mem.kword, hphys]) fun _ _ hg => hg

theorem Grow.same {N : ℕ} (hphys : m'.phys = m.phys) (hcr3 : m'.cr3 = m.cr3)
    (htable : m'.pctxTable = m.pctxTable) : Grow m m' D₀ ρ ρ N := by
  refine ⟨hcr3, htable, fun _ _ => by rw [hphys], fun _ _ => rfl, fun _ _ _ => by rw [hphys],
    fun n _ _ => ?_⟩
  simp only [Mem.hword, Mem.kword, hphys]

/-- **`heap_valloc`** maps the pages between the old and the new break. -/
theorem HeapPages.valloc {size a : ℕ} (hp : HeapPages m D₀ ρ) (h : Dirs m D₀ ρ)
    (hdvd : 4096 ∣ size) (hpos : 0 < size) (hv : heapValloc m size = .ok (a, m')) :
    ∃ ρ', Dirs m' D₀ ρ' ∧ HeapPages m' D₀ ρ' ∧ Grow m m' D₀ ρ ρ' (m.brk / 4096) := by
  obtain ⟨hbrk, hu⟩ := hp
  unfold heapValloc at hv
  split at hv
  · cases hv
  · rename_i hroom
    rw [show KERNEL_HEAP_END = 4096 * 0xF8000 from heap_pages.2] at hroom
    obtain ⟨⟨f, m₁⟩, hnew, hv⟩ := bind_eq_ok.mp hv
    obtain ⟨m₂, hset, hv⟩ := bind_eq_ok.mp hv
    obtain ⟨m₃, halloc, hv⟩ := bind_eq_ok.mp hv
    cases hv
    obtain ⟨N, hN⟩ := hbrk
    obtain ⟨k, rfl⟩ := hdvd
    have hNdiv : m.brk / 4096 = N := by omega
    rw [hNdiv] at hu ⊢
    have hbase := hu.base
    have hvars₁ := frameNew_vars hnew
    have hvars₂ := (pageSet_steps hset).vars
    have hvars₃ := (memAlloc_steps halloc).vars
    have hbrk₂ : m₂.brk = 4096 * N := (hvars₂.brk.trans hvars₁.brk).trans hN
    have haddr : BitVec.ofNat 32 m₁.brk = pageAddr N := by rw [hvars₁.brk, hN, pageAddr]
    -- the first page is mapped before `mem_alloc` looks for it
    rw [haddr] at hset
    obtain ⟨ρ₁, h₁, hu₁, hgrow₁⟩ := hu.map h (by omega) hnew (pageFmt_rw f) (pageFmt_frame f _) hset
    have hstop : BitVec.ofNat 32 m₂.brk + BitVec.ofNat 32 (4096 * k) = pageAddr (N + k) := by
      rw [hbrk₂, ← BitVec.ofNat_add, pageAddr, Nat.mul_add]
    have hstart : BitVec.ofNat 32 m₂.brk &&& 0xFFFFF000 = pageAddr N := by
      apply BitVec.eq_of_toNat_eq
      rw [pageBase_toNat, hbrk₂, ← pageAddr, pageAddr_toNat (by omega)]
      omega
    unfold memAlloc at halloc
    rw [hstop, hstart] at halloc
    obtain ⟨ρ', h', hu', hgrow'⟩ :=
      hu₁.allocLoop (by omega) h₁ hbase (Nat.le_succ N) (by omega) halloc
    have hbrk₃ : m₃.brk = 4096 * N := hvars₃.brk.trans hbrk₂
    refine ⟨ρ', h'.heapVars rfl rfl rfl ⟨rfl, rfl, rfl, rfl, rfl, rfl⟩, ⟨⟨N + k, ?_⟩, ?_⟩, ?_⟩
    · show m₃.brk + 4096 * k = _
      rw [hbrk₃, Nat.mul_add]
    · have hdiv : (m₃.brk + 4096 * k) / 4096 = N + k := by omega
      show HeapUpto _ D₀ ρ' ((m₃.brk + 4096 * k) / 4096)
      rw [hdiv]
      exact hu'.same rfl
    · exact (hgrow₁.trans hgrow' (Nat.le_succ N)).trans (Grow.same rfl rfl rfl) le_rfl

/-- **`heap_alloc`** keeps the heap mapped. -/
theorem HeapPages.alloc {size : ℕ} {o : Option Ptr} (hp : HeapPages m D₀ ρ) (h : Dirs m D₀ ρ)
    (ha : heapAlloc m size = .ok (o, m')) :
    ∃ ρ', Dirs m' D₀ ρ' ∧ HeapPages m' D₀ ρ' ∧ Grow m m' D₀ ρ ρ' (m.brk / 4096) := by
  by_cases hb : heapFindBucket size < 16
  · obtain ⟨m₁, p, rest, hslab, -, -, rfl⟩ := heapAlloc_cases hb ha
    have h₁ : ∃ ρ', Dirs m₁ D₀ ρ' ∧ HeapPages m₁ D₀ ρ' ∧ Grow m m₁ D₀ ρ ρ' (m.brk / 4096) := by
      rcases hslab with rfl | ⟨-, hs⟩
      · exact ⟨ρ, h, hp, Grow.refl _ D₀ ρ _⟩
      · obtain ⟨⟨slab, m₂⟩, hv, hs⟩ := bind_eq_ok.mp hs
        cases hs
        obtain ⟨hsize, hdvd⟩ := slabSize_eq hb
        have hpos : 0 < slabSize (heapFindBucket size) := by
          rw [← hsize]
          exact Nat.mul_pos (slabSize_pos hb) (by simp [blockSize])
        obtain ⟨ρ', h', hp', hgrow⟩ := hp.valloc h hdvd hpos hv
        rw [slabPieces_eq slab hb]
        exact ⟨ρ', h'.heapVars rfl rfl rfl ⟨rfl, rfl, rfl, rfl, rfl, rfl⟩,
          ⟨hp'.1, hp'.2.same rfl⟩, hgrow.trans (Grow.same rfl rfl rfl) le_rfl⟩
    obtain ⟨ρ', h', hp', hgrow⟩ := h₁
    exact ⟨ρ', h'.heapVars rfl rfl rfl ⟨rfl, rfl, rfl, rfl, rfl, rfl⟩, ⟨hp'.1, hp'.2.same rfl⟩,
      hgrow.trans (Grow.same rfl rfl rfl) le_rfl⟩
  · simp only [heapAlloc, heapFindBucket_large hb, show (16 : ℕ) < 17 by omega, if_true] at ha
    cases ha
    exact ⟨ρ, h, hp, Grow.refl m D₀ ρ _⟩

/-- The loop of `mem_alloc` returns at once what is mapped up to its end. -/
theorem HeapUpto.skipLoop {flags : U32} {N fuel : ℕ} (hu : HeapUpto m D₀ ρ N) (h : Dirs m D₀ ρ) :
    ∀ {k : ℕ}, 0xF1000 ≤ k → k ≤ N → N - k < fuel →
      memAllocLoop flags (pageAddr N) fuel (pageAddr k) m = .ok m := by
  have htop := hu.top
  induction fuel with
  | zero =>
    intro k _ _ hfuel
    omega
  | succ fuel ih =>
    intro k hk hkN hfuel
    have hlt : pageAddr k < pageAddr N ↔ k < N := by
      rw [BitVec.lt_def, pageAddr_toNat (by omega), pageAddr_toNat (by omega)]
      omega
    rw [memAllocLoop]
    by_cases hkN' : k < N
    · rw [if_pos (hlt.mpr hkN'), pageAddr_succ (by omega)]
      refine bind_eq_ok.mpr ⟨_, hu.get h hk (by omega), ?_⟩
      rw [if_neg (show ¬m.hword D₀ k &&& PF_PRES = 0 from ((hu.below k hk hkN').1).pres)]
      exact ih (by omega) (by omega) (by omega)
    · rw [if_neg fun hl => hkN' (hlt.mp hl)]

/-- `heap_valloc` of one page takes one frame. -/
theorem HeapPages.valloc_page (hp : HeapPages m D₀ ρ) (h : Dirs m D₀ ρ)
    (hroom : m.brk + 4096 < KERNEL_HEAP_END) {f : U32} {m₁ : Mem} (hnew : frameNew m = .ok (f, m₁)) :
    ∃ m', heapValloc m 4096 = .ok (m.brk, m') ∧ SameFrames m₁ m' ∧ m'.brk = m.brk + 4096 := by
  obtain ⟨⟨N, hN⟩, hu⟩ := hp
  rw [show KERNEL_HEAP_END = 4096 * 0xF8000 from heap_pages.2] at hroom
  rw [show m.brk / 4096 = N by omega] at hu
  have hbase := hu.base
  have hvars := frameNew_vars hnew
  have hself₁ := h.selfMapped.same (frameNew_phys hnew) hvars.cr3
  have hpres : Pres (m₁.phys m₁.dir (pdx (pageAddr N))) := by
    obtain ⟨hpd, -⟩ := pageAddr_indices (show N < 2 ^ 20 by omega)
    obtain ⟨he, he'⟩ := heapPage_dir hbase (show N < 0xF8000 by omega)
    obtain ⟨c, hc, hd⟩ := h.cur
    rw [frameNew_phys hnew, show m₁.dir = m.dir from congrArg frameNo hvars.cr3, hpd, hd,
      h.kern c hc _ he he']
    exact hu.tabs _ he he'
  have hset := hself₁.set_present hpres (pageFmt f (PF_PRES ||| PF_RW))
  obtain ⟨ρ₂, h₂, hu₂, -⟩ := hu.map h (by omega) hnew (pageFmt_rw f) (pageFmt_frame f _) hset
  set m₂ := m₁.poke (m₁.tab (pageAddr N)) (ptx (pageAddr N)) (pageFmt f (PF_PRES ||| PF_RW))
  have hbrk₂ : m₂.brk = 4096 * N := hvars.brk.trans hN
  have haddr : BitVec.ofNat 32 m₁.brk = pageAddr N := by rw [hvars.brk, hN, pageAddr]
  have hloop : memAlloc m₂ (BitVec.ofNat 32 m₂.brk) (BitVec.ofNat 32 4096) (PF_PRES ||| PF_RW) =
      .ok m₂ := by
    have hstart : BitVec.ofNat 32 m₂.brk &&& 0xFFFFF000 = pageAddr N := by
      apply BitVec.eq_of_toNat_eq
      rw [pageBase_toNat, hbrk₂, ← pageAddr, pageAddr_toNat (by omega)]
      omega
    have hstop : BitVec.ofNat 32 m₂.brk + BitVec.ofNat 32 4096 = pageAddr (N + 1) := by
      rw [hbrk₂, ← BitVec.ofNat_add, pageAddr, Nat.mul_add, Nat.mul_one]
    unfold memAlloc
    rw [hstart, hstop]
    exact hu₂.skipLoop h₂ hbase (Nat.le_succ N) (by omega)
  refine ⟨{ m₂ with brk := m₂.brk + 4096 }, ?_, ⟨rfl, rfl, rfl, rfl, rfl, rfl⟩,
    congrArg (· + 4096) hvars.brk⟩
  unfold heapValloc
  rw [if_neg (by rw [heap_pages.2]; omega)]
  refine bind_eq_ok.mpr ⟨_, hnew, ?_⟩
  rw [← haddr] at hset
  refine bind_eq_ok.mpr ⟨m₂, hset, ?_⟩
  refine bind_eq_ok.mpr ⟨m₂, hloop, ?_⟩
  rw [hbrk₂, ← hN]
  rfl

/-- A block of at most a page is returned when there are room and a frame for it. -/
theorem HeapPages.alloc_block {size : ℕ} (hp : HeapPages m D₀ ρ) (h : Dirs m D₀ ρ)
    (hsize : heapFindBucket size ≤ 10) (hroom : m.brk + 4096 < KERNEL_HEAP_END)
    {f : U32} {m₁ : Mem} (hnew : frameNew m = .ok (f, m₁)) :
    ∃ p m', heapAlloc m size = .ok (some p, m') ∧ (SameFrames m m' ∨ SameFrames m₁ m') ∧
      m'.brk ≤ m.brk + 4096 := by
  set b := heapFindBucket size with hb
  -- the bucket is not empty after `heap_new_slab`
  obtain ⟨m₂, hslab, hne, hframes, hbrk⟩ : ∃ m₂, (if m.heapBucket b = [] then heapNewSlab m b else
      pure m) = Except.ok m₂ ∧ m₂.heapBucket b ≠ [] ∧ (SameFrames m m₂ ∨ SameFrames m₁ m₂) ∧
      m₂.brk ≤ m.brk + 4096 := by
    by_cases hempty : m.heapBucket b = []
    · obtain ⟨m₂, hv, hframes, hbrk⟩ := hp.valloc_page h hroom hnew
      have hnonempty := slabSize_pos (show b < 16 by omega)
      rw [if_pos hempty, heapNewSlab, show slabSize b = 4096 from if_pos hsize, hv]
      rw [show slabSize b = 4096 from if_pos hsize] at hnonempty
      refine ⟨_, rfl, ?_, Or.inr ?_, ?_⟩
      · rw [slabPieces_eq _ (by omega)]
        simp only [Function.update_self]
        intro hnil
        rw [List.append_eq_nil_iff, List.reverse_eq_nil_iff, List.map_eq_nil_iff,
          List.range_eq_nil] at hnil
        omega
      · rw [slabPieces_eq _ (by omega)]
        exact hframes.trans ⟨rfl, rfl, rfl, rfl, rfl, rfl⟩
      · rw [slabPieces_eq _ (by omega)]
        exact hbrk.le
    · rw [if_neg hempty]
      exact ⟨m, rfl, hempty, Or.inl (SameFrames.refl m), Nat.le_add_right _ _⟩
  obtain ⟨p, rest, hl⟩ := List.exists_cons_of_ne_nil hne
  refine ⟨p, { m₂ with
    analysis := Function.update m₂.analysis b (m₂.analysis b + 1)
    heapBucket := Function.update m₂.heapBucket b rest }, ?_,
    hframes.imp (·.trans ⟨rfl, rfl, rfl, rfl, rfl, rfl⟩) (·.trans ⟨rfl, rfl, rfl, rfl, rfl, rfl⟩),
    hbrk⟩
  unfold heapAlloc
  dsimp only
  rw [← hb, if_neg (show ¬16 < b by omega)]
  by_cases hempty : m.heapBucket b = []
  · rw [if_pos hempty] at hslab ⊢
    refine bind_eq_ok.mpr ⟨m₂, hslab, ?_⟩
    rw [hl]
    rfl
  · rw [if_neg hempty] at hslab ⊢
    cases hslab
    rw [pure_bind, hl]
    rfl

/-- **`heap_free`** leaves the pages as they are. -/
theorem heapFree_tables (m : Mem) (p : Ptr) (size : ℕ) :
    (heapFree m p size).phys = m.phys ∧ (heapFree m p size).pctxTable = m.pctxTable ∧
      (heapFree m p size).brk = m.brk := by
  unfold heapFree
  dsimp only
  split
  · exact ⟨rfl, rfl, rfl⟩
  · exact ⟨rfl, rfl, rfl⟩

theorem HeapPages.free (hp : HeapPages m D₀ ρ) (h : Dirs m D₀ ρ) (p : Ptr) (size : ℕ) :
    Dirs (heapFree m p size) D₀ ρ ∧ HeapPages (heapFree m p size) D₀ ρ := by
  unfold heapFree
  dsimp only
  split
  · exact ⟨h, hp⟩
  · exact ⟨h.heapVars rfl rfl rfl ⟨rfl, rfl, rfl, rfl, rfl, rfl⟩, hp.1, hp.2.same rfl⟩

end Pinion
