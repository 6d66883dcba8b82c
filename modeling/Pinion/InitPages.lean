/-
The page tables that `init` makes.

`boot.s` loads a directory with two entries: one for the table of the first kernel segment,
and its own.  `init` then makes the tables of the kernel layer, which every directory cloned
later will name, and maps the boot frames.

* `EarlyMem m K T` — memory when `boot.s` calls `init`: directory `K`, table `T`;
* `initPaging` — the loops of `init` over pages;
* `Settling`, `Settled` — what their turns keep, and the tables they have made;
* `EarlyMem.dirs`, `EarlyMem.paged` — the directories before and after, with the tables of
  the heap there and empty;
* `EarlyMem.initPaging_total` — the loops end when there are enough frames.
-/
import Pinion.Ledger
import Pinion.Mapping
import Pinion.Boot

open Runs

namespace Pinion

def SYSTEM_ADDR_SIZE : U32 := 0x30000000

/-! ### The loops of `init` -/

/-- A loop of `init` that touches `n` segments from an address on. -/
def touchSegments (base : U32) (n : ℕ) (m : Mem) : Except Stop Mem :=
  (List.range n).foldlM (fun m i => pageTouch m (base + BitVec.ofNat 32 (4194304 * i))) m

/-- The loop of `init` that maps the boot frames above `KERNEL_ADDR_BASE`. -/
def mapBootFrames (m : Mem) : Except Stop Mem :=
  (List.range 2048).foldlM (fun m i => pageSet m (KERNEL_ADDR_BASE + BitVec.ofNat 32 (4096 * i))
    (pageFmt (BitVec.ofNat 32 (4096 * i)) (PF_PRES ||| PF_RW))) m

/-- The paging part of `init`.  The second loop is meant for the system layer, but starts
at its size. -/
def initPaging (m : Mem) : Except Stop Mem := do
  let m ← touchSegments KERNEL_ADDR_BASE 64 m
  let m ← touchSegments SYSTEM_ADDR_SIZE 192 m
  mapBootFrames m

/-! ### Memory before `init` -/

/-- Memory when `boot.s` calls `init`.  The directory and its table lie in the image of the
kernel, below `_end`. -/
structure EarlyMem (m : Mem) (K T : BitVec 20) : Prop where
  cold : ColdMem m
  frames : ColdFrames m
  cr3 : m.cr3 = frameAddr K
  kmap : ∀ e, m.phys K e =
    if e = 960 then frameAddr T + 0x203 else if e = 1023 then frameAddr K + 0x203 else 0
  ktbl : ∀ j : BitVec 10, m.phys T j = (j.setWidth 32 <<< 12) ||| 3
  apart : K ≠ T
  image : frameAddr K < m.kend - KERNEL_ADDR_BASE ∧ frameAddr T < m.kend - KERNEL_ADDR_BASE
  size : m.kend - KERNEL_ADDR_BASE ≤ KERNEL_BOOT_SIZE

theorem frameAddr_toNat (g : BitVec 20) : (frameAddr g).toNat = 4096 * g.toNat := by
  have hg := g.isLt
  rw [frameAddr, BitVec.toNat_mul, BitVec.toNat_setWidth, show PAGESZ.toNat = 4096 from rfl]
  omega

/-- The entries `boot.s` assembles. -/
theorem bootEntry (g : BitVec 20) :
    Rw (frameAddr g + 0x203) ∧ frameNo (frameAddr g + 0x203) = g := by
  have hg := g.isLt
  have hnat : (frameAddr g + 0x203).toNat = 4096 * g.toNat + 0x203 := by
    rw [BitVec.toNat_add, frameAddr_toNat, show (0x203 : U32).toNat = 0x203 from rfl]
    omega
  constructor
  · apply BitVec.eq_of_toNat_eq
    rw [BitVec.toNat_and, hnat, show (3 : U32).toNat = 2 ^ 2 - 1 from rfl,
      Nat.and_two_pow_sub_one_eq_mod]
    omega
  · apply BitVec.eq_of_toNat_eq
    rw [frameNo_toNat, hnat]
    omega

section Early

variable {m : Mem} {K T : BitVec 20}

open Classical in
/-- The roles of the frames before `init`: the boot pool can be allocated. -/
noncomputable def earlyRoles (m : Mem) (K T g : BitVec 20) : Role :=
  if g = K then .dir none
  else if g = T then .ktab 960
  else if m.kend - KERNEL_ADDR_BASE < frameAddr g ∧ g.toNat < 0x800 then .avail
  else .other

theorem EarlyMem.dir (h : EarlyMem m K T) : m.dir = K := by
  rw [Mem.dir, h.cr3, frameNo_addr]

theorem EarlyMem.live (h : EarlyMem m K T) : ∀ c, m.LiveSpace c → c = none := by
  rintro (_ | p) hc
  · rfl
  · exact absurd (h.cold.table p) hc

theorem EarlyMem.self (h : EarlyMem m K T) : m.phys K 1023 = frameAddr K + 0x203 := by
  rw [h.kmap, if_neg (by decide), if_pos rfl]

/-- The first kernel segment is the only one with a table. -/
theorem EarlyMem.pres (h : EarlyMem m K T) {e : BitVec 10} (he : e.toNat < 1023)
    (hp : Pres (m.phys K e)) : e = 960 ∧ m.phys K e = frameAddr T + 0x203 := by
  rw [h.kmap] at hp ⊢
  by_cases h960 : e = 960
  · rw [if_pos h960]
    exact ⟨h960, rfl⟩
  · have hlast : e ≠ 1023 := by
      rintro rfl
      simp at he
    rw [if_neg h960, if_neg hlast] at hp
    exact absurd hp not_pres_zero

theorem earlyRoles_dir : earlyRoles m K T K = .dir none := if_pos rfl

theorem earlyRoles_table (hKT : K ≠ T) : earlyRoles m K T T = .ktab 960 := by
  rw [earlyRoles, if_neg hKT.symm, if_pos rfl]

/-- Before `init` the boot pool is all there is to allocate. -/
theorem EarlyMem.supply (h : EarlyMem m K T) : Supply m {g | earlyRoles m K T g = .avail} := by
  obtain ⟨ht, -⟩ := h.frames.tracks
  refine ⟨_, ht.inv, fun p hp => absurd hp List.not_mem_nil,
    fun f hdvd hlo hhi => ?_⟩
  have haddr : frameAddr (frameNo f) = f := by
    apply BitVec.eq_of_toNat_eq
    rw [frameAddr_toNat, frameNo_toNat]
    omega
  have hne : ∀ {g : BitVec 20}, frameAddr g < m.kend - KERNEL_ADDR_BASE → frameNo f ≠ g := by
    rintro g hg rfl
    rw [haddr] at hg
    exact absurd (BitVec.lt_trans hg hlo) (BitVec.lt_irrefl f)
  have hpool : (frameNo f).toNat < 0x800 := by
    rw [h.frames.pool, BitVec.lt_def, show KERNEL_BOOT_SIZE.toNat = 0x800000 from rfl] at hhi
    rw [frameNo_toNat]
    omega
  show earlyRoles m K T (frameNo f) = .avail
  rw [earlyRoles, if_neg (hne h.image.1), if_neg (hne h.image.2), if_pos]
  rw [haddr]
  exact ⟨hlo, hpool⟩

/-- **The directory of `boot.s`** is that of the only context. -/
theorem EarlyMem.dirs (h : EarlyMem m K T) : Dirs m K (earlyRoles m K T) := by
  have hctx : ∀ c, m.LiveSpace c → m.ctxDir K c = K := by
    intro c hc
    rw [h.live c hc]
    rfl
  obtain ⟨hrw, hself⟩ := bootEntry K
  obtain ⟨hrwT, hT⟩ := bootEntry T
  refine ⟨⟨none, trivial, h.dir⟩, fun c hc => ?_, fun c hc => ?_, fun c hc => ?_,
    fun c hc e _ _ => ?_, fun e _ hhi hp => ?_, fun c hc e hlo hhi hp => ?_,
    fun c hc e hhi hp => ?_, h.supply⟩
  · rw [hctx c hc, h.live c hc]
    exact earlyRoles_dir
  · rw [hctx c hc, h.self]
    exact hrw.pres
  · rw [hctx c hc, h.self]
    exact hself
  · rw [hctx c hc]
  · obtain ⟨rfl, he⟩ := h.pres (by omega) hp
    rw [he, hT]
    exact ⟨hrwT, earlyRoles_table h.apart⟩
  · rw [hctx c hc] at hp
    have he := (h.pres (by omega) hp).1
    rw [he] at hhi
    exact absurd hhi (by decide)
  · rw [hctx c hc] at hp
    have he := (h.pres (by omega) hp).1
    rw [he] at hhi
    exact absurd hhi (by decide)

end Early

/-! ### While the loops run -/

/-- Memory during `initPaging`, which began at `m₀`: only the first two kernel segments map
anything, the system layer has no tables, and no frame above the boot memory is in use. -/
structure Settling (m₀ : Mem) (K : BitVec 20) (ρ : BitVec 20 → Role) (m : Mem) : Prop where
  dirs : Dirs m K ρ
  vars : SameVars m₀ m
  news : News m₀ m
  quiet : ∀ e j g, e.toNat < 1022 → e ≠ 960 → e ≠ 961 → ¬m.MapsAt K e j g
  bare : ∀ e : BitVec 10, 768 ≤ e.toNat → e.toNat < 960 → m.phys K e = 0
  above : ∀ g : BitVec 20, 0x800 ≤ g.toNat → ρ g = .other

section Loops

variable {m₀ m m' : Mem} {K T : BitVec 20} {ρ : BitVec 20 → Role} {page v : U32}

theorem EarlyMem.settling (h : EarlyMem m K T) : Settling m K (earlyRoles m K T) m := by
  refine ⟨h.dirs, SameVars.refl m, .refl, fun e j g he h960 _ hm => ?_, fun e hlo hhi => ?_,
    fun g hg => ?_⟩
  · exact h960 (h.pres (by omega) hm.1).1
  · have hne : e ≠ 960 ∧ e ≠ 1023 := by
      constructor <;> rintro rfl <;> simp at hhi
    rw [h.kmap, if_neg hne.1, if_neg hne.2]
  · have hne : ∀ {f : BitVec 20}, frameAddr f < m.kend - KERNEL_ADDR_BASE → g ≠ f := by
      rintro f hf rfl
      have hle := BitVec.le_def.mp h.size
      rw [BitVec.lt_def, frameAddr_toNat] at hf
      rw [show KERNEL_BOOT_SIZE.toNat = 0x800000 from rfl] at hle
      omega
    rw [earlyRoles, if_neg (hne h.image.1), if_neg (hne h.image.2), if_neg (by omega)]

theorem Settling.table (h : Settling m₀ K ρ m) (hc : ∀ p, m₀.pctxTable p = 0) (p : ℕ) :
    m.pctxTable p = 0 := by
  rw [h.vars.table]
  exact hc p

/-- The directory of `boot.s` stays loaded. -/
theorem Settling.dir (h : Settling m₀ K ρ m) (hd : m₀.dir = K) : m.dir = K := by
  rw [Mem.dir, h.vars.cr3]
  exact hd

/-- **A turn that touches a segment.** -/
theorem Settling.touch (h : Settling m₀ K ρ m) (hc : ∀ p, m₀.pctxTable p = 0) (hd : m₀.dir = K)
    (hsys : (pdx page).toNat < 768 ∨ 960 ≤ (pdx page).toNat) (ht : pageTouch m page = .ok m') :
    ∃ ρ', Settling m₀ K ρ' m' ∧ Pres (m'.phys K (pdx page)) ∧
      ∀ e, Pres (m.phys K e) → Pres (m'.phys K e) := by
  obtain ⟨ρ', hdirs, hstep⟩ := h.dirs.touch ht fun _ _ => h.table hc
  have hK := h.dir hd
  refine ⟨ρ', ⟨hdirs, h.vars.trans hstep.vars, h.news.trans (pageTouch_steps ht).news,
    fun e j g he h0 h1 hm => ?_, fun e hlo hhi => ?_, fun g hg => ?_⟩, ?_, fun e he => ?_⟩
  · exact h.quiet e j g he h0 h1 (hstep.maps h.dirs (c := none) trivial he hm)
  · have hne : e ≠ pdx page := by
      rintro rfl
      omega
    rw [← hK, hstep.dir e hne, hK]
    exact h.bare e hlo hhi
  · rw [hstep.roles g (by rw [h.above g hg]; simp)]
    exact h.above g hg
  · have hp := hstep.pres
    rw [hK] at hp
    exact hp
  · by_cases hep : e = pdx page
    · rw [hep, ← hK]
      exact hstep.pres
    · rw [← hK, hstep.dir e hep, hK]
      exact he

/-- **A turn that maps a boot frame.** -/
theorem Settling.map (h : Settling m₀ K ρ m) (hc : ∀ p, m₀.pctxTable p = 0) (hd : m₀.dir = K)
    (hpage : pdx page = 960 ∨ pdx page = 961) (hs : pageSet m page v = .ok m') :
    ∃ ρ', Settling m₀ K ρ' m' ∧ ∀ e, Pres (m.phys K e) → Pres (m'.phys K e) := by
  have hlt : (pdx page).toNat < 1022 := by rcases hpage with he | he <;> rw [he] <;> decide
  have hlo : 960 ≤ (pdx page).toNat := by rcases hpage with he | he <;> rw [he] <;> decide
  obtain ⟨m₁, ht, rfl⟩ := pageSet_touch h.dirs hs fun _ _ => h.table hc
  obtain ⟨ρ', h₁, hp, hkeep⟩ := h.touch hc hd (Or.inr hlo) ht
  have hK₁ := h₁.dir hd
  -- the word belongs to the table of its own segment
  have hT : ρ' (m₁.tab page) = tableRole none (pdx page) := by
    rw [Mem.tab, hK₁]
    exact h₁.dirs.table_role (c := none) trivial hlt hp
  have hTd : ∀ c, ρ' (m₁.tab page) ≠ .dir c := by
    rw [hT]
    exact fun c => tableRole_ne_dir none c _
  have hword : ∀ e, (m₁.poke (m₁.tab page) (ptx page) v).phys K e = m₁.phys K e := by
    refine fun e => poke_of_ne _ _ _ _ _ _ (Or.inl fun hKT => ?_)
    exact hTd none (hKT ▸ h₁.dirs.dir none trivial)
  refine ⟨ρ', ⟨h₁.dirs.poke hTd _ _, h₁.vars.trans ⟨rfl, rfl, rfl, rfl, rfl, rfl, rfl⟩,
    h₁.news.same ⟨rfl, rfl, rfl, rfl, rfl, rfl⟩, fun e j g he h0 h1 hm => ?_,
    fun e hlo hhi => ?_, h₁.above⟩, fun e he => ?_⟩
  · rcases h₁.dirs.poke_maps hTd (c := none) trivial he hm with hold | ⟨hr, -⟩
    · exact h₁.quiet e j g he h0 h1 hold
    · rw [hT] at hr
      have hk : tableRole none (pdx page) = .ktab (pdx page) := by
        rw [tableRole, if_neg (by omega), if_neg (by omega), if_pos hlt]
      rw [hk] at hr
      have hep := tableRole_ktab hr
      rcases hpage with hpe | hpe
      · exact h0 (hep.trans hpe)
      · exact h1 (hep.trans hpe)
  · rw [hword]
    exact h₁.bare e hlo hhi
  · rw [hword]
    exact hkeep e he

/-- The segments the first loop touches. -/
theorem segment_index {i : ℕ} (hi : i < 64) :
    (pdx (KERNEL_ADDR_BASE + BitVec.ofNat 32 (4194304 * i))).toNat = 960 + i := by
  rw [pdx_toNat, BitVec.toNat_add, BitVec.toNat_ofNat,
    show KERNEL_ADDR_BASE.toNat = 4194304 * 960 from rfl]
  omega

/-- The segments the second loop touches are no segments of the system layer. -/
theorem systemSize_index {i : ℕ} (hi : i < 192) :
    (pdx (SYSTEM_ADDR_SIZE + BitVec.ofNat 32 (4194304 * i))).toNat = 192 + i := by
  rw [pdx_toNat, BitVec.toNat_add, BitVec.toNat_ofNat,
    show SYSTEM_ADDR_SIZE.toNat = 4194304 * 192 from rfl]
  omega

/-- The pages the last loop maps are in two segments. -/
theorem bootPage_index {i : ℕ} (hi : i < 2048) :
    pdx (KERNEL_ADDR_BASE + BitVec.ofNat 32 (4096 * i)) = 960 ∨
      pdx (KERNEL_ADDR_BASE + BitVec.ofNat 32 (4096 * i)) = 961 := by
  have hnat : (pdx (KERNEL_ADDR_BASE + BitVec.ofNat 32 (4096 * i))).toNat = 960 + i / 1024 := by
    rw [pdx_toNat, BitVec.toNat_add, BitVec.toNat_ofNat,
      show KERNEL_ADDR_BASE.toNat = 4194304 * 960 from rfl]
    omega
  by_cases hlow : i < 1024
  · left
    apply BitVec.eq_of_toNat_eq
    rw [hnat, show (960 : BitVec 10).toNat = 960 from rfl]
    omega
  · right
    apply BitVec.eq_of_toNat_eq
    rw [hnat, show (961 : BitVec 10).toNat = 961 from rfl]
    omega

/-- The first `k` segments of the kernel layer have tables. -/
def Settled (m₀ : Mem) (K : BitVec 20) (k : ℕ) (m : Mem) : Prop :=
  ∃ ρ, Settling m₀ K ρ m ∧
    ∀ e : BitVec 10, 960 ≤ e.toNat → e.toNat < 960 + k → Pres (m.phys K e)

theorem EarlyMem.settled (h : EarlyMem m K T) : Settled m K 0 m :=
  ⟨_, h.settling, fun _ _ hhi => absurd hhi (by omega)⟩

/-- Touching a segment keeps the tables there are. -/
theorem Settled.keep {k : ℕ} (h : Settled m₀ K k m) (hc : ∀ p, m₀.pctxTable p = 0)
    (hd : m₀.dir = K) (hsys : (pdx page).toNat < 768 ∨ 960 ≤ (pdx page).toNat)
    (ht : pageTouch m page = .ok m') : Settled m₀ K k m' := by
  obtain ⟨ρ, hs, hp⟩ := h
  obtain ⟨ρ', hs', -, hkeep⟩ := hs.touch hc hd hsys ht
  exact ⟨ρ', hs', fun e hlo hhi => hkeep e (hp e hlo hhi)⟩

theorem Settled.segment {k : ℕ} (h : Settled m₀ K k m) (hc : ∀ p, m₀.pctxTable p = 0)
    (hd : m₀.dir = K) (hk : k < 64)
    (ht : pageTouch m (KERNEL_ADDR_BASE + BitVec.ofNat 32 (4194304 * k)) = .ok m') :
    Settled m₀ K (k + 1) m' := by
  obtain ⟨ρ, hs, hp⟩ := h
  have hindex := segment_index hk
  obtain ⟨ρ', hs', hnew, hkeep⟩ := hs.touch hc hd (Or.inr (by omega)) ht
  refine ⟨ρ', hs', fun e hlo hhi => ?_⟩
  by_cases he : e.toNat < 960 + k
  · exact hkeep e (hp e hlo he)
  · have heq : e = pdx (KERNEL_ADDR_BASE + BitVec.ofNat 32 (4194304 * k)) := by
      apply BitVec.eq_of_toNat_eq
      rw [segment_index hk]
      omega
    rw [heq]
    exact hnew

theorem Settled.mapFrame {k : ℕ} (h : Settled m₀ K k m) (hc : ∀ p, m₀.pctxTable p = 0)
    (hd : m₀.dir = K) {i : ℕ} (hi : i < 2048)
    (hs : pageSet m (KERNEL_ADDR_BASE + BitVec.ofNat 32 (4096 * i)) v = .ok m') :
    Settled m₀ K k m' := by
  obtain ⟨ρ, hset, hp⟩ := h
  obtain ⟨ρ', hset', hkeep⟩ := hset.map hc hd (bootPage_index hi) hs
  exact ⟨ρ', hset', fun e hlo hhi => hkeep e (hp e hlo hhi)⟩

/-- **The paging part of `init`** makes the tables of the whole kernel layer. -/
theorem EarlyMem.initPaging_settled (h : EarlyMem m₀ K T) (hi : initPaging m₀ = .ok m) :
    Settled m₀ K 64 m := by
  obtain ⟨m₁, hi₁, hi⟩ := bind_eq_ok.mp hi
  obtain ⟨m₂, hi₂, hi₃⟩ := bind_eq_ok.mp hi
  have hc := h.cold.table
  have h₁ : Settled m₀ K 64 m₁ := foldlM_range_invariant (P := Settled m₀ K) h.settled
    (fun k hk s s' hs ht => hs.segment hc h.dir hk ht) hi₁
  unfold touchSegments at hi₂
  have h₂ : Settled m₀ K 64 m₂ := foldlM_range_invariant (P := fun _ => Settled m₀ K 64) h₁
    (fun k hk s s' hs ht => by
      have hindex := systemSize_index hk
      exact hs.keep hc h.dir (Or.inl (by omega)) ht) hi₂
  unfold mapBootFrames at hi₃
  exact foldlM_range_invariant (P := fun _ => Settled m₀ K 64) h₂
    (fun k hk s s' hs hset => hs.mapFrame hc h.dir hk hset) hi₃

/-- The tables of the heap are there, and they are empty. -/
theorem Settling.heapUpto (h : Settling m₀ K ρ m)
    (hp : ∀ e : BitVec 10, 960 ≤ e.toNat → e.toNat < 960 + 64 → Pres (m.phys K e)) :
    HeapUpto m K ρ 0xF1000 := by
  refine ⟨fun e he _ => hp e he e.isLt, le_rfl, by decide, fun n hlo hhi => absurd hhi (by omega),
    fun n hlo hhi hpres => ?_⟩
  have hdir : (pageDir n).toNat = n / 1024 := by
    rw [pageDir, BitVec.toNat_ofNat]
    omega
  refine h.quiet (pageDir n) (pageTab n) _ (by omega) ?_ ?_ ⟨hp _ (by omega) (by omega), hpres, rfl⟩
  · intro he
    rw [he] at hdir
    simp only [BitVec.reduceToNat] at hdir
    omega
  · intro he
    rw [he] at hdir
    simp only [BitVec.reduceToNat] at hdir
    omega

/-- **After the paging part of `init`** the kernel layer is complete and the heap empty. -/
theorem EarlyMem.paged (h : EarlyMem m₀ K T) (hi : initPaging m₀ = .ok m) :
    ∃ ρ, Settling m₀ K ρ m ∧ HeapPages m K ρ := by
  obtain ⟨ρ, hs, hp⟩ := h.initPaging_settled hi
  have hbrk : m.brk = 4096 * 0xF1000 := by
    rw [hs.vars.brk, h.cold.brk]
    exact heap_pages.1
  refine ⟨ρ, hs, ⟨0xF1000, hbrk⟩, ?_⟩
  rw [hbrk]
  exact hs.heapUpto hp

end Loops

/-! ### The loops end -/

section Total

variable {m₀ m : Mem} {K T : BitVec 20} {ρ : BitVec 20 → Role} {page v : U32} {n : ℕ}

/-- A turn takes at most one frame. -/
theorem Settled.touch_total {k : ℕ} (h : Settled m₀ K k m) (hn : Plenty (n + 1) m) :
    ∃ m', pageTouch m page = .ok m' ∧ Plenty n m' := by
  obtain ⟨ρ, h, -⟩ := h
  have hself := h.dirs.selfMapped
  by_cases hp : Pres (m.phys m.dir (pdx page))
  · exact ⟨m, hself.touch_present hp, hn.mono (Nat.le_succ n)⟩
  · obtain ⟨f, m₁, hnew, hn₁⟩ := hn.new
    have hf := (h.dirs.new hnew .other).1
    have hfd : frameNo f ≠ m.dir := by
      intro he
      obtain ⟨c, hc, hd⟩ := h.dirs.cur
      rw [he, hd, h.dirs.dir c hc] at hf
      cases hf
    exact ⟨_, hself.touch_absent hp hnew (frameNew_phys hnew) (frameNew_vars hnew).cr3 hfd,
      hn₁.same ⟨rfl, rfl, rfl, rfl, rfl, rfl⟩⟩

/-- The boot frames are mapped in segments that have tables. -/
theorem Settled.map_total (h : Settled m₀ K 64 m) (hd : m₀.dir = K) {i : ℕ} (hi : i < 2048)
    (v : U32) :
    ∃ m', pageSet m (KERNEL_ADDR_BASE + BitVec.ofNat 32 (4096 * i)) v = .ok m' ∧
      SameFrames m m' := by
  obtain ⟨ρ, h, hp⟩ := h
  refine ⟨_, h.dirs.selfMapped.set_present ?_ v, ⟨rfl, rfl, rfl, rfl, rfl, rfl⟩⟩
  rw [h.dir hd]
  rcases bootPage_index hi with he | he
  · rw [he]
    exact hp 960 (by decide) (by decide)
  · rw [he]
    exact hp 961 (by decide) (by decide)

/-- **The paging part of `init` ends** when there is a frame for every table. -/
theorem EarlyMem.initPaging_total (h : EarlyMem m₀ K T) (hn : Plenty (n + 256) m₀) :
    ∃ m, initPaging m₀ = .ok m ∧ Plenty n m := by
  have hc := h.cold.table
  have hd := h.dir
  obtain ⟨m₁, hi₁, h₁, hn₁⟩ := foldlM_range_ok (n := 64)
    (P := fun k s => Settled m₀ K k s ∧ Plenty (n + 256 - k) s)
    (f := fun m i => pageTouch m (KERNEL_ADDR_BASE + BitVec.ofNat 32 (4194304 * i)))
    ⟨h.settled, hn⟩ (fun k hk s ⟨hs, hplenty⟩ => by
      rw [show n + 256 - k = n + 256 - (k + 1) + 1 by omega] at hplenty
      obtain ⟨s', ht, hplenty'⟩ := hs.touch_total hplenty
      exact ⟨s', ht, hs.segment hc hd hk ht, hplenty'⟩)
  obtain ⟨m₂, hi₂, h₂, hn₂⟩ := foldlM_range_ok (n := 192)
    (P := fun k s => Settled m₀ K 64 s ∧ Plenty (n + 192 - k) s)
    (f := fun m i => pageTouch m (SYSTEM_ADDR_SIZE + BitVec.ofNat 32 (4194304 * i)))
    ⟨h₁, hn₁⟩ (fun k hk s ⟨hs, hplenty⟩ => by
      rw [show n + 192 - k = n + 192 - (k + 1) + 1 by omega] at hplenty
      obtain ⟨s', ht, hplenty'⟩ := hs.touch_total hplenty
      have hindex := systemSize_index hk
      exact ⟨s', ht, hs.keep hc hd (Or.inl (by omega)) ht, hplenty'⟩)
  obtain ⟨m₃, hi₃, -, hn₃⟩ := foldlM_range_ok (n := 2048)
    (P := fun _ s => Settled m₀ K 64 s ∧ Plenty n s)
    (f := fun m i => pageSet m (KERNEL_ADDR_BASE + BitVec.ofNat 32 (4096 * i))
      (pageFmt (BitVec.ofNat 32 (4096 * i)) (PF_PRES ||| PF_RW)))
    ⟨h₂, hn₂.mono (by omega)⟩ (fun k hk s ⟨hs, hplenty⟩ => by
      obtain ⟨s', hset, hframes⟩ := hs.map_total hd hk _
      exact ⟨s', hset, hs.mapFrame hc hd hk hset, hplenty.same hframes⟩)
  exact ⟨m₃, bind_eq_ok.mpr ⟨m₁, hi₁, bind_eq_ok.mpr ⟨m₂, hi₂, hi₃⟩⟩, hn₃⟩

end Total

end Pinion
