/-
Page tables through the recursive mapping.

A directory whose last entry names itself shows itself at `cmap` and the tables of its
entries at `ctbl`.  A directory that entry 1022 of the loaded one names shows itself at
`exmap` in the same way.

* `pdx`, `ptx`, `wdx` — the three indices in an address;
* `Mem.poke`, `Mem.fill` — one word, and one frame, of physical memory;
* `SelfMapped` — the loaded directory names itself;
* `clearPage_eq` — `memclr` of a mapped page;
* `SelfMapped.touch_absent`, `SelfMapped.set_present`, `SelfMapped.set_absent` — what
  `page_touch` and `page_set` do to physical memory.
-/
import Pinion.Frames

open Runs

namespace Pinion

/-! ### Indices -/

/-- The directory index of an address. -/
def pdx (va : U32) : BitVec 10 := va.extractLsb' 22 10

/-- The table index of an address. -/
def ptx (va : U32) : BitVec 10 := va.extractLsb' 12 10

/-- The index of a word in its page. -/
def wdx (va : U32) : BitVec 10 := va.extractLsb' 2 10

theorem pdx_toNat (va : U32) : (pdx va).toNat = va.toNat / 4194304 % 1024 := by
  rw [pdx, BitVec.extractLsb'_toNat, Nat.shiftRight_eq_div_pow]

theorem ptx_toNat (va : U32) : (ptx va).toNat = va.toNat / 4096 % 1024 := by
  rw [ptx, BitVec.extractLsb'_toNat, Nat.shiftRight_eq_div_pow]

theorem wdx_toNat (va : U32) : (wdx va).toNat = va.toNat / 4 % 1024 := by
  rw [wdx, BitVec.extractLsb'_toNat, Nat.shiftRight_eq_div_pow]

theorem frameNo_toNat (w : U32) : (frameNo w).toNat = w.toNat / 4096 := by
  rw [frameNo, BitVec.extractLsb'_toNat, Nat.shiftRight_eq_div_pow]
  have := w.isLt
  omega

/-- An address is read off from its indices. -/
theorem indices_eq {va : U32} {a b c : BitVec 10}
    (h : va.toNat / 4 = a.toNat * 1048576 + b.toNat * 1024 + c.toNat) :
    pdx va = a ∧ ptx va = b ∧ wdx va = c := by
  have ha := a.isLt
  have hb := b.isLt
  have hc := c.isLt
  refine ⟨BitVec.eq_of_toNat_eq ?_, BitVec.eq_of_toNat_eq ?_, BitVec.eq_of_toNat_eq ?_⟩
  · rw [pdx_toNat]; omega
  · rw [ptx_toNat]; omega
  · rw [wdx_toNat]; omega

theorem cmapAddr_indices {i : U32} {c : BitVec 10} (h : i.toNat = c.toNat) :
    pdx (cmapAddr i) = 1023 ∧ ptx (cmapAddr i) = 1023 ∧ wdx (cmapAddr i) = c := by
  have hc := c.isLt
  refine indices_eq ?_
  rw [cmapAddr, BitVec.toNat_add, BitVec.toNat_mul, h]
  simp only [BitVec.reduceToNat]
  omega

theorem ctblAddr_indices (page : U32) : pdx (ctblAddr (page >>> 12)) = 1023 ∧
    ptx (ctblAddr (page >>> 12)) = pdx page ∧ wdx (ctblAddr (page >>> 12)) = ptx page := by
  have hp := page.isLt
  refine indices_eq ?_
  rw [ctblAddr, BitVec.toNat_add, BitVec.toNat_mul, BitVec.toNat_ushiftRight, pdx_toNat, ptx_toNat,
    Nat.shiftRight_eq_div_pow]
  simp only [BitVec.reduceToNat]
  omega

theorem shiftRight_22 (page : U32) : (page >>> 22).toNat = (pdx page).toNat := by
  have hp := page.isLt
  rw [pdx_toNat, BitVec.toNat_ushiftRight, Nat.shiftRight_eq_div_pow]
  omega

theorem segment_toNat (page : U32) :
    (page &&& 0xFFC00000).toNat = page.toNat / 4194304 * 4194304 := by
  have hmask : (page &&& 0xFFC00000 : U32) = (page >>> 22) <<< 22 := by
    ext i hi
    interval_cases i <;> simp
  have hp := page.isLt
  rw [hmask, BitVec.toNat_shiftLeft, BitVec.toNat_ushiftRight, Nat.shiftRight_eq_div_pow,
    Nat.shiftLeft_eq]
  omega

theorem segment_pdx (page : U32) : pdx (page &&& 0xFFC00000) = pdx page := by
  have hp := page.isLt
  apply BitVec.eq_of_toNat_eq
  rw [pdx_toNat, pdx_toNat, segment_toNat]
  omega

/-- The words of the table of a segment, as `memclr` meets them. -/
theorem segmentTable_indices (page : U32) {i : ℕ} (hi : i < 1024) :
    pdx (ctblAddr ((page &&& 0xFFC00000) >>> 12) + 4 * BitVec.ofNat 32 i) = 1023 ∧
      ptx (ctblAddr ((page &&& 0xFFC00000) >>> 12) + 4 * BitVec.ofNat 32 i) = pdx page ∧
      wdx (ctblAddr ((page &&& 0xFFC00000) >>> 12) + 4 * BitVec.ofNat 32 i) =
        BitVec.ofNat 10 i := by
  have hp := page.isLt
  refine indices_eq ?_
  rw [ctblAddr, BitVec.toNat_add, BitVec.toNat_add, BitVec.toNat_mul, BitVec.toNat_mul,
    BitVec.toNat_ushiftRight, segment_toNat, pdx_toNat, Nat.shiftRight_eq_div_pow,
    BitVec.toNat_ofNat, BitVec.toNat_ofNat]
  simp only [BitVec.reduceToNat]
  omega

theorem tmpSrc_indices {i : ℕ} (hi : i < 1024) :
    pdx (TMP_SRC + 4 * BitVec.ofNat 32 i) = 1020 ∧ ptx (TMP_SRC + 4 * BitVec.ofNat 32 i) = 16 ∧
      wdx (TMP_SRC + 4 * BitVec.ofNat 32 i) = BitVec.ofNat 10 i := by
  refine indices_eq ?_
  rw [TMP_SRC, BitVec.toNat_add, BitVec.toNat_mul, BitVec.toNat_ofNat, BitVec.toNat_ofNat]
  simp only [BitVec.reduceToNat]
  omega

theorem exmapAddr_indices {i : ℕ} (hi : i < 1024) :
    pdx (exmapAddr (BitVec.ofNat 32 i)) = 1022 ∧ ptx (exmapAddr (BitVec.ofNat 32 i)) = 1023 ∧
      wdx (exmapAddr (BitVec.ofNat 32 i)) = BitVec.ofNat 10 i := by
  refine indices_eq ?_
  rw [exmapAddr, TMP_MAP, BitVec.toNat_add, BitVec.toNat_add, BitVec.toNat_mul, BitVec.toNat_ofNat,
    BitVec.toNat_ofNat]
  simp only [BitVec.reduceToNat]
  omega

theorem extblAddr_indices {i j : ℕ} (hi : i < 1022) (hj : j < 1024) :
    pdx (extblAddr (BitVec.ofNat 32 i * 1024 + BitVec.ofNat 32 j)) = 1022 ∧
      ptx (extblAddr (BitVec.ofNat 32 i * 1024 + BitVec.ofNat 32 j)) = BitVec.ofNat 10 i ∧
      wdx (extblAddr (BitVec.ofNat 32 i * 1024 + BitVec.ofNat 32 j)) = BitVec.ofNat 10 j := by
  refine indices_eq ?_
  rw [extblAddr, TMP_MAP, BitVec.toNat_add, BitVec.toNat_mul, BitVec.toNat_add, BitVec.toNat_mul,
    BitVec.toNat_ofNat, BitVec.toNat_ofNat, BitVec.toNat_ofNat, BitVec.toNat_ofNat]
  simp only [BitVec.reduceToNat]
  omega

/-! ### Entries -/

/-- The entry is present. -/
def Pres (w : U32) : Prop := w &&& PF_PRES ≠ 0

instance (w : U32) : Decidable (Pres w) := inferInstanceAs (Decidable (_ ≠ _))

/-- The entry is present and writable. -/
def Rw (w : U32) : Prop := w &&& 3 = 3

theorem Rw.pres {w : U32} (h : Rw w) : Pres w := by
  intro hz
  have hand : w &&& 3 &&& 1 = w &&& PF_PRES := by
    rw [BitVec.and_assoc]
    rfl
  rw [show w &&& 3 = 3 from h, hz] at hand
  cases hand

theorem not_pres {w : U32} : ¬Pres w ↔ w &&& PF_PRES = 0 := not_not

theorem not_pres_zero : ¬Pres 0 := by decide

/-- The entry `page_touch` writes. -/
theorem touched_entry (f : U32) : Rw (f ||| PF_PRES ||| PF_RW ||| PF_USER) ∧
    frameNo (f ||| PF_PRES ||| PF_RW ||| PF_USER) = frameNo f := by
  constructor
  · unfold Rw PF_PRES PF_RW PF_USER
    ext i hi
    interval_cases i <;> simp
  · unfold frameNo PF_PRES PF_RW PF_USER
    ext i hi
    interval_cases i <;> simp

theorem pageFmt_frame (base flags : U32) : frameNo (pageFmt base flags) = frameNo base := by
  unfold frameNo pageFmt PF_MASK
  ext i hi
  interval_cases i <;> simp

theorem pageFmt_flags (base flags : U32) : pageFmt base flags &&& 3 = flags &&& 3 := by
  unfold pageFmt PF_MASK
  ext i hi
  interval_cases i <;> simp

theorem pageFmt_rw (base : U32) : Rw (pageFmt base (PF_PRES ||| PF_RW)) := by
  rw [Rw, pageFmt_flags]
  rfl

theorem pageUfmt_frame (w : U32) : frameNo (pageUfmt w) = frameNo w := by
  unfold frameNo pageUfmt
  ext i hi
  interval_cases i <;> simp

/-! ### Words of physical memory -/

/-- Another contents for a frame. -/
def Mem.fill (m : Mem) (f : BitVec 20) (g : BitVec 10 → U32) : Mem :=
  { m with phys := Function.update m.phys f g }

/-- Another value for a word. -/
def Mem.poke (m : Mem) (f : BitVec 20) (i : BitVec 10) (w : U32) : Mem :=
  m.fill f (Function.update (m.phys f) i w)

section Words

variable (m : Mem) (f g : BitVec 20) (i k : BitVec 10) (w : U32) (c : BitVec 10 → U32)

@[simp] theorem fill_self : (m.fill f c).phys f = c := Function.update_self _ _ _

theorem fill_of_ne (h : g ≠ f) : (m.fill f c).phys g = m.phys g := Function.update_of_ne h _ _

@[simp] theorem fill_fill (c' : BitVec 10 → U32) : (m.fill f c).fill f c' = m.fill f c' := by
  unfold Mem.fill
  rw [Function.update_idem]

theorem fill_phys : m.fill f (m.phys f) = m := by
  unfold Mem.fill
  rw [Function.update_eq_self]

@[simp] theorem poke_self : (m.poke f i w).phys f i = w := by
  rw [Mem.poke, fill_self, Function.update_self]

theorem poke_of_ne (h : g ≠ f ∨ k ≠ i) : (m.poke f i w).phys g k = m.phys g k := by
  by_cases hg : g = f
  · have hk : k ≠ i := h.resolve_left fun hne => hne hg
    rw [hg, Mem.poke, fill_self, Function.update_of_ne hk]
  · rw [Mem.poke, fill_of_ne m f g _ hg]

end Words

/-! ### Translation -/

/-- The loaded directory. -/
def Mem.dir (m : Mem) : BitVec 20 := frameNo m.cr3

/-- The loaded directory names itself. -/
structure SelfMapped (m : Mem) : Prop where
  pres : Pres (m.phys m.dir 1023)
  self : frameNo (m.phys m.dir 1023) = m.dir

theorem translate_eq {m : Mem} {va : U32} (hd : Pres (m.phys m.dir (pdx va)))
    (ht : Pres (m.phys (frameNo (m.phys m.dir (pdx va))) (ptx va))) :
    m.translate va =
      .ok (frameNo (m.phys (frameNo (m.phys m.dir (pdx va))) (ptx va)), wdx va) := by
  exact (if_neg hd).trans (if_neg ht)

theorem read_eq {m : Mem} {va : U32} {f : BitVec 20} {i : BitVec 10}
    (h : m.translate va = .ok (f, i)) : m.read va = .ok (m.phys f i) := by
  rw [Mem.read, h]
  rfl

theorem write_eq {m : Mem} {va : U32} {f : BitVec 20} {i : BitVec 10}
    (h : m.translate va = .ok (f, i)) (w : U32) : m.write va w = .ok (m.poke f i w) := by
  rw [Mem.write, h]
  rfl

/-- `memclr` of a page that maps a frame, wherever its words are looked up. -/
theorem clearPage_eq {m : Mem} {va : U32} {f : BitVec 20}
    (h : ∀ c, ∀ i < 1024, (m.fill f c).translate (va + 4 * BitVec.ofNat 32 i) =
      .ok (f, BitVec.ofNat 10 i)) : clearPage m va = .ok (m.fill f fun _ => 0) := by
  let wiped : ℕ → Mem := fun k => m.fill f fun i => if i.toNat < k then 0 else m.phys f i
  have hstart : m = wiped 0 := by
    simp only [wiped, Nat.not_lt_zero, if_false]
    exact (fill_phys m f).symm
  have hend : wiped 1024 = m.fill f fun _ => 0 := by
    have hall : ∀ i : BitVec 10, i.toNat < 1024 := fun i => i.isLt
    simp only [wiped, hall, if_true]
  have hturn : ∀ k < 1024, ∀ s, s = wiped k →
      ∃ s', s.write (va + 4 * BitVec.ofNat 32 k) 0 = .ok s' ∧ s' = wiped (k + 1) := by
    rintro k hk s rfl
    refine ⟨_, write_eq (h _ k hk) 0, ?_⟩
    simp only [wiped, Mem.poke, fill_fill, fill_self]
    congr 1
    funext i
    have hik : i = BitVec.ofNat 10 k ↔ i.toNat = k := by
      rw [BitVec.toNat_eq, BitVec.toNat_ofNat, Nat.mod_eq_of_lt (show k < 2 ^ 10 by omega)]
    rw [Function.update_apply]
    split
    · rename_i hi
      rw [if_pos (by have := hik.mp hi; omega)]
    · rename_i hi
      have hne : i.toNat ≠ k := fun he => hi (hik.mpr he)
      by_cases hlt : i.toNat < k
      · rw [if_pos hlt, if_pos (by omega)]
      · rw [if_neg hlt, if_neg (by omega)]
  obtain ⟨m', hm', hP⟩ := foldlM_range_ok (P := fun k s => s = wiped k) hstart hturn
  unfold clearPage
  rw [hm', hP, hend]

/-- The entry of a page in an address space, 0 where there is no table. -/
def Mem.entry (m : Mem) (d : BitVec 20) (page : U32) : U32 :=
  if Pres (m.phys d (pdx page)) then m.phys (frameNo (m.phys d (pdx page))) (ptx page) else 0

/-- The table of a page in the loaded address space. -/
def Mem.tab (m : Mem) (page : U32) : BitVec 20 := frameNo (m.phys m.dir (pdx page))

/-- A new, empty table for the segment of a page. -/
def Mem.touched (m : Mem) (page f : U32) : Mem :=
  (m.poke m.dir (pdx page) (f ||| PF_PRES ||| PF_RW ||| PF_USER)).fill (frameNo f) fun _ => 0

namespace SelfMapped

variable {m m₁ : Mem} {page f : U32}

theorem cmap (h : SelfMapped m) {i : U32} {e : BitVec 10} (hi : i.toNat = e.toNat) :
    m.translate (cmapAddr i) = .ok (m.dir, e) := by
  obtain ⟨hd, ht, hw⟩ := cmapAddr_indices hi
  have hpres := h.pres
  rw [translate_eq, hd, ht, hw, h.self, h.self]
  · rw [hd]; exact hpres
  · rw [hd, ht, h.self]; exact hpres

theorem ctbl (h : SelfMapped m) (hp : Pres (m.phys m.dir (pdx page))) :
    m.translate (ctblAddr (page >>> 12)) = .ok (m.tab page, ptx page) := by
  obtain ⟨hd, ht, hw⟩ := ctblAddr_indices page
  rw [translate_eq, hd, ht, hw, h.self]
  · rfl
  · rw [hd]; exact h.pres
  · rw [hd, ht, h.self]; exact hp

theorem read_cmap (h : SelfMapped m) (page : U32) :
    m.read (cmapAddr (page >>> 22)) = .ok (m.phys m.dir (pdx page)) :=
  read_eq (h.cmap (shiftRight_22 page))

theorem get (h : SelfMapped m) (page : U32) : pageGet m page = .ok (m.entry m.dir page) := by
  unfold pageGet Mem.entry
  rw [h.read_cmap]
  by_cases hp : Pres (m.phys m.dir (pdx page))
  · rw [if_pos hp]
    exact (if_neg hp).trans (read_eq (h.ctbl hp))
  · rw [if_neg hp]
    exact if_pos (not_pres.mp hp)

theorem touch_present (h : SelfMapped m) (hp : Pres (m.phys m.dir (pdx page))) :
    pageTouch m page = .ok m := by
  unfold pageTouch
  dsimp only
  rw [h.read_cmap, segment_pdx]
  exact if_pos hp

theorem same (h : SelfMapped m) (hphys : m₁.phys = m.phys) (hcr3 : m₁.cr3 = m.cr3) :
    SelfMapped m₁ := by
  have hdir : m₁.dir = m.dir := congrArg frameNo hcr3
  exact ⟨by rw [hphys, hdir]; exact h.pres, by rw [hphys, hdir]; exact h.self⟩

/-- A new table is named by the directory at once, so that it is cleared where it will
be used. -/
theorem touch_absent (h : SelfMapped m) (hp : ¬Pres (m.phys m.dir (pdx page)))
    (hnew : frameNew m = .ok (f, m₁)) (hphys : m₁.phys = m.phys) (hcr3 : m₁.cr3 = m.cr3)
    (hf : frameNo f ≠ m.dir) : pageTouch m page = .ok (m₁.touched page f) := by
  have h₁ := h.same hphys hcr3
  have hdir : m₁.dir = m.dir := congrArg frameNo hcr3
  have hlast : (1023 : BitVec 10) ≠ pdx page := by
    intro he
    rw [← he] at hp
    exact hp h.pres
  set w := f ||| PF_PRES ||| PF_RW ||| PF_USER with hw
  obtain ⟨hrw, hfw⟩ : Rw w ∧ frameNo w = frameNo f := touched_entry f
  have hclear : clearPage (m₁.poke m₁.dir (pdx page) w)
      (ctblAddr ((page &&& 0xFFC00000) >>> 12)) = .ok (m₁.touched page f) := by
    refine clearPage_eq fun c i hi => ?_
    obtain ⟨hpd, hpt, hpw⟩ := segmentTable_indices page hi
    -- the directory is another frame than the one being cleared
    have hdirPhys : ∀ e, ((m₁.poke m₁.dir (pdx page) w).fill (frameNo f) c).phys m₁.dir e =
        (m₁.poke m₁.dir (pdx page) w).phys m₁.dir e := by
      intro e
      rw [fill_of_ne _ _ _ _ (by rw [hdir]; exact hf.symm)]
    have hself := hdirPhys 1023
    rw [poke_of_ne _ _ _ _ _ _ (Or.inr hlast)] at hself
    have hnewEntry := hdirPhys (pdx page)
    rw [poke_self] at hnewEntry
    have hcur : ((m₁.poke m₁.dir (pdx page) w).fill (frameNo f) c).dir = m₁.dir := rfl
    rw [translate_eq, hpd, hpt, hpw, hcur, hself, h₁.self, hnewEntry, hfw]
    · rw [hpd, hcur, hself]; exact h₁.pres
    · rw [hpd, hpt, hcur, hself, h₁.self, hnewEntry]; exact hrw.pres
  unfold pageTouch
  dsimp only
  rw [h.read_cmap, segment_pdx]
  refine (if_neg (show ¬¬_ from not_not.mpr (not_pres.mp hp))).trans ?_
  rw [hnew]
  refine bind_eq_ok.mpr ⟨_, rfl, ?_⟩
  refine bind_eq_ok.mpr ⟨_, write_eq (h₁.cmap (shiftRight_22 _)) _, ?_⟩
  rw [segment_pdx]
  exact hclear

theorem set_present (h : SelfMapped m) (hp : Pres (m.phys m.dir (pdx page))) (v : U32) :
    pageSet m page v = .ok (m.poke (m.tab page) (ptx page) v) := by
  unfold pageSet
  rw [h.read_cmap]
  refine bind_eq_ok.mpr ⟨_, rfl, ?_⟩
  dsimp only
  rw [if_neg (show ¬_ from hp)]
  exact write_eq (h.ctbl hp) v

theorem set_absent (h : SelfMapped m) (hp : ¬Pres (m.phys m.dir (pdx page)))
    (hnew : frameNew m = .ok (f, m₁)) (hphys : m₁.phys = m.phys) (hcr3 : m₁.cr3 = m.cr3)
    (hf : frameNo f ≠ m.dir) (v : U32) :
    pageSet m page v = .ok ((m₁.touched page f).poke (frameNo f) (ptx page) v) := by
  have hdir : m₁.dir = m.dir := congrArg frameNo hcr3
  have hlast : (1023 : BitVec 10) ≠ pdx page := by
    intro he
    rw [← he] at hp
    exact hp h.pres
  obtain ⟨hrw, hfw⟩ := touched_entry f
  have hphysT : ∀ e, (m₁.touched page f).phys m.dir e =
      if e = pdx page then f ||| PF_PRES ||| PF_RW ||| PF_USER else m.phys m.dir e := by
    intro e
    rw [Mem.touched, fill_of_ne _ _ _ _ hf.symm, hdir]
    split
    · rename_i he
      rw [he, poke_self]
    · rename_i he
      rw [poke_of_ne _ _ _ _ _ _ (Or.inr he), hphys]
  have hcur : (m₁.touched page f).dir = m.dir := hdir
  have hT : SelfMapped (m₁.touched page f) := by
    refine ⟨?_, ?_⟩
    · rw [hcur, hphysT, if_neg hlast]; exact h.pres
    · rw [hcur, hphysT, if_neg hlast]; exact h.self
  have hpT : (m₁.touched page f).phys (m₁.touched page f).dir (pdx page) =
      f ||| PF_PRES ||| PF_RW ||| PF_USER := by
    rw [hcur, hphysT, if_pos rfl]
  unfold pageSet
  rw [h.read_cmap]
  refine bind_eq_ok.mpr ⟨_, rfl, ?_⟩
  dsimp only
  rw [if_pos (not_pres.mp hp)]
  refine bind_eq_ok.mpr ⟨_, h.touch_absent hp hnew hphys hcr3 hf, ?_⟩
  have hwrite := @SelfMapped.ctbl _ page hT (by rw [hpT]; exact hrw.pres)
  rw [Mem.tab, hpT, hfw] at hwrite
  exact write_eq hwrite v

end SelfMapped

end Pinion
