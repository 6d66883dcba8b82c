/-
Copying and clearing memory through the page tables.

* `Mem.seen` — the byte at a mapped address;
* `Kept` — neither tables nor held frames have changed, and no page has moved;
* `writeByte_kept`, `writeByte_seen` — one store;
* `memcpy_kept`, `memclr_kept` — what a copy or clear that returned left alone;
* `memcpy_seen`, `memclr_seen` — the bytes after it, when pages do not share frames.
-/
import Pinion.Elf
import Pinion.Mapping

open Runs

namespace Pinion

/-! ### Bytes of a word -/

theorem mask_bit (n : ℕ) : (255#32).getLsbD n = decide (n < 8) := by
  by_cases hn : n < 32
  · interval_cases n <;> rfl
  · rw [BitVec.getLsbD_of_ge _ _ (by omega), decide_eq_false (by omega)]

theorem byteAt_setByteAt (w : U32) (j k : BitVec 2) (b : U8) :
    byteAt (setByteAt w j b) k = if k = j then b else byteAt w k := by
  have hj := j.isLt
  have hk := k.isLt
  ext i hi
  have h32 : 8 * k.toNat + i < 32 := by omega
  split_ifs with heq
  · subst heq
    simp [byteAt, setByteAt, mask_bit, h32, hi, BitVec.getLsbD_eq_getElem]
  · have hne : k.toNat ≠ j.toNat := fun h => heq (BitVec.eq_of_toNat_eq h)
    rcases Nat.lt_or_gt_of_ne hne with hlt | hgt
    · have hlow : 8 * k.toNat + i < 8 * j.toNat := by omega
      simp [byteAt, setByteAt, h32, hlow]
    · have hlow : ¬8 * k.toNat + i < 8 * j.toNat := by omega
      have hhigh : ¬8 * k.toNat + i - 8 * j.toNat < 8 := by omega
      have hzero : b.getLsbD (8 * k.toNat + i - 8 * j.toNat) = false :=
        BitVec.getLsbD_of_ge _ _ (by omega)
      simp [byteAt, setByteAt, h32, hlow, hzero]
      intro _
      rw [← BitVec.getLsbD_eq_getElem, mask_bit, decide_eq_false hhigh]

/-! ### Bytes of a frame -/

/-- The offset of an address in its page. -/
def off (va : U32) : BitVec 12 := va.extractLsb' 0 12

/-- A byte of a frame. -/
def Mem.byte (m : Mem) (g : BitVec 20) (o : BitVec 12) : U8 :=
  byteAt (m.phys g (o.extractLsb' 2 10)) (o.extractLsb' 0 2)

/-- Another value for a byte of a frame. -/
def Mem.putByte (m : Mem) (g : BitVec 20) (o : BitVec 12) (b : U8) : Mem :=
  m.poke g (o.extractLsb' 2 10) (setByteAt (m.phys g (o.extractLsb' 2 10)) (o.extractLsb' 0 2) b)

/-- The byte at a mapped address. -/
def Mem.seen (m : Mem) (va : U32) : U8 := m.byte (frameNo (m.pte va)) (off va)

theorem off_toNat (va : U32) : (off va).toNat = va.toNat % 4096 := by
  rw [off, BitVec.extractLsb'_toNat, Nat.shiftRight_zero]

theorem off_word (va : U32) : (off va).extractLsb' 2 10 = wdx va := by
  apply BitVec.eq_of_toNat_eq
  rw [BitVec.extractLsb'_toNat, off_toNat, wdx_toNat, Nat.shiftRight_eq_div_pow]
  omega

theorem off_byte (va : U32) : (off va).extractLsb' 0 2 = va.extractLsb' 0 2 := by
  apply BitVec.eq_of_toNat_eq
  rw [BitVec.extractLsb'_toNat, BitVec.extractLsb'_toNat, off_toNat, Nat.shiftRight_zero,
    Nat.shiftRight_zero]
  omega

/-- An address is its page and its offset. -/
theorem eq_of_samePage {va va' : U32} (hpage : SamePage va va') (hoff : off va = off va') :
    va = va' := by
  rw [samePage_iff] at hpage
  have hoff := congrArg BitVec.toNat hoff
  rw [off_toNat, off_toNat] at hoff
  apply BitVec.eq_of_toNat_eq
  omega

theorem offset_split {o o' : BitVec 12} (hw : o.extractLsb' 2 10 = o'.extractLsb' 2 10)
    (hb : o.extractLsb' 0 2 = o'.extractLsb' 0 2) : o = o' := by
  have hw := congrArg BitVec.toNat hw
  have hb := congrArg BitVec.toNat hb
  have ho := o.isLt
  have ho' := o'.isLt
  rw [BitVec.extractLsb'_toNat, BitVec.extractLsb'_toNat, Nat.shiftRight_eq_div_pow,
    Nat.shiftRight_eq_div_pow] at hw
  rw [BitVec.extractLsb'_toNat, BitVec.extractLsb'_toNat, Nat.shiftRight_zero,
    Nat.shiftRight_zero] at hb
  apply BitVec.eq_of_toNat_eq
  omega

theorem putByte_self (m : Mem) (g : BitVec 20) (o : BitVec 12) (b : U8) :
    (m.putByte g o b).byte g o = b := by
  rw [Mem.byte, Mem.putByte, poke_self, byteAt_setByteAt, if_pos rfl]

theorem putByte_of_ne (m : Mem) {g g' : BitVec 20} {o o' : BitVec 12} (b : U8)
    (h : ¬(g' = g ∧ o' = o)) : (m.putByte g o b).byte g' o' = m.byte g' o' := by
  rw [Mem.byte, Mem.putByte]
  by_cases hword : g' = g ∧ o'.extractLsb' 2 10 = o.extractLsb' 2 10
  · obtain ⟨rfl, hw⟩ := hword
    have hb : o'.extractLsb' 0 2 ≠ o.extractLsb' 0 2 :=
      fun hb => h ⟨rfl, offset_split hw hb⟩
    rw [hw, poke_self, byteAt_setByteAt, if_neg hb, Mem.byte, hw]
  · rw [poke_of_ne _ _ _ _ _ _ (not_and_or.mp hword)]
    rfl

section Access

variable {m m' : Mem} {va : U32}

theorem readByte_eq (h : Pres (m.pte va)) : m.readByte va = .ok (m.seen va) := by
  rw [Mem.readByte, translate_pte h, Mem.seen, Mem.byte, off_word, off_byte]
  rfl

theorem readByte_ok {b : U8} (h : m.readByte va = .ok b) : Pres (m.pte va) ∧ m.seen va = b := by
  by_cases hp : Pres (m.pte va)
  · cases h.symm.trans (readByte_eq hp)
    exact ⟨hp, rfl⟩
  · rw [Mem.readByte, translate_fault hp] at h
    cases h

theorem writeByte_eq (h : Pres (m.pte va)) (b : U8) :
    m.writeByte va b = .ok (m.putByte (frameNo (m.pte va)) (off va) b) := by
  rw [Mem.writeByte, translate_pte h, Mem.putByte, off_word, off_byte]
  rfl

theorem writeByte_ok {b : U8} (h : m.writeByte va b = .ok m') :
    Pres (m.pte va) ∧ m' = m.putByte (frameNo (m.pte va)) (off va) b := by
  by_cases hp : Pres (m.pte va)
  · cases h.symm.trans (writeByte_eq hp b)
    exact ⟨hp, rfl⟩
  · rw [Mem.writeByte, translate_fault hp] at h
    cases h

end Access

/-! ### What a store keeps -/

/-- Neither tables nor held frames have changed, and no page has moved. -/
structure Kept (m m' : Mem) (H A : Set (BitVec 20)) : Prop where
  space : Space m' H A
  frames : SameFrames m m'
  table : ∀ g, m'.Table g ↔ m.Table g
  pte : ∀ va, m'.pte va = m.pte va
  held : ∀ g ∈ H, m'.phys g = m.phys g

section Stores

variable {m m₁ m₂ m' : Mem} {H A : Set (BitVec 20)} {va : U32}

theorem Kept.refl (h : Space m H A) : Kept m m H A :=
  ⟨h, SameFrames.refl m, fun _ => Iff.rfl, fun _ => rfl, fun _ _ => rfl⟩

theorem Kept.trans (h : Kept m m₁ H A) (h' : Kept m₁ m₂ H A) : Kept m m₂ H A :=
  ⟨h'.space, h.frames.trans h'.frames, fun g => (h'.table g).trans (h.table g),
    fun va => (h'.pte va).trans (h.pte va), fun g hg => (h'.held g hg).trans (h.held g hg)⟩

theorem Kept.opens (h : Kept m m' H A) (ho : m.Open H A va) : m'.Open H A va := by
  unfold Mem.Open
  rw [h.pte, h.table]
  exact ho

/-- A store to a page that may be written. -/
theorem writeByte_kept (hs : Space m H A) (ho : m.Open H A va) {b : U8}
    (h : m.writeByte va b = .ok m') : Kept m m' H A := by
  obtain ⟨hp, rfl⟩ := writeByte_ok h
  obtain ⟨hT, hH, -⟩ := ho hp
  have hphys : ∀ g, g ≠ frameNo (m.pte va) →
      (m.putByte (frameNo (m.pte va)) (off va) b).phys g = m.phys g :=
    fun g hg => fill_of_ne _ _ _ _ hg
  have hsame : SameFrames m (m.putByte (frameNo (m.pte va)) (off va) b) :=
    ⟨rfl, rfl, rfl, rfl, rfl, rfl⟩
  obtain ⟨hspace, htable, hpte⟩ := hs.same hsame rfl fun g hg =>
    hphys g fun he => hT (he ▸ hg)
  exact ⟨hspace, hsame, htable, hpte, fun g hg => hphys g fun he => hH (he ▸ hg)⟩

/-- The byte a store writes, and the others. -/
theorem writeByte_seen (hs : Space m H A) (ho : m.Open H A va) {b : U8}
    (h : m.writeByte va b = .ok m') : m'.seen va = b ∧
      ∀ va', (frameNo (m.pte va') = frameNo (m.pte va) → off va' ≠ off va) →
        m'.seen va' = m.seen va' := by
  have hkept := writeByte_kept hs ho h
  obtain ⟨hp, rfl⟩ := writeByte_ok h
  refine ⟨?_, fun va' hne => ?_⟩
  · rw [Mem.seen, hkept.pte, putByte_self]
  · rw [Mem.seen, hkept.pte]
    exact putByte_of_ne m b fun heq => hne heq.1 heq.2

/-- A byte of a held frame. -/
theorem Kept.seen_held (h : Kept m m' H A) (hH : frameNo (m.pte va) ∈ H) :
    m'.seen va = m.seen va := by
  rw [Mem.seen, Mem.seen, h.pte, Mem.byte, Mem.byte, h.held _ hH]

end Stores

/-! ### The loops -/

section Loops

variable {m m' : Mem} {H A : Set (BitVec 20)} {d s n : U32}

theorem memcpy_out : (memcpy m d s n).out = (List.range n.toNat).foldlM (fun m i =>
    m.readByte (s + BitVec.ofNat 32 i) >>= fun b => m.writeByte (d + BitVec.ofNat 32 i) b) m := by
  rw [memcpy, Traced.out_foldlM]
  congr 1
  funext m i
  rw [Traced.out_bind]
  rfl

theorem memclr_out : (memclr m d n).out = (List.range n.toNat).foldlM (fun m i =>
    m.writeByte (d + BitVec.ofNat 32 i) 0) m := by
  rw [memclr, Traced.out_foldlM]
  rfl

theorem memcpy_log {a : U32} (h : a ∈ (memcpy m d s n).log) :
    ∃ i < n.toNat, a = d + BitVec.ofNat 32 i := by
  refine Traced.foldlM_log (P := fun a => ∃ i < n.toNat, a = d + BitVec.ofNat 32 i)
    (fun m i hi a ha => ?_) m a h
  rw [Traced.mem_bind_log] at ha
  rcases ha with ha | ⟨b, -, ha⟩
  · cases ha
  · exact ⟨i, List.mem_range.mp hi, List.mem_singleton.mp ha⟩

theorem memclr_log {a : U32} (h : a ∈ (memclr m d n).log) :
    ∃ i < n.toNat, a = d + BitVec.ofNat 32 i := by
  refine Traced.foldlM_log (P := fun a => ∃ i < n.toNat, a = d + BitVec.ofNat 32 i)
    (fun m i hi a ha => ?_) m a h
  exact ⟨i, List.mem_range.mp hi, List.mem_singleton.mp ha⟩

theorem memcpy_kept (hs : Space m H A)
    (ho : ∀ i < n.toNat, m.Open H A (d + BitVec.ofNat 32 i))
    (h : (memcpy m d s n).out = .ok m') : Kept m m' H A := by
  rw [memcpy_out] at h
  refine foldlM_range_invariant (P := fun _ m' => Kept m m' H A) (Kept.refl hs) ?_ h
  intro k hk m₁ m₂ h₁ hstep
  obtain ⟨b, -, hstep⟩ := bind_eq_ok.mp hstep
  exact h₁.trans (writeByte_kept h₁.space (h₁.opens (ho k hk)) hstep)

theorem memclr_kept (hs : Space m H A)
    (ho : ∀ i < n.toNat, m.Open H A (d + BitVec.ofNat 32 i))
    (h : (memclr m d n).out = .ok m') : Kept m m' H A := by
  rw [memclr_out] at h
  refine foldlM_range_invariant (P := fun _ m' => Kept m m' H A) (Kept.refl hs) ?_ h
  intro k hk m₁ m₂ h₁ hstep
  exact h₁.trans (writeByte_kept h₁.space (h₁.opens (ho k hk)) hstep)

/-! ### The bytes written -/

/-- The pages of the addresses in `V` do not share frames. -/
def Mem.Inj (m : Mem) (V : Set U32) : Prop :=
  ∀ va ∈ V, ∀ va' ∈ V, Pres (m.pte va) → Pres (m.pte va') →
    frameNo (m.pte va) = frameNo (m.pte va') → SamePage va va'

/-- `k` bytes `g 0`, `g 1`, … have been written from `d` on, and no other address in `V`. -/
def Filled (m m' : Mem) (V : Set U32) (d : U32) (g : ℕ → U8) (k : ℕ) : Prop :=
  ∀ va ∈ V, Pres (m.pte va) → m'.seen va =
    if d.toNat ≤ va.toNat ∧ va.toNat < d.toNat + k then g (va.toNat - d.toNat) else m.seen va

variable {V : Set U32} {g : ℕ → U8} {k : ℕ}

theorem Filled.zero : Filled m m V d g 0 := by
  intro va _ _
  rw [if_neg (by omega)]

/-- One more byte. -/
theorem Filled.step {m₁ : Mem} (hkept : Kept m m' H A) (hf : Filled m m' V d g k)
    (hinj : m.Inj V) (hV : d + BitVec.ofNat 32 k ∈ V) (ho : m.Open H A (d + BitVec.ofNat 32 k))
    (hk : d.toNat + k < 2 ^ 32) (h : m'.writeByte (d + BitVec.ofNat 32 k) (g k) = .ok m₁) :
    Filled m m₁ V d g (k + 1) := by
  obtain ⟨hself, hother⟩ := writeByte_seen hkept.space (hkept.opens ho) h
  have hp : Pres (m.pte (d + BitVec.ofNat 32 k)) := by
    rw [← hkept.pte]
    exact (writeByte_ok h).1
  have haddr : (d + BitVec.ofNat 32 k).toNat = d.toNat + k := by
    rw [BitVec.toNat_add, BitVec.toNat_ofNat]
    omega
  intro va hva hpva
  by_cases heq : va = d + BitVec.ofNat 32 k
  · rw [heq, hself, haddr, if_pos (by omega)]
    congr 1
    omega
  · have hne : va.toNat ≠ d.toNat + k := fun h => heq (BitVec.eq_of_toNat_eq (h.trans haddr.symm))
    rw [hother va fun hframe hoff => ?_, hf va hva hpva]
    · exact if_congr (by omega) rfl rfl
    · rw [hkept.pte, hkept.pte] at hframe
      exact heq (eq_of_samePage (hinj va hva _ hV hpva hp hframe) hoff)

/-- **`memcpy`** from held frames. -/
theorem memcpy_seen (hs : Space m H A) (hinj : m.Inj V) (hd : d.toNat + n.toNat ≤ 2 ^ 32)
    (hdst : ∀ i < n.toNat, d + BitVec.ofNat 32 i ∈ V ∧ Pres (m.pte (d + BitVec.ofNat 32 i)) ∧
      m.Open H A (d + BitVec.ofNat 32 i))
    (hsrc : ∀ i < n.toNat, Pres (m.pte (s + BitVec.ofNat 32 i)) ∧
      frameNo (m.pte (s + BitVec.ofNat 32 i)) ∈ H) :
    ∃ m', (memcpy m d s n).out = .ok m' ∧ Kept m m' H A ∧
      Filled m m' V d (fun i => m.seen (s + BitVec.ofNat 32 i)) n.toNat := by
  rw [memcpy_out]
  refine foldlM_range_ok (P := fun k m' => Kept m m' H A ∧
    Filled m m' V d (fun i => m.seen (s + BitVec.ofNat 32 i)) k) ⟨Kept.refl hs, Filled.zero⟩ ?_
  rintro k hk m₁ ⟨hkept, hf⟩
  obtain ⟨hV, hp, ho⟩ := hdst k hk
  obtain ⟨hps, hH⟩ := hsrc k hk
  have hread := readByte_eq
    (show Pres (m₁.pte (s + BitVec.ofNat 32 k)) by rw [hkept.pte]; exact hps)
  rw [hkept.seen_held hH] at hread
  have hwrite := writeByte_eq
    (show Pres (m₁.pte (d + BitVec.ofNat 32 k)) by rw [hkept.pte]; exact hp)
    (m.seen (s + BitVec.ofNat 32 k))
  exact ⟨_, bind_eq_ok.mpr ⟨_, hread, hwrite⟩,
    hkept.trans (writeByte_kept hkept.space (hkept.opens ho) hwrite),
    hf.step hkept hinj hV ho (by omega) hwrite⟩

/-- **`memclr`**. -/
theorem memclr_seen (hs : Space m H A) (hinj : m.Inj V) (hd : d.toNat + n.toNat ≤ 2 ^ 32)
    (hdst : ∀ i < n.toNat, d + BitVec.ofNat 32 i ∈ V ∧ Pres (m.pte (d + BitVec.ofNat 32 i)) ∧
      m.Open H A (d + BitVec.ofNat 32 i)) :
    ∃ m', (memclr m d n).out = .ok m' ∧ Kept m m' H A ∧ Filled m m' V d (fun _ => 0) n.toNat := by
  rw [memclr_out]
  refine foldlM_range_ok (P := fun k m' => Kept m m' H A ∧ Filled m m' V d (fun _ => 0) k)
    ⟨Kept.refl hs, Filled.zero⟩ ?_
  rintro k hk m₁ ⟨hkept, hf⟩
  obtain ⟨hV, hp, ho⟩ := hdst k hk
  have hwrite := writeByte_eq
    (show Pres (m₁.pte (d + BitVec.ofNat 32 k)) by rw [hkept.pte]; exact hp) 0
  exact ⟨_, hwrite, hkept.trans (writeByte_kept hkept.space (hkept.opens ho) hwrite),
    hf.step hkept hinj hV ho (by omega) hwrite⟩

end Loops

end Pinion
