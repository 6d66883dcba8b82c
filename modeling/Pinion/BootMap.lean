/-
The memory map the boot loader hands to `init`.

`init` goes through the entries of the map and gives the frames of the free regions to
the frame allocator.  An entry has a 64-bit base and a 64-bit length; the loop reads
their low halves only.

* `initMemory add n map` — the loop, with `add` in the place of `frame_add` and at most
  `n` turns for a region;
* `frameAdds` — the same, noting the calls;
* `Usable` — the frame is free memory above the boot area;
* `frames_usable_iff` — when the loop ends and gives distinct usable frames only.
-/
import Pinion.Halting

open Runs

namespace Pinion

/-- `struct memory_map`. -/
structure MemoryMap where
  size : U32
  baseAddrLow : U32
  baseAddrHigh : U32
  lengthLow : U32
  lengthHigh : U32
  type : U32
  deriving DecidableEq

/-! ### The loop of `init` -/

/-- The part of an entry above the boot frames, if the loop does not skip it. -/
def avoidBoot (e : MemoryMap) : Option MemoryMap :=
  if e.baseAddrLow < KERNEL_BOOT_SIZE then
    if e.lengthLow < KERNEL_BOOT_SIZE - e.baseAddrLow then none
    else some { e with
      lengthLow := e.lengthLow - (KERNEL_BOOT_SIZE - e.baseAddrLow)
      baseAddrLow := KERNEL_BOOT_SIZE }
  else some e

section Loop

variable {σ : Type} (add : σ → U32 → Except Stop σ)

/-- The loop over one region, from the offset `addr` on. -/
def addRegion (e : MemoryMap) : ℕ → U32 → σ → Except Stop σ
  | 0, _, _ => .error .hang
  | n + 1, addr, s =>
    if addr < e.lengthLow then do
      let s ← add s (e.baseAddrLow + addr)
      addRegion e n (addr + PAGESZ) s
    else .ok s

/-- One entry of the map. -/
def initEntry (n : ℕ) (s : σ) (e : MemoryMap) : Except Stop σ :=
  if e.type = 1 then
    match avoidBoot e with
    | none => .ok s
    | some e => addRegion add e n 0 s
  else .ok s

def initMemory (n : ℕ) (map : List MemoryMap) (s : σ) : Except Stop σ :=
  map.foldlM (initEntry add n) s

end Loop

/-- Note a call of `frame_add`. -/
def noteFrame (calls : List U32) (frame : U32) : Except Stop (List U32) := .ok (calls ++ [frame])

/-- The calls of `frame_add` the loop makes. -/
def frameAdds (n : ℕ) (map : List MemoryMap) : Except Stop (List U32) :=
  initMemory noteFrame n map []

/-! ### Regions -/

namespace MemoryMap

variable (e : MemoryMap)

/-- The 64-bit base of a region. -/
def base : ℕ := 2 ^ 32 * e.baseAddrHigh.toNat + e.baseAddrLow.toNat

/-- The 64-bit length of a region. -/
def length : ℕ := 2 ^ 32 * e.lengthHigh.toNat + e.lengthLow.toNat

/-- The address lies in the region. -/
def Has (a : ℕ) : Prop := e.base ≤ a ∧ a < e.base + e.length

/-- Where the loop starts, going by the low halves. -/
def lo : ℕ := max e.baseAddrLow.toNat KERNEL_BOOT_SIZE.toNat

/-- Where the region ends, going by the low halves. -/
def hi : ℕ := e.baseAddrLow.toNat + e.lengthLow.toNat

/-- The first frame the loop adds. -/
def first : ℕ := e.lo / 4096

/-- The number of frames the loop adds. -/
def count : ℕ := (e.hi - e.lo + 4095) / 4096

end MemoryMap

/-- The two regions have no address in common. -/
def Apart (e e' : MemoryMap) : Prop := ∀ a, e.Has a → ¬e'.Has a

instance : Std.Symm Apart := ⟨fun _ _ h a h' hh => h a hh h'⟩

/-- The whole frame lies in a free region, above the boot frames. -/
def Usable (map : List MemoryMap) (f : ℕ) : Prop :=
  KERNEL_BOOT_SIZE.toNat ≤ 4096 * f ∧
    ∃ e ∈ map, e.type = 1 ∧ e.base ≤ 4096 * f ∧ 4096 * f + 4096 ≤ e.base + e.length

/-! ### The calls for one region -/

/-- The addresses the loop adds for a free region. -/
def MemoryMap.calls (e : MemoryMap) : List U32 :=
  if e.type = 1 then (List.range e.count).map fun t => BitVec.ofNat 32 (e.lo + 4096 * t) else []

/-- The counter of the loop passes every length it can. -/
def MemoryMap.Ends (e : MemoryMap) : Prop := e.type = 1 → e.hi - e.lo ≤ 0xFFFFF000

/-- The part above the boot frames, by its bounds. -/
theorem avoidBoot_cases (e : MemoryMap) :
    (avoidBoot e = none ∧ e.hi ≤ e.lo) ∨
      ∃ e', avoidBoot e = some e' ∧ e'.baseAddrLow.toNat = e.lo ∧
        e'.lengthLow.toNat = e.hi - e.lo := by
  have hb := e.baseAddrLow.isLt
  have hl := e.lengthLow.isLt
  have hk : KERNEL_BOOT_SIZE.toNat = 0x800000 := rfl
  unfold avoidBoot MemoryMap.hi MemoryMap.lo
  by_cases hlow : e.baseAddrLow < KERNEL_BOOT_SIZE
  · rw [if_pos hlow]
    rw [BitVec.lt_def, hk] at hlow
    have hsub : (KERNEL_BOOT_SIZE - e.baseAddrLow).toNat = 0x800000 - e.baseAddrLow.toNat := by
      rw [BitVec.toNat_sub, hk]
      omega
    by_cases hlen : e.lengthLow < KERNEL_BOOT_SIZE - e.baseAddrLow
    · rw [if_pos hlen]
      rw [BitVec.lt_def, hsub] at hlen
      exact .inl ⟨rfl, by omega⟩
    · rw [if_neg hlen]
      rw [BitVec.lt_def, hsub] at hlen
      refine .inr ⟨_, rfl, ?_, ?_⟩
      · show KERNEL_BOOT_SIZE.toNat = _
        omega
      · show (e.lengthLow - (KERNEL_BOOT_SIZE - e.baseAddrLow)).toNat = _
        rw [BitVec.toNat_sub, hsub]
        omega
  · rw [if_neg hlow]
    rw [BitVec.lt_def, hk] at hlow
    exact .inr ⟨e, rfl, by omega, by omega⟩

section Region

variable {σ : Type} {add : σ → U32 → Except Stop σ} {e : MemoryMap}

/-- The loop over a region whose length the counter can pass. -/
theorem addRegion_eq (hl : e.lengthLow.toNat ≤ 0xFFFFF000) :
    ∀ (k t n : ℕ) (s : σ), t + k = (e.lengthLow.toNat + 4095) / 4096 → k < n →
      addRegion add e n (BitVec.ofNat 32 (4096 * t)) s =
        ((List.range' t k).map fun t =>
          BitVec.ofNat 32 (e.baseAddrLow.toNat + 4096 * t)).foldlM add s := by
  intro k
  induction k with
  | zero =>
    intro t n s ht hn
    obtain ⟨n, rfl⟩ : ∃ j, n = j + 1 := ⟨n - 1, by omega⟩
    rw [addRegion, if_neg]
    · rfl
    · rw [BitVec.lt_def, BitVec.toNat_ofNat]
      omega
  | succ k ih =>
    intro t n s ht hn
    obtain ⟨n, rfl⟩ : ∃ j, n = j + 1 := ⟨n - 1, by omega⟩
    have hlt : BitVec.ofNat 32 (4096 * t) < e.lengthLow := by
      rw [BitVec.lt_def, BitVec.toNat_ofNat]
      omega
    have haddr : e.baseAddrLow + BitVec.ofNat 32 (4096 * t) =
        BitVec.ofNat 32 (e.baseAddrLow.toNat + 4096 * t) := by
      rw [BitVec.ofNat_add, BitVec.ofNat_toNat, BitVec.setWidth_eq]
    have hnext : BitVec.ofNat 32 (4096 * t) + PAGESZ = BitVec.ofNat 32 (4096 * (t + 1)) := by
      rw [Nat.mul_add, BitVec.ofNat_add]
      rfl
    rw [addRegion, if_pos hlt, List.range'_succ, List.map_cons, List.foldlM_cons, haddr]
    refine bind_congr fun s₁ => ?_
    rw [hnext]
    exact ih (t + 1) n s₁ (by omega) (by omega)

/-- The counter never reaches a length above the last page boundary. -/
theorem addRegion_hang (hadd : ∀ s f, ∃ s', add s f = .ok s')
    (hl : 0xFFFFF000 < e.lengthLow.toNat) :
    ∀ (n : ℕ) (addr : U32) (s : σ), 4096 ∣ addr.toNat →
      addRegion add e n addr s = .error .hang := by
  intro n
  induction n with
  | zero =>
    intro addr s _
    rfl
  | succ n ih =>
    intro addr s haddr
    have hlt : addr < e.lengthLow := by
      rw [BitVec.lt_def]
      omega
    obtain ⟨s₁, hs₁⟩ := hadd s (e.baseAddrLow + addr)
    rw [addRegion, if_pos hlt, hs₁]
    refine ih (addr + PAGESZ) s₁ ?_
    rw [BitVec.toNat_add, show PAGESZ.toNat = 4096 from rfl]
    omega

/-- **One entry** adds its calls. -/
theorem initEntry_eq (he : e.Ends) {n : ℕ} (hn : 2 ^ 20 < n) (s : σ) :
    initEntry add n s e = e.calls.foldlM add s := by
  unfold initEntry MemoryMap.calls
  by_cases htype : e.type = 1
  · rw [if_pos htype, if_pos htype]
    have hlen := he htype
    obtain ⟨hnone, hle⟩ | ⟨e', hsome, hbase, hlength⟩ := avoidBoot_cases e
    · have hcount : e.count = 0 := by
        rw [MemoryMap.count]
        omega
      rw [hnone, hcount]
      rfl
    · rw [hsome]
      have heq := @addRegion_eq σ add e' (by omega) e.count 0 n s
        (by rw [hlength, MemoryMap.count]; omega) (by rw [MemoryMap.count]; omega)
      rw [hbase, ← List.range_eq_range'] at heq
      exact heq
  · rw [if_neg htype, if_neg htype]
    rfl

/-- More turns change nothing once the loop has ended. -/
theorem addRegion_mono {n : ℕ} :
    ∀ {addr : U32} {s s' : σ} {k : ℕ}, addRegion add e n addr s = .ok s' → n ≤ k →
      addRegion add e k addr s = .ok s' := by
  induction n with
  | zero =>
    intro addr s s' k h _
    cases h
  | succ n ih =>
    intro addr s s' k h hk
    obtain ⟨k, rfl⟩ : ∃ j, k = j + 1 := ⟨k - 1, by omega⟩
    rw [addRegion] at h ⊢
    split_ifs at h ⊢ with hlt
    · obtain ⟨s₁, hs₁, h⟩ := bind_eq_ok.mp h
      exact bind_eq_ok.mpr ⟨s₁, hs₁, ih h (by omega)⟩
    · exact h

theorem initEntry_mono {n k : ℕ} {s s' : σ} (h : initEntry add n s e = .ok s') (hk : n ≤ k) :
    initEntry add k s e = .ok s' := by
  unfold initEntry at h ⊢
  split_ifs at h ⊢
  · split at h
    · exact h
    · exact addRegion_mono h hk
  · exact h

end Region

/-! ### The calls for a map -/

section Map

variable {σ : Type} {add : σ → U32 → Except Stop σ} {map : List MemoryMap}

theorem initMemory_eq (h : ∀ e ∈ map, e.Ends) {n : ℕ} (hn : 2 ^ 20 < n) :
    ∀ s : σ, initMemory add n map s = (map.flatMap MemoryMap.calls).foldlM add s := by
  unfold initMemory
  induction map with
  | nil =>
    intro s
    rfl
  | cons e map ih =>
    intro s
    rw [List.foldlM_cons, initEntry_eq (h e (List.mem_cons_self ..)) hn, List.flatMap_cons,
      List.foldlM_append]
    exact bind_congr fun s₁ => ih (fun e' he' => h e' (List.mem_cons_of_mem _ he')) s₁

theorem initMemory_mono {n k : ℕ} (hk : n ≤ k) :
    ∀ {s s' : σ}, initMemory add n map s = .ok s' → initMemory add k map s = .ok s' := by
  unfold initMemory
  induction map with
  | nil =>
    intro s s' h
    exact h
  | cons e map ih =>
    intro s s' h
    rw [List.foldlM_cons] at h ⊢
    obtain ⟨s₁, hs₁, h⟩ := bind_eq_ok.mp h
    exact bind_eq_ok.mpr ⟨s₁, initEntry_mono hs₁ hk, ih h⟩

/-- A loop that ends passes the length of every region. -/
theorem initMemory_ends (hadd : ∀ s f, ∃ s', add s f = .ok s') {n : ℕ} :
    ∀ {s s' : σ}, initMemory add n map s = .ok s' → ∀ e ∈ map, e.Ends := by
  unfold initMemory
  induction map with
  | nil =>
    intro s s' _ e he
    cases he
  | cons e map ih =>
    intro s s' h
    rw [List.foldlM_cons] at h
    obtain ⟨s₁, hs₁, h⟩ := bind_eq_ok.mp h
    refine List.forall_mem_cons.mpr ⟨fun htype => ?_, ih h⟩
    rw [initEntry, if_pos htype] at hs₁
    obtain ⟨-, hle⟩ | ⟨e', hsome, -, hlength⟩ := avoidBoot_cases e
    · omega
    · rw [hsome] at hs₁
      by_contra hlong
      cases (addRegion_hang hadd (by omega) n 0 s (dvd_zero _)).symm.trans hs₁

end Map

theorem noteFrame_foldlM (L : List U32) :
    ∀ calls : List U32, L.foldlM noteFrame calls = .ok (calls ++ L) := by
  induction L with
  | nil =>
    intro calls
    rw [List.append_nil]
    rfl
  | cons f L ih =>
    intro calls
    show L.foldlM noteFrame (calls ++ [f]) = _
    rw [ih, List.append_assoc]
    rfl

/-- **The calls of the loop**, when it ends. -/
theorem frameAdds_iff {map : List MemoryMap} {L : List U32} :
    (∃ n, frameAdds n map = .ok L) ↔ (∀ e ∈ map, e.Ends) ∧ L = map.flatMap MemoryMap.calls := by
  have hadd : ∀ (calls : List U32) f, ∃ calls', noteFrame calls f = .ok calls' :=
    fun calls f => ⟨_, rfl⟩
  have hall : (∀ e ∈ map, e.Ends) → ∀ n, 2 ^ 20 < n →
      frameAdds n map = .ok (map.flatMap MemoryMap.calls) := by
    intro h n hn
    rw [frameAdds, initMemory_eq h hn, noteFrame_foldlM, List.nil_append]
  constructor
  · rintro ⟨n, h⟩
    have hends := initMemory_ends hadd h
    have hmore := initMemory_mono (le_max_left n (2 ^ 20 + 1)) h
    cases (hall hends _ (by omega)).symm.trans hmore
    exact ⟨hends, rfl⟩
  · rintro ⟨h, rfl⟩
    exact ⟨2 ^ 20 + 1, hall h _ (by omega)⟩

/-! ### Frame numbers -/

/-- The number of the frame an address lies in, as `frame_add` computes it. -/
def frameNum (a : U32) : ℕ := (a / PAGESZ).toNat

theorem frameNum_eq (a : U32) : frameNum a = a.toNat / 4096 := by
  rw [frameNum, BitVec.toNat_udiv]
  rfl

/-- The loop adds the frame for this entry, unless an address wraps. -/
def MemoryMap.Adds (e : MemoryMap) (f : ℕ) : Prop :=
  e.type = 1 ∧ e.first ≤ f ∧ f < e.first + e.count

/-- No address of the entry wraps. -/
def MemoryMap.Fits (e : MemoryMap) : Prop := e.type = 1 → e.first + e.count ≤ 2 ^ 20

section Entry

variable {e : MemoryMap}

theorem MemoryMap.Fits.ends (h : e.Fits) : e.Ends := by
  intro htype
  have hfits := h htype
  have hk : KERNEL_BOOT_SIZE.toNat = 0x800000 := rfl
  unfold MemoryMap.first MemoryMap.count MemoryMap.lo at hfits
  unfold MemoryMap.lo
  omega

/-- The frames added for one entry are consecutive. -/
theorem calls_frames (h : e.Fits) : e.calls.map frameNum =
    if e.type = 1 then List.range' e.first e.count else [] := by
  unfold MemoryMap.calls
  split_ifs with htype
  · have hfits := h htype
    rw [List.map_map, List.range'_eq_map_range]
    refine List.map_congr_left fun t ht => ?_
    have ht := List.mem_range.mp ht
    unfold MemoryMap.first MemoryMap.count at *
    rw [Function.comp_apply, frameNum_eq, BitVec.toNat_ofNat]
    omega
  · rfl

theorem mem_calls_frames (h : e.Fits) {f : ℕ} : f ∈ e.calls.map frameNum ↔ e.Adds f := by
  rw [calls_frames h, MemoryMap.Adds]
  split_ifs with htype
  · rw [List.mem_range'_1]
    exact ⟨fun hf => ⟨htype, hf⟩, fun hf => hf.2⟩
  · exact ⟨fun hf => absurd hf (List.not_mem_nil), fun hf => absurd hf.1 htype⟩

theorem calls_nodup (h : e.Fits) : (e.calls.map frameNum).Nodup := by
  rw [calls_frames h]
  split_ifs
  · exact List.nodup_range'
  · exact List.nodup_nil

/-- An address that wraps gives a boot frame. -/
theorem fits_of_usable {map : List MemoryMap} (hends : e.Ends)
    (h : ∀ a ∈ e.calls, Usable map (frameNum a)) : e.Fits := by
  intro htype
  have hlen := hends htype
  have hk : KERNEL_BOOT_SIZE.toNat = 0x800000 := rfl
  have hb := e.baseAddrLow.isLt
  have hlo : e.lo < 2 ^ 32 := by
    unfold MemoryMap.lo
    omega
  by_contra hwrap
  -- the first address past the top
  have hmem : BitVec.ofNat 32 (e.lo + 4096 * (2 ^ 20 - e.first)) ∈ e.calls := by
    rw [MemoryMap.calls, if_pos htype]
    refine List.mem_map.mpr ⟨2 ^ 20 - e.first, List.mem_range.mpr ?_, rfl⟩
    unfold MemoryMap.first MemoryMap.count at *
    omega
  obtain ⟨hboot, -⟩ := h _ hmem
  rw [frameNum_eq, BitVec.toNat_ofNat, hk] at hboot
  unfold MemoryMap.first MemoryMap.lo at hboot
  rw [hk] at hboot
  unfold MemoryMap.first MemoryMap.count MemoryMap.lo at hwrap
  unfold MemoryMap.lo at hlen
  omega

end Entry

/-! ### Usable frames -/

/-- The loop ends, and gives each frame at most once and only usable ones.  The kernel's
own loop makes the same calls of `frame_add`. -/
def GivesUsable (map : List MemoryMap) : Prop :=
  ∃ n L, frameAdds n map = .ok L ∧
    (∀ m, initMemory frameAdd n map m = L.foldlM frameAdd m ∧
      Halts (initMemory frameAdd n map m)) ∧
    (L.map frameNum).Nodup ∧ ∀ a ∈ L, Usable map (frameNum a)

/-- The frames of two entries. -/
def AddsApart (e e' : MemoryMap) : Prop := ∀ f, e.Adds f → ¬e'.Adds f

instance : Std.Symm AddsApart := ⟨fun _ _ h f h' hh => h f hh h'⟩

theorem givesUsable_iff {map : List MemoryMap} :
    GivesUsable map ↔ (∀ e ∈ map, e.Fits) ∧ map.Pairwise AddsApart ∧
      ∀ e ∈ map, ∀ f, e.Adds f → Usable map f := by
  have hnodup : (∀ e ∈ map, e.Fits) →
      (((map.flatMap MemoryMap.calls).map frameNum).Nodup ↔ map.Pairwise AddsApart) := by
    intro hfits
    rw [List.map_flatMap, List.nodup_flatMap]
    constructor
    · rintro ⟨-, h⟩
      refine h.imp_of_mem fun he he' hdisj f hf hf' => ?_
      exact hdisj ((mem_calls_frames (hfits _ he)).mpr hf)
        ((mem_calls_frames (hfits _ he')).mpr hf')
    · intro h
      refine ⟨fun e he => calls_nodup (hfits e he), h.imp_of_mem fun he he' hadds f hf hf' => ?_⟩
      exact hadds f ((mem_calls_frames (hfits _ he)).mp hf)
        ((mem_calls_frames (hfits _ he')).mp hf')
  constructor
  · rintro ⟨n, L, hcalls, -, hdup, husable⟩
    obtain ⟨hends, rfl⟩ := frameAdds_iff.mp ⟨n, hcalls⟩
    have hfits : ∀ e ∈ map, e.Fits := fun e he => fits_of_usable (hends e he) fun a ha =>
      husable a (List.mem_flatMap.mpr ⟨e, he, ha⟩)
    refine ⟨hfits, (hnodup hfits).mp hdup, fun e he f hf => ?_⟩
    obtain ⟨a, ha, rfl⟩ := List.mem_map.mp ((mem_calls_frames (hfits e he)).mpr hf)
    exact husable a (List.mem_flatMap.mpr ⟨e, he, ha⟩)
  · rintro ⟨hfits, hapart, husable⟩
    have hends : ∀ e ∈ map, e.Ends := fun e he => (hfits e he).ends
    have hloop := fun m => @initMemory_eq _ frameAdd map hends (2 ^ 20 + 1) (by omega) m
    refine ⟨2 ^ 20 + 1, _, ?_, fun m => ⟨hloop m, ?_⟩, (hnodup hfits).mpr hapart, fun a ha => ?_⟩
    · rw [frameAdds, initMemory_eq hends (by omega), noteFrame_foldlM, List.nil_append]
    · rw [hloop m]
      exact Halts.foldlM frameAdd_halts _ m
    · obtain ⟨e, he, ha⟩ := List.mem_flatMap.mp ha
      exact husable e he _ ((mem_calls_frames (hfits e he)).mp (List.mem_map_of_mem ha))

/-! ### When the low halves are enough -/

/-- The region starts below 4 GB and the part of it the low halves describe, above the
boot frames, is made of whole frames below 4 GB. -/
structure MemoryMap.Clean (e : MemoryMap) : Prop where
  below : e.baseAddrHigh = 0
  start : KERNEL_BOOT_SIZE ≤ e.baseAddrLow → 4096 ∣ e.baseAddrLow.toNat
  stop : e.lengthHigh = 0 → 4096 ∣ e.hi
  top : e.hi ≤ 2 ^ 32

/-- The region starts above 4 GB, and the frames its low halves describe happen to lie in
a free region that starts below 4 GB and is longer than that. -/
def MemoryMap.Shadow (map : List MemoryMap) (e : MemoryMap) : Prop :=
  e.baseAddrHigh ≠ 0 ∧ e.first + e.count ≤ 2 ^ 20 ∧
    ∃ g ∈ map, g.type = 1 ∧ g.baseAddrHigh = 0 ∧ g.lengthHigh ≠ 0 ∧
      g.baseAddrLow.toNat ≤ 4096 * e.first

/-- Every free region whose low halves reach above the boot frames is clean, or a shadow
on frames that no other entry adds. -/
def Readable (map : List MemoryMap) : Prop :=
  (∀ e ∈ map, e.type = 1 → e.lo < e.hi → e.Clean ∨ e.Shadow map) ∧
    map.Pairwise fun e e' => e.baseAddrHigh ≠ 0 ∨ e'.baseAddrHigh ≠ 0 → AddsApart e e'

section Readable

variable {map : List MemoryMap} {e g : MemoryMap} {f : ℕ}

theorem MemoryMap.base_low (h : e.baseAddrHigh = 0) : e.base = e.baseAddrLow.toNat := by
  rw [MemoryMap.base, h]
  show 2 ^ 32 * 0 + _ = _
  omega

theorem MemoryMap.base_high (h : e.baseAddrHigh ≠ 0) : 2 ^ 32 ≤ e.base := by
  have hne : e.baseAddrHigh.toNat ≠ 0 := fun h0 => h (BitVec.eq_of_toNat_eq h0)
  rw [MemoryMap.base]
  omega

theorem MemoryMap.length_low (h : e.lengthHigh = 0) : e.length = e.lengthLow.toNat := by
  rw [MemoryMap.length, h]
  show 2 ^ 32 * 0 + _ = _
  omega

theorem MemoryMap.length_high (h : e.lengthHigh ≠ 0) : 2 ^ 32 + e.lengthLow.toNat ≤ e.length := by
  have hne : e.lengthHigh.toNat ≠ 0 := fun h0 => h (BitVec.eq_of_toNat_eq h0)
  rw [MemoryMap.length]
  omega

theorem MemoryMap.lengthLow_le (e : MemoryMap) : e.lengthLow.toNat ≤ e.length := by
  rw [MemoryMap.length]
  omega

theorem MemoryMap.boot_le_lo (e : MemoryMap) : 0x800000 ≤ e.lo := le_max_right _ _

theorem MemoryMap.Adds.lt (h : e.Adds f) : e.lo < e.hi := by
  obtain ⟨-, hle, hf⟩ := h
  unfold MemoryMap.count at hf
  omega

/-- A clean region starts at a frame boundary, or below the boot frames. -/
theorem MemoryMap.Clean.first_eq (h : e.Clean) : 4096 * e.first = e.lo := by
  have hstart := h.start
  rw [BitVec.le_def] at hstart
  have hk : KERNEL_BOOT_SIZE.toNat = 0x800000 := rfl
  unfold MemoryMap.first MemoryMap.lo
  omega

theorem MemoryMap.Clean.fits (h : e.Clean) (hlt : e.lo < e.hi) : e.first + e.count ≤ 2 ^ 20 := by
  have hfirst := h.first_eq
  have htop := h.top
  unfold MemoryMap.count
  omega

/-- The frames of a clean region lie in it. -/
theorem MemoryMap.Clean.inside (h : e.Clean) (hf : e.Adds f) :
    e.base ≤ 4096 * f ∧ 4096 * f + 4096 ≤ e.base + e.length := by
  have hfirst := h.first_eq
  have htop := h.top
  have hlt := hf.lt
  obtain ⟨-, hlo, hhi⟩ := hf
  have hb : e.baseAddrLow.toNat ≤ e.lo := le_max_left _ _
  rw [MemoryMap.base_low h.below]
  refine ⟨by omega, ?_⟩
  unfold MemoryMap.count at hhi
  by_cases hlen : e.lengthHigh = 0
  · have hstop := h.stop hlen
    rw [MemoryMap.length_low hlen]
    unfold MemoryMap.hi at *
    omega
  · have hlong := MemoryMap.length_high hlen
    unfold MemoryMap.hi at *
    omega

/-- An address of a frame in a free region belongs to one region only. -/
theorem region_unique (hdisj : map.Pairwise Apart) {a : ℕ} (he : e ∈ map) (hg : g ∈ map)
    (hea : e.Has a) (hga : g.Has a) : e = g := by
  by_contra hne
  exact hdisj.forall he hg hne a hea hga

/-- A region below 4 GB and not longer adds every usable frame in it. -/
theorem adds_of_inside (htype : g.type = 1) (hbase : g.baseAddrHigh = 0)
    (hlen : g.lengthHigh = 0) (hboot : KERNEL_BOOT_SIZE.toNat ≤ 4096 * f)
    (hlo : g.base ≤ 4096 * f) (hhi : 4096 * f + 4096 ≤ g.base + g.length) : g.Adds f := by
  rw [MemoryMap.base_low hbase] at hlo hhi
  rw [MemoryMap.length_low hlen] at hhi
  refine ⟨htype, ?_, ?_⟩
  · unfold MemoryMap.first MemoryMap.lo
    omega
  · unfold MemoryMap.first MemoryMap.count MemoryMap.hi MemoryMap.lo
    omega

/-- The first frame of a region below 4 GB, and the last one, belong to the region. -/
theorem clean_of_usable (hdisj : map.Pairwise Apart) (he : e ∈ map) (htype : e.type = 1)
    (hlt : e.lo < e.hi) (hbase : e.baseAddrHigh = 0) (hfits : e.Fits)
    (husable : ∀ f, e.Adds f → Usable map f) : e.Clean := by
  have hfit := hfits htype
  have hk : KERNEL_BOOT_SIZE.toNat = 0x800000 := rfl
  have hlen := e.lengthLow_le
  have hlo : e.baseAddrLow.toNat ≤ e.lo := le_max_left _ _
  -- a frame of the entry that holds an address of its region lies in that region
  have hown : ∀ f a, e.Adds f → e.baseAddrLow.toNat ≤ a → a < e.hi → 4096 * f ≤ a →
      a < 4096 * f + 4096 →
      e.baseAddrLow.toNat ≤ 4096 * f ∧ 4096 * f + 4096 ≤ e.baseAddrLow.toNat + e.length := by
    intro f a hf hba hah hfa haf
    obtain ⟨-, g, hg, -, hglo, hghi⟩ := husable f hf
    have hea : e.Has a := by
      rw [MemoryMap.Has, MemoryMap.base_low hbase]
      unfold MemoryMap.hi at hah
      omega
    obtain rfl := region_unique hdisj he hg hea ⟨by omega, by omega⟩
    rw [MemoryMap.base_low hbase] at hglo hghi
    exact ⟨hglo, hghi⟩
  have hcount : 1 ≤ e.count := by
    unfold MemoryMap.count
    omega
  have hfirst : 4096 * e.first ≤ e.lo ∧ e.lo < 4096 * e.first + 4096 := by
    unfold MemoryMap.first
    omega
  obtain ⟨hstart, -⟩ := hown e.first e.lo ⟨htype, le_rfl, by omega⟩ hlo hlt hfirst.1 hfirst.2
  have hfirst_eq : 4096 * e.first = e.lo := by
    unfold MemoryMap.lo at *
    unfold MemoryMap.first MemoryMap.lo at *
    omega
  have hlast : 4096 * (e.first + e.count - 1) ≤ e.hi - 1 ∧
      e.hi - 1 < 4096 * (e.first + e.count - 1) + 4096 := by
    unfold MemoryMap.count at *
    omega
  obtain ⟨-, hstop⟩ := hown (e.first + e.count - 1) (e.hi - 1) ⟨htype, by omega, by omega⟩
    (by omega) (by omega) hlast.1 hlast.2
  refine ⟨hbase, fun hboot => ?_, fun hhigh => ?_, by omega⟩
  · rw [BitVec.le_def] at hboot
    unfold MemoryMap.lo at hfirst_eq
    omega
  · rw [MemoryMap.length_low hhigh] at hstop
    unfold MemoryMap.hi at *
    omega

/-- A region above 4 GB holds no frame, so its frames lie in another one. -/
theorem shadow_of_usable (htype : e.type = 1) (he : e ∈ map) (hlt : e.lo < e.hi)
    (hbase : e.baseAddrHigh ≠ 0) (hfits : e.Fits) (hapart : map.Pairwise AddsApart)
    (husable : ∀ f, e.Adds f → Usable map f) : e.Shadow map := by
  have hfit := hfits htype
  have hcount : 1 ≤ e.count := by
    unfold MemoryMap.count
    omega
  have hadds : e.Adds e.first := ⟨htype, le_rfl, by omega⟩
  obtain ⟨hboot, g, hg, hgtype, hlo, hhi⟩ := husable _ hadds
  have hgbase : g.baseAddrHigh = 0 := by
    by_contra hne
    have := MemoryMap.base_high hne
    omega
  refine ⟨hbase, hfit, g, hg, hgtype, hgbase, fun hglen => ?_, ?_⟩
  · -- the other region would add the frame as well
    have hgadds := adds_of_inside hgtype hgbase hglen hboot hlo hhi
    have hne : e ≠ g := by
      rintro rfl
      exact hbase hgbase
    exact hapart.forall he hg hne _ hadds hgadds
  · rw [MemoryMap.base_low hgbase] at hlo
    exact hlo

/-- The frames of a shadow lie in the region it falls on. -/
theorem MemoryMap.Shadow.usable (h : e.Shadow map) (hf : e.Adds f) : Usable map f := by
  obtain ⟨-, hfit, g, hg, hgtype, hgbase, hglen, hlo⟩ := h
  obtain ⟨-, hflo, hfhi⟩ := hf
  have hboot := e.boot_le_lo
  have hlong := MemoryMap.length_high hglen
  refine ⟨?_, g, hg, hgtype, ?_, ?_⟩
  · show 0x800000 ≤ _
    unfold MemoryMap.first at hflo
    omega
  · rw [MemoryMap.base_low hgbase]
    omega
  · rw [MemoryMap.base_low hgbase]
    omega

/-- **The boot memory map.**  For regions that are pairwise disjoint, the loop ends and
gives each frame at most once, and only whole frames of free memory, just when its low
halves are readable. -/
theorem frames_usable_iff (map : List MemoryMap) (hdisj : map.Pairwise Apart) :
    GivesUsable map ↔ Readable map := by
  rw [givesUsable_iff]
  constructor
  · rintro ⟨hfits, hapart, husable⟩
    refine ⟨fun e he htype hlt => ?_, ?_⟩
    · by_cases hbase : e.baseAddrHigh = 0
      · exact .inl (clean_of_usable hdisj he htype hlt hbase (hfits e he) (husable e he))
      · exact .inr (shadow_of_usable htype he hlt hbase (hfits e he) hapart (husable e he))
    · refine hapart.imp ?_
      intro e e' h _
      exact h
  · rintro ⟨hread, hshadow⟩
    refine ⟨fun e he htype => ?_, ?_, fun e he f hf => ?_⟩
    · by_cases hlt : e.lo < e.hi
      · rcases hread e he htype hlt with hclean | hsh
        · exact hclean.fits hlt
        · exact hsh.2.1
      · have hb := e.baseAddrLow.isLt
        have hk : KERNEL_BOOT_SIZE.toNat = 0x800000 := rfl
        unfold MemoryMap.first MemoryMap.count
        unfold MemoryMap.lo at *
        omega
    · -- two clean regions add frames of their own
      refine (hdisj.and hshadow).imp_of_mem fun {e e'} he he' h f hf hf' => ?_
      by_cases hhigh : e.baseAddrHigh ≠ 0 ∨ e'.baseAddrHigh ≠ 0
      · exact h.2 hhigh f hf hf'
      · rw [not_or, not_not, not_not] at hhigh
        have hclean : ∀ {e}, e ∈ map → e.baseAddrHigh = 0 → e.Adds f → e.Clean :=
          fun he hbase hf => (hread _ he hf.1 hf.lt).resolve_right fun hsh => hsh.1 hbase
        have hin := (hclean he hhigh.1 hf).inside hf
        have hin' := (hclean he' hhigh.2 hf').inside hf'
        exact h.1 (4096 * f) ⟨hin.1, by omega⟩ ⟨hin'.1, by omega⟩
    · rcases hread e he hf.1 hf.lt with hclean | hsh
      · have hboot := e.boot_le_lo
        have hfirst := hclean.first_eq
        have hflo := hf.2.1
        exact ⟨show 0x800000 ≤ _ by omega, e, he, hf.1, hclean.inside hf⟩
      · exact hsh.usable hf

end Readable

/-- The map of a machine with 32 MB: the memory below 640 KB and the memory above 1 MB. -/
def smallMap : List MemoryMap :=
  [⟨20, 0, 0, 0x9FC00, 0, 1⟩, ⟨20, 0x100000, 0, 0x1F00000, 0, 1⟩]

/-- On such a map the loop ends and gives usable frames. -/
theorem smallMap_usable : smallMap.Pairwise Apart ∧ GivesUsable smallMap := by
  have hdisj : smallMap.Pairwise Apart := by
    refine List.pairwise_pair.mpr fun a h h' => ?_
    simp only [MemoryMap.Has, MemoryMap.base, MemoryMap.length, BitVec.reduceToNat] at h h'
    omega
  refine ⟨hdisj, (frames_usable_iff smallMap hdisj).mpr ⟨?_, ?_⟩⟩
  · intro e he _ hlt
    rcases List.mem_pair.mp he with rfl | rfl
    · exact absurd hlt (by decide)
    · exact .inl ⟨rfl, by decide, by decide, by decide⟩
  · exact List.pairwise_pair.mpr fun h => absurd h (by decide)

/-- One page at 9 MB, and one page at the same offset above 4 GB. -/
def highMap : List MemoryMap :=
  [⟨20, 0x900000, 0, 0x1000, 0, 1⟩, ⟨20, 0x900000, 1, 0x1000, 0, 1⟩]

/-- The loop takes the page above 4 GB for the one below and adds its frame twice. -/
theorem highMap_twice : highMap.Pairwise Apart ∧
    frameAdds 3 highMap = .ok [0x900000, 0x900000] ∧ ¬GivesUsable highMap := by
  refine ⟨List.pairwise_pair.mpr fun a h h' => ?_, by decide, ?_⟩
  · simp only [MemoryMap.Has, MemoryMap.base, MemoryMap.length, BitVec.reduceToNat] at h h'
    omega
  · intro h
    have hapart := (givesUsable_iff.mp h).2.1
    exact List.pairwise_pair.mp hapart 0x900 ⟨rfl, by decide, by decide⟩ ⟨rfl, by decide, by decide⟩

end Pinion
