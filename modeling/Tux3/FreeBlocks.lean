import Tux3.BallocSearch
import Tux3.Lib.Count

/-!
# Free-block accounting

`sb->freeblocks` against the clear bits of the allocation bitmap, over every
operation that changes either.
-/
namespace Tux3.Balloc

/-- The number of clear bits among the first `volblocks` bits of the bitmap. -/
def Sb.clearBlocks (sb : Sb) : ℕ := Nat.count (fun b => sb.bit b = false) sb.volblocks

/-- "Should match total of zero bits in allocation bitmap." -/
def Sb.Accounted (sb : Sb) : Prop := sb.freeblocks = sb.clearBlocks

/-- What the allocator keeps true of its other fields: `1 << mapshift` is a positive `int`,
and the goal is inside the volume. -/
structure Sb.WF (sb : Sb) : Prop where
  blockbits : sb.blockbits ≤ 27
  nextalloc : sb.nextalloc ≤ sb.volblocks

section Bits
variable {sb : Sb}

theorem Sb.WF.mapsize_le (h : sb.WF) : sb.mapsize ≤ 2 ^ 30 :=
  Nat.pow_le_pow_right (by omega) (by have := h.blockbits; omega)

theorem Sb.WF.mapsize_dvd (h : sb.WF) : sb.mapsize ∣ 2 ^ 32 :=
  Nat.pow_dvd_pow 2 (by have := h.blockbits; omega)

theorem in_block {m j n b : ℕ} (hj : j + n ≤ sb.mapsize) :
    (b / sb.mapsize = m ∧ j ≤ b % sb.mapsize ∧ b % sb.mapsize < j + n) ↔
      m * sb.mapsize + j ≤ b ∧ b < m * sb.mapsize + j + n := by
  have hdm := Nat.div_add_mod b sb.mapsize
  have hlt := Nat.mod_lt b sb.mapsize_pos
  constructor
  · rintro ⟨rfl, h1, h2⟩
    rw [Nat.mul_comm]
    omega
  · rintro ⟨h1, h2⟩
    obtain ⟨k, rfl⟩ := Nat.exists_eq_add_of_le (show m * sb.mapsize ≤ b by omega)
    obtain ⟨hd, hm⟩ := block_split m (by omega : k < sb.mapsize)
    rw [hd, hm]
    omega

theorem bit_setBits (m : ℕ) {j n : ℕ} (hj : j + n ≤ sb.mapsize) (h32 : sb.mapsize ≤ 2 ^ 30)
    (b : ℕ) :
    bitAt (Function.update sb.bitmap m (setBits (sb.bitmap m) j n) (b / sb.mapsize))
        (b % sb.mapsize) =
      (sb.bit b || decide (m * sb.mapsize + j ≤ b ∧ b < m * sb.mapsize + j + n)) := by
  rw [← decide_eq_decide.mpr (in_block hj)]
  by_cases hm : b / sb.mapsize = m
  · subst hm
    rw [Function.update_self, bitAt_setBits (by omega)]
    simp only [Sb.bit, true_and]
  · rw [Function.update_of_ne hm, decide_eq_false (fun h => hm h.1), Bool.or_false, Sb.bit]

theorem bit_clearBits (m : ℕ) {j n : ℕ} (hj : j + n ≤ sb.mapsize) (h32 : sb.mapsize ≤ 2 ^ 30)
    (b : ℕ) :
    bitAt (Function.update sb.bitmap m (clearBits (sb.bitmap m) j n) (b / sb.mapsize))
        (b % sb.mapsize) =
      (sb.bit b && !decide (m * sb.mapsize + j ≤ b ∧ b < m * sb.mapsize + j + n)) := by
  rw [← decide_eq_decide.mpr (in_block hj)]
  by_cases hm : b / sb.mapsize = m
  · subst hm
    rw [Function.update_self, bitAt_clearBits (by omega)]
    simp only [Sb.bit, true_and]
  · rw [Function.update_of_ne hm, decide_eq_false (fun h => hm h.1), Bool.not_false,
      Bool.and_true, Sb.bit]

theorem clearBlocks_set {sb' : Sb} {a n : ℕ} (hv : sb'.volblocks = sb.volblocks)
    (hbit : ∀ b, sb'.bit b = (sb.bit b || decide (a ≤ b ∧ b < a + n)))
    (hclear : ∀ b, a ≤ b → b < a + n → sb.bit b = false) :
    sb.clearBlocks = sb'.clearBlocks + Count.overlap a n sb.volblocks := by
  rw [Sb.clearBlocks, Sb.clearBlocks, hv]
  refine Count.Differ.count_eq ⟨fun b hb => ?_, hclear, fun b h1 h2 => ?_⟩ _
  · rw [hbit, decide_eq_false hb, Bool.or_false]
  · rw [hbit, decide_eq_true ⟨h1, h2⟩, Bool.or_true]
    exact Bool.noConfusion

theorem clearBlocks_clear {sb' : Sb} {a n : ℕ} (hv : sb'.volblocks = sb.volblocks)
    (hbit : ∀ b, sb'.bit b = (sb.bit b && !decide (a ≤ b ∧ b < a + n)))
    (hset : ∀ b, a ≤ b → b < a + n → sb.bit b = true) :
    sb'.clearBlocks = sb.clearBlocks + Count.overlap a n sb.volblocks := by
  rw [Sb.clearBlocks, Sb.clearBlocks, hv]
  refine Count.Differ.count_eq ⟨fun b hb => ?_, fun b h1 h2 => ?_, fun b h1 h2 => ?_⟩ _
  · rw [hbit, decide_eq_false hb, Bool.not_false, Bool.and_true]
  · rw [hbit, decide_eq_true ⟨h1, h2⟩, Bool.not_true, Bool.and_false]
  · rw [hset b h1 h2]
    exact Bool.noConfusion

end Bits

/-! ## `balloc` -/

section Balloc
variable {sb : Sb} {blocks : ℕ}

/-- Where the search really starts: the block number of the map is cut to 32 bits. -/
def Sb.cut (sb : Sb) (start : ℕ) : ℕ := u32 (start / sb.mapsize) * sb.mapsize + start % sb.mapsize

theorem cut_of_lt {start : ℕ} (h : start / sb.mapsize < 2 ^ 32) : sb.cut start = start := by
  rw [Sb.cut, u32_of_lt h, Nat.mul_comm, Nat.div_add_mod]

theorem cut_add_le {start : ℕ} (h : ¬ start / sb.mapsize < 2 ^ 32) :
    sb.cut start + 2 ^ 32 * sb.mapsize ≤ start := by
  have hu : u32 (start / sb.mapsize) + 2 ^ 32 ≤ start / sb.mapsize := by
    unfold u32
    omega
  have hmul := Nat.mul_le_mul_right sb.mapsize hu
  have hdm := Nat.div_add_mod start sb.mapsize
  rw [Nat.add_mul] at hmul
  rw [Nat.mul_comm] at hdm
  unfold Sb.cut
  omega

theorem cut_le (start : ℕ) : sb.cut start ≤ start := by
  by_cases h : start / sb.mapsize < 2 ^ 32
  · exact Nat.le_of_eq (cut_of_lt h)
  · exact Nat.le_trans (Nat.le_add_right _ _) (cut_add_le h)

/-- The number of bytes the search looks at. -/
def searchTail (start count : ℕ) : ℕ := u32 (count + start % 8 + 7) / 8

/-- The block of the map that the range starts in is, as a 32-bit number, not above the one it
ends before. -/
def Sb.Sees (sb : Sb) (start count : ℕ) : Prop :=
  u32 (start / sb.mapsize) ≤ u32 ((start + count + (sb.mapsize - 1)) / sb.mapsize)

theorem range_span (hms : sb.mapsize ≤ 2 ^ 30) (start : ℕ) {count : ℕ} (hc : count < 2 ^ 32) :
    ∃ k, k ≤ 2 ^ 30 ∧ start % sb.mapsize + count ≤ k * sb.mapsize ∧
      (start + count + (sb.mapsize - 1)) / sb.mapsize = start / sb.mapsize + k := by
  have hpos := sb.mapsize_pos
  have h8 := sb.mapsize_eq
  have hrlt := Nat.mod_lt start hpos
  have hstart := Nat.div_add_mod start sb.mapsize
  refine ⟨(start % sb.mapsize + count + (sb.mapsize - 1)) / sb.mapsize, ?_, ?_, ?_⟩
  · by_contra hlt
    have h1 := Nat.div_mul_le_self (start % sb.mapsize + count + (sb.mapsize - 1)) sb.mapsize
    have h2 := Nat.mul_le_mul_right sb.mapsize (Nat.lt_of_not_le hlt)
    omega
  · have := Nat.lt_div_mul_add (a := start % sb.mapsize + count + (sb.mapsize - 1)) hpos
    omega
  · rw [show start + count + (sb.mapsize - 1) =
      start % sb.mapsize + count + (sb.mapsize - 1) + sb.mapsize * (start / sb.mapsize) by omega,
      Nat.add_mul_div_left _ _ hpos, Nat.add_comm]

/-- `balloc_from_range` is a first fit from the cut start, or it looks at nothing. -/
theorem ballocFromRange_search (hms : sb.mapsize ≤ 2 ^ 30) (hb : 0 < blocks) (start : ℕ)
    {count : ℕ} (hc : count < 2 ^ 32) :
    (sb.Sees start count → FirstFit sb blocks (start + count)
      (u32 ((start + count + (sb.mapsize - 1)) / sb.mapsize)) (sb.cut start)
      (8 * (sb.cut start / 8 + searchTail start count)) (ballocFromRange sb start count blocks)) ∧
      (¬ sb.Sees start count → ballocFromRange sb start count blocks = some (-1, sb)) := by
  have h8 := sb.mapsize_eq
  obtain ⟨k, hk2, hk1, hdiv⟩ := range_span hms start hc
  rw [Sb.Sees, ballocFromRange, if_neg (by omega)]
  simp only [hdiv]
  constructor
  · intro hsees
    have hwrap : u32 (start / sb.mapsize + k) = u32 (start / sb.mapsize) + k := by
      unfold u32 at hsees ⊢
      omega
    have hmod : start % 8 = start % sb.mapsize % 8 := by rw [h8, Nat.mod_mul_right_mod]
    have hcut : sb.cut start = u32 (start / sb.mapsize) * sb.mapsize +
        (8 * (start % sb.mapsize / 8) + start % sb.mapsize % 8) := by
      rw [Sb.cut, Nat.div_add_mod]
    have hcut8 : 8 * (sb.cut start / 8 + searchTail start count) =
        u32 (start / sb.mapsize) * sb.mapsize +
          8 * (start % sb.mapsize / 8 + u32 (count + start % 8 + 7) / 8) := by
      rw [searchTail, hcut, h8, ← Nat.mul_assoc, Nat.mul_comm (u32 _) 8, Nat.mul_assoc]
      omega
    have hrlt := Nat.mod_lt start sb.mapsize_pos
    rw [hwrap, Nat.add_sub_cancel_left, hcut8, hcut, hmod]
    refine searchMap_first hb k _ _ _ _ (by omega) (Nat.mod_lt _ (by omega)) ?_
    have hu := u32_le (count + start % sb.mapsize % 8 + 7)
    have hk1' : start % sb.mapsize + count ≤ 8 * (k * sb.blocksize) := by
      rw [h8, ← Nat.mul_assoc, Nat.mul_comm k 8, Nat.mul_assoc] at hk1
      rw [h8]
      exact hk1
    omega
  · intro hsees
    have hzero : u32 (start / sb.mapsize + k) - u32 (start / sb.mapsize) = 0 := by omega
    rw [hzero, searchMap]

/-- Unless the 32-bit block numbers of the two ends wrap differently, the search is a first fit. -/
theorem ballocFromRange_first (hms : sb.mapsize ≤ 2 ^ 30) (hb : 0 < blocks) (start : ℕ) {count : ℕ}
    (hc : count < 2 ^ 32) :
    (FirstFit sb blocks (start + count)
        (u32 ((start + count + (sb.mapsize - 1)) / sb.mapsize)) (sb.cut start)
        (8 * (sb.cut start / 8 + searchTail start count)) (ballocFromRange sb start count blocks) ∧
      (start / sb.mapsize < 2 ^ 32 → (start + count + (sb.mapsize - 1)) / sb.mapsize < 2 ^ 32)) ∨
      (¬ (start + count + (sb.mapsize - 1)) / sb.mapsize < 2 ^ 32 ∧
        ballocFromRange sb start count blocks = some (-1, sb)) := by
  obtain ⟨hfirst, hnone⟩ := ballocFromRange_search hms hb start hc
  obtain ⟨k, hk, -, hdiv⟩ := range_span hms start hc
  by_cases hsees : sb.Sees start count
  · refine Or.inl ⟨hfirst hsees, fun hlt => ?_⟩
    rw [Sb.Sees, hdiv] at hsees
    rw [hdiv]
    unfold u32 at hsees
    omega
  · refine Or.inr ⟨fun hlt => hsees ?_, hnone hsees⟩
    rw [Sb.Sees]
    rw [hdiv] at hlt ⊢
    rw [u32_of_lt hlt, u32_of_lt (by omega)]
    exact Nat.le_add_right _ _

/-- The state after the run at `f` is taken. -/
def Sb.taken (sb : Sb) (blocks f : ℕ) : Sb :=
  { sb with
    bitmap := Function.update sb.bitmap (f / sb.mapsize)
      (setBits (sb.bitmap (f / sb.mapsize)) (f % sb.mapsize) blocks)
    nextalloc := f % sb.mapsize + u32 (f / sb.mapsize * sb.mapsize) + blocks
    freeblocks := sb.freeblocks - blocks }

/-- The last block of the run at `f`, as the source computes it. -/
def Sb.lastFound (sb : Sb) (blocks f : ℕ) : ℕ :=
  f % sb.mapsize + (blocks - 1) + u32 (f / sb.mapsize * sb.mapsize)

theorem u32_mul_mod (hdvd : sb.mapsize ∣ 2 ^ 32) (m : ℕ) : sb.mapsize ∣ u32 (m * sb.mapsize) :=
  (Nat.dvd_mod_iff hdvd).mpr (Nat.dvd_mul_left _ _)

theorem take_eq (hdvd : sb.mapsize ∣ 2 ^ 32) (limit mapblocks f : ℕ) :
    sb.take blocks limit mapblocks f =
      if limit ≤ sb.lastFound blocks f then
        if f / sb.mapsize = mapblocks - 1 then some (-1, sb) else none
      else some (((f % sb.mapsize + u32 (f / sb.mapsize * sb.mapsize) : ℕ) : ℤ),
        sb.taken blocks f) := by
  have hfound : sb.lastFound blocks f - (blocks - 1) =
      f % sb.mapsize + u32 (f / sb.mapsize * sb.mapsize) := by
    unfold Sb.lastFound
    omega
  obtain ⟨c, hc⟩ := u32_mul_mod hdvd (f / sb.mapsize)
  have hmod : (f % sb.mapsize + u32 (f / sb.mapsize * sb.mapsize)) % sb.mapsize =
      f % sb.mapsize := by
    rw [hc, Nat.add_mul_mod_self_left, Nat.mod_mod]
  unfold Sb.lastFound at hfound ⊢
  simp only [Sb.take, hfound, hmod, Sb.taken]

theorem taken_accounted (hwf : sb.WF) (hacc : sb.Accounted) (hb : 0 < blocks) {f : ℕ}
    (hfit : sb.Fits blocks f) : (sb.taken blocks f).Accounted ↔ f + blocks ≤ sb.volblocks := by
  have hf : f / sb.mapsize * sb.mapsize + f % sb.mapsize = f := by
    rw [Nat.mul_comm, Nat.div_add_mod]
  have hbit : ∀ b, (sb.taken blocks f).bit b =
      (sb.bit b || decide (f ≤ b ∧ b < f + blocks)) := by
    intro b
    have h := bit_setBits (f / sb.mapsize) hfit.oneBlock hwf.mapsize_le b
    rw [hf] at h
    exact h
  have hcount := clearBlocks_set
    (show (sb.taken blocks f).volblocks = sb.volblocks from rfl) hbit hfit.clear
  have hover : Count.overlap f blocks sb.volblocks = blocks ↔ f + blocks ≤ sb.volblocks :=
    Count.overlap_eq_iff hb
  have hle := Count.overlap_le f blocks sb.volblocks
  unfold Sb.Accounted at hacc ⊢
  rw [show (sb.taken blocks f).freeblocks = sb.freeblocks - blocks from rfl]
  omega

theorem taken_wf (hwf : sb.WF) {f limit : ℕ} (hb : 0 < blocks)
    (hlim : sb.lastFound blocks f < limit) (hle : limit ≤ sb.volblocks) :
    (sb.taken blocks f).WF := by
  refine ⟨hwf.blockbits, ?_⟩
  change f % sb.mapsize + u32 (f / sb.mapsize * sb.mapsize) + blocks ≤ sb.volblocks
  unfold Sb.lastFound at hlim
  omega

end Balloc

end Tux3.Balloc
