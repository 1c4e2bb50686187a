import Tux3.Basic

/-!
# Bit ranges in byte memory

The bitmap primitives `set_bits`, `clear_bits`, `all_set` and `all_clear` of
`kernel/utility.c`. A byte pointer is the memory it points to, so "no byte
outside the array" is a statement about the bytes the operation leaves alone.
-/
namespace Tux3

abbrev Byte := BitVec 8

/-- The memory behind a byte pointer. -/
abbrev Bytes := ℕ → Byte

/-- Bit `i` of a little endian bitmap. -/
def bitAt (bitmap : Bytes) (i : ℕ) : Bool := (bitmap (i / 8)).getLsbD (i % 8)

/-- `memset(bitmap + at, value, n)`. -/
def memset (bitmap : Bytes) (at' : ℕ) (value : Byte) (n : ℕ) : Bytes :=
  fun i => if at' ≤ i ∧ i < at' + n then value else bitmap i

/-- `lmask`: the bits of its byte at or above `start`. -/
def lmask (start : ℕ) : Byte := 0xff#8 <<< (start % 8)

/-- `rmask`: the bits of its byte below `limit`. -/
def rmask (limit : ℕ) : Byte := ~~~(0xff#8 <<< (limit % 8))

def setBits (bitmap : Bytes) (start count : ℕ) : Bytes :=
  let limit := u32 (start + count)
  let loff := start / 8
  let roff := limit / 8
  if loff = roff then
    Function.update bitmap loff (bitmap loff ||| (lmask start &&& rmask limit))
  else
    let bitmap := Function.update bitmap loff (bitmap loff ||| lmask start)
    let bitmap := memset bitmap (loff + 1) 0xff#8 (u32 (2 ^ 32 + roff - loff - 1))
    if rmask limit ≠ 0 then
      Function.update bitmap roff (bitmap roff ||| rmask limit)
    else bitmap

def clearBits (bitmap : Bytes) (start count : ℕ) : Bytes :=
  let limit := u32 (start + count)
  let loff := start / 8
  let roff := limit / 8
  if loff = roff then
    Function.update bitmap loff (bitmap loff &&& (~~~lmask start ||| ~~~rmask limit))
  else
    let bitmap := Function.update bitmap loff (bitmap loff &&& ~~~lmask start)
    let bitmap := memset bitmap (loff + 1) 0#8 (u32 (2 ^ 32 + roff - loff - 1))
    if rmask limit ≠ 0 then
      Function.update bitmap roff (bitmap roff &&& ~~~rmask limit)
    else bitmap

/-- The byte offsets of the `for (i = loff + 1; i < roff; i++)` loops. -/
def inner (loff roff : ℕ) : List ℕ := List.range' (loff + 1) (roff - (loff + 1))

def allSet (bitmap : Bytes) (start count : ℕ) : Bool :=
  let limit := u32 (start + count)
  let loff := start / 8
  let roff := limit / 8
  if loff = roff then
    bitmap loff &&& (lmask start &&& rmask limit) == lmask start &&& rmask limit
  else
    (inner loff roff).all (fun i => bitmap i == 0xff#8) &&
      (bitmap loff &&& lmask start == lmask start &&
        (rmask limit == 0#8 || bitmap roff &&& rmask limit == rmask limit))

def allClear (bitmap : Bytes) (start count : ℕ) : Bool :=
  let limit := u32 (start + count)
  let loff := start / 8
  let roff := limit / 8
  if loff = roff then
    bitmap loff &&& (lmask start &&& rmask limit) == 0#8
  else
    (inner loff roff).all (fun i => bitmap i == 0#8) &&
      (bitmap loff &&& lmask start == 0#8 &&
        (rmask limit == 0#8 || bitmap roff &&& rmask limit == 0#8))

/-! ## Masks bit by bit -/

private theorem shift_bits : ∀ s < 8, ∀ j < 8,
    (0xff#8 <<< s).getLsbD j = decide (s ≤ j) := by decide

theorem getLsbD_lmask (start : ℕ) {j : ℕ} (hj : j < 8) :
    (lmask start).getLsbD j = decide (start % 8 ≤ j) :=
  shift_bits _ (Nat.mod_lt _ (by omega)) _ hj

theorem getLsbD_rmask (limit : ℕ) {j : ℕ} (hj : j < 8) :
    (rmask limit).getLsbD j = decide (j < limit % 8) := by
  have hs := shift_bits _ (Nat.mod_lt limit (by omega : 0 < 8)) _ hj
  rw [rmask, BitVec.getLsbD_not, hs, decide_eq_true hj, Bool.true_and, ← decide_not]
  exact decide_eq_decide.mpr Nat.not_le

private theorem rmask_zero : ∀ s < 8, ~~~(0xff#8 <<< s) = 0#8 ↔ s = 0 := by decide

theorem rmask_eq_zero (limit : ℕ) : rmask limit = 0#8 ↔ limit % 8 = 0 :=
  rmask_zero _ (Nat.mod_lt _ (by omega))

theorem getLsbD_ff : ∀ j < 8, (0xff#8).getLsbD j = true := by decide

theorem byte_ext {a b : Byte} (h : ∀ j < 8, a.getLsbD j = b.getLsbD j) : a = b :=
  BitVec.eq_of_getLsbD_eq h

theorem and_eq_mask (a m : Byte) :
    a &&& m = m ↔ ∀ j < 8, m.getLsbD j = true → a.getLsbD j = true := by
  constructor
  · intro h j hj hm
    have hb := congrArg (fun x : Byte => x.getLsbD j) h
    simpa only [BitVec.getLsbD_and, hm, Bool.and_true] using hb
  · intro h
    refine byte_ext fun j hj => ?_
    rw [BitVec.getLsbD_and]
    cases hm : m.getLsbD j with
    | false => rw [Bool.and_false]
    | true => rw [h j hj hm, Bool.and_true]

theorem and_eq_zero (a m : Byte) :
    a &&& m = 0#8 ↔ ∀ j < 8, m.getLsbD j = true → a.getLsbD j = false := by
  constructor
  · intro h j hj hm
    have hb := congrArg (fun x : Byte => x.getLsbD j) h
    simpa only [BitVec.getLsbD_and, hm, Bool.and_true, BitVec.getLsbD_zero] using hb
  · intro h
    refine byte_ext fun j hj => ?_
    rw [BitVec.getLsbD_and, BitVec.getLsbD_zero]
    cases hm : m.getLsbD j with
    | false => rw [Bool.and_false]
    | true => rw [h j hj hm, Bool.false_and]

/-! ## What the operations do to each bit -/

section Range
variable {bitmap : Bytes} {start count : ℕ}

theorem bitAt_memset (at' n : ℕ) (value : Byte) (i : ℕ) :
    bitAt (memset bitmap at' value n) i =
      if at' ≤ i / 8 ∧ i / 8 < at' + n then value.getLsbD (i % 8) else bitAt bitmap i := by
  unfold bitAt memset
  split <;> rfl

theorem bitAt_update (p : ℕ) (value : Byte) (i : ℕ) :
    bitAt (Function.update bitmap p value) i =
      if i / 8 = p then value.getLsbD (i % 8) else bitAt bitmap i := by
  unfold bitAt
  by_cases h : i / 8 = p
  · rw [if_pos h, h, Function.update_self]
  · rw [if_neg h, Function.update_of_ne h]

theorem memset_length {loff roff : ℕ} (h : loff < roff) (hr : roff < 2 ^ 32) :
    u32 (2 ^ 32 + roff - loff - 1) = roff - (loff + 1) := by
  unfold u32
  omega

/-- `set_bits` sets the bits of its range and no other bit. -/
theorem bitAt_setBits (h : start + count < 2 ^ 32) (i : ℕ) :
    bitAt (setBits bitmap start count) i =
      (bitAt bitmap i || decide (start ≤ i ∧ i < start + count)) := by
  have hj : i % 8 < 8 := Nat.mod_lt _ (by omega)
  simp only [setBits, u32_of_lt h]
  by_cases hoff : start / 8 = (start + count) / 8
  · rw [if_pos hoff, bitAt_update]
    split
    · rename_i hi
      rw [BitVec.getLsbD_or, BitVec.getLsbD_and, getLsbD_lmask _ hj, getLsbD_rmask _ hj, ← hi,
        ← Bool.decide_and]
      congr 1
      exact decide_eq_decide.mpr (by omega)
    · rw [decide_eq_false (by omega), Bool.or_false]
  · have hlt : start / 8 < (start + count) / 8 := by omega
    rw [if_neg hoff, memset_length hlt (by omega)]
    have hmid : bitAt (memset (Function.update bitmap (start / 8)
          (bitmap (start / 8) ||| lmask start)) (start / 8 + 1) 0xff#8
          ((start + count) / 8 - (start / 8 + 1))) i =
        (bitAt bitmap i || decide (start ≤ i ∧ i / 8 < (start + count) / 8)) := by
      rw [bitAt_memset, bitAt_update]
      split
      · rw [getLsbD_ff _ hj, decide_eq_true (by omega), Bool.or_true]
      · split
        · rename_i hi
          rw [BitVec.getLsbD_or, getLsbD_lmask _ hj, ← hi]
          congr 1
          exact decide_eq_decide.mpr (by omega)
        · rw [decide_eq_false (by omega), Bool.or_false]
    split
    · rw [bitAt_update]
      split
      · rename_i hi
        have hout : ¬ (start / 8 + 1 ≤ (start + count) / 8 ∧ (start + count) / 8 <
          start / 8 + 1 + ((start + count) / 8 - (start / 8 + 1))) := by omega
        rw [BitVec.getLsbD_or, getLsbD_rmask _ hj, memset, if_neg hout,
          Function.update_of_ne (Ne.symm hoff), ← hi]
        congr 1
        exact decide_eq_decide.mpr (by omega)
      · rw [hmid]
        congr 1
        exact decide_eq_decide.mpr (by omega)
    · rename_i hr
      have hz := (rmask_eq_zero _).mp (not_not.mp hr)
      rw [hmid]
      congr 1
      exact decide_eq_decide.mpr (by omega)

/-- `clear_bits` clears the bits of its range and no other bit. -/
theorem bitAt_clearBits (h : start + count < 2 ^ 32) (i : ℕ) :
    bitAt (clearBits bitmap start count) i =
      (bitAt bitmap i && !decide (start ≤ i ∧ i < start + count)) := by
  have hj : i % 8 < 8 := Nat.mod_lt _ (by omega)
  simp only [clearBits, u32_of_lt h]
  by_cases hoff : start / 8 = (start + count) / 8
  · rw [if_pos hoff, bitAt_update]
    split
    · rename_i hi
      rw [BitVec.getLsbD_and, BitVec.getLsbD_or, BitVec.getLsbD_not, BitVec.getLsbD_not,
        getLsbD_lmask _ hj, getLsbD_rmask _ hj, ← hi, decide_eq_true hj, Bool.true_and,
        Bool.true_and, ← Bool.not_and, ← Bool.decide_and]
      congr 2
      exact decide_eq_decide.mpr (by omega)
    · rw [decide_eq_false (by omega), Bool.not_false, Bool.and_true]
  · have hlt : start / 8 < (start + count) / 8 := by omega
    rw [if_neg hoff, memset_length hlt (by omega)]
    have hmid : bitAt (memset (Function.update bitmap (start / 8)
          (bitmap (start / 8) &&& ~~~lmask start)) (start / 8 + 1) 0#8
          ((start + count) / 8 - (start / 8 + 1))) i =
        (bitAt bitmap i && !decide (start ≤ i ∧ i / 8 < (start + count) / 8)) := by
      rw [bitAt_memset, bitAt_update]
      split
      · rw [BitVec.getLsbD_zero, decide_eq_true (by omega), Bool.not_true, Bool.and_false]
      · split
        · rename_i hi
          rw [BitVec.getLsbD_and, BitVec.getLsbD_not, getLsbD_lmask _ hj, ← hi,
            decide_eq_true hj, Bool.true_and]
          congr 2
          exact decide_eq_decide.mpr (by omega)
        · rw [decide_eq_false (by omega), Bool.not_false, Bool.and_true]
    split
    · rw [bitAt_update]
      split
      · rename_i hi
        have hout : ¬ (start / 8 + 1 ≤ (start + count) / 8 ∧ (start + count) / 8 <
          start / 8 + 1 + ((start + count) / 8 - (start / 8 + 1))) := by omega
        rw [BitVec.getLsbD_and, BitVec.getLsbD_not, getLsbD_rmask _ hj, memset, if_neg hout,
          Function.update_of_ne (Ne.symm hoff), ← hi, decide_eq_true hj, Bool.true_and]
        congr 2
        exact decide_eq_decide.mpr (by omega)
      · rw [hmid]
        congr 2
        exact decide_eq_decide.mpr (by omega)
    · rename_i hr
      have hz := (rmask_eq_zero _).mp (not_not.mp hr)
      rw [hmid]
      congr 2
      exact decide_eq_decide.mpr (by omega)

/-- The three byte checks of `all_set` and `all_clear`, in terms of a property of bits:
`P p j` says that bit `j` of byte `p` is as wanted. -/
theorem range_by_bytes {P : ℕ → ℕ → Prop} {limit : ℕ} (hlt : start / 8 < limit / 8) :
    ((∀ p ∈ inner (start / 8) (limit / 8), ∀ j < 8, P p j) ∧
      (∀ j < 8, start % 8 ≤ j → P (start / 8) j) ∧
      (∀ j < 8, j < limit % 8 → P (limit / 8) j)) ↔
      ∀ i, start ≤ i → i < limit → P (i / 8) (i % 8) := by
  constructor
  · rintro ⟨hmid, hleft, hright⟩ i hs hl
    have hj : i % 8 < 8 := Nat.mod_lt _ (by omega)
    by_cases h1 : i / 8 = start / 8
    · exact h1 ▸ hleft _ hj (by omega)
    · by_cases h2 : i / 8 = limit / 8
      · exact h2 ▸ hright _ hj (by omega)
      · refine hmid _ ?_ _ hj
        rw [inner, List.mem_range'_1]
        omega
  · intro h
    have at' : ∀ p j, j < 8 → start ≤ 8 * p + j → 8 * p + j < limit → P p j := by
      intro p j hj hs hl
      have hp := h (8 * p + j) hs hl
      rwa [show (8 * p + j) / 8 = p by omega, show (8 * p + j) % 8 = j by omega] at hp
    refine ⟨fun p hp j hj => ?_, fun j hj hs => at' _ _ hj (by omega) (by omega),
      fun j hj hl => at' _ _ hj (by omega) (by omega)⟩
    rw [inner, List.mem_range'_1] at hp
    exact at' p j hj (by omega) (by omega)

/-- Inside one byte the checks read the bits from `start` to `limit`. -/
theorem range_in_byte {P : ℕ → ℕ → Prop} {limit : ℕ} (heq : start / 8 = limit / 8) :
    (∀ j < 8, start % 8 ≤ j ∧ j < limit % 8 → P (start / 8) j) ↔
      ∀ i, start ≤ i → i < limit → P (i / 8) (i % 8) := by
  constructor
  · intro h i hs hl
    rw [show i / 8 = start / 8 by omega]
    exact h _ (Nat.mod_lt _ (by omega)) (by omega)
  · intro h j hj hb
    have hp := h (8 * (start / 8) + j) (by omega) (by omega)
    rwa [show (8 * (start / 8) + j) / 8 = start / 8 by omega,
      show (8 * (start / 8) + j) % 8 = j by omega] at hp

theorem byte_eq_ff (a : Byte) : a = 0xff#8 ↔ ∀ j < 8, a.getLsbD j = true :=
  ⟨fun h j hj => h ▸ getLsbD_ff j hj,
    fun h => byte_ext fun j hj => (h j hj).trans (getLsbD_ff j hj).symm⟩

theorem byte_eq_zero (a : Byte) : a = 0#8 ↔ ∀ j < 8, a.getLsbD j = false :=
  ⟨fun h _ _ => h ▸ BitVec.getLsbD_zero, fun h => byte_ext fun j hj =>
    (h j hj).trans BitVec.getLsbD_zero.symm⟩

theorem mask_inside (limit : ℕ) {j : ℕ} (hj : j < 8) :
    (lmask start &&& rmask limit).getLsbD j = true ↔ start % 8 ≤ j ∧ j < limit % 8 := by
  rw [BitVec.getLsbD_and, getLsbD_lmask _ hj, getLsbD_rmask _ hj, Bool.and_eq_true,
    decide_eq_true_iff, decide_eq_true_iff]

/-- `all_set` tests exactly the bits of its range. -/
theorem allSet_iff (h : start + count < 2 ^ 32) :
    allSet bitmap start count = true ↔
      ∀ i, start ≤ i → i < start + count → bitAt bitmap i = true := by
  simp only [allSet, u32_of_lt h, bitAt]
  by_cases hoff : start / 8 = (start + count) / 8
  · rw [if_pos hoff, beq_iff_eq, and_eq_mask,
      ← range_in_byte (P := fun p j => (bitmap p).getLsbD j = true) hoff]
    exact forall₂_congr fun j hj => by rw [mask_inside _ hj]
  · rw [if_neg hoff, ← range_by_bytes (P := fun p j => (bitmap p).getLsbD j = true)
        (by omega : start / 8 < (start + count) / 8)]
    simp only [Bool.and_eq_true, List.all_eq_true, beq_iff_eq, byte_eq_ff, and_eq_mask,
      Bool.or_eq_true, rmask_eq_zero]
    refine and_congr Iff.rfl (and_congr ?_ ?_)
    · exact forall₂_congr fun j hj => by rw [getLsbD_lmask _ hj, decide_eq_true_iff]
    · constructor
      · rintro (hz | hr) j hj hl
        · omega
        · exact hr j hj (by rw [getLsbD_rmask _ hj]; exact decide_eq_true hl)
      · intro hr
        refine Or.inr fun j hj hm => hr j hj ?_
        rwa [getLsbD_rmask _ hj, decide_eq_true_iff] at hm

/-- `all_clear` tests exactly the bits of its range. -/
theorem allClear_iff (h : start + count < 2 ^ 32) :
    allClear bitmap start count = true ↔
      ∀ i, start ≤ i → i < start + count → bitAt bitmap i = false := by
  simp only [allClear, u32_of_lt h, bitAt]
  by_cases hoff : start / 8 = (start + count) / 8
  · rw [if_pos hoff, beq_iff_eq, and_eq_zero,
      ← range_in_byte (P := fun p j => (bitmap p).getLsbD j = false) hoff]
    exact forall₂_congr fun j hj => by rw [mask_inside _ hj]
  · rw [if_neg hoff, ← range_by_bytes (P := fun p j => (bitmap p).getLsbD j = false)
        (by omega : start / 8 < (start + count) / 8)]
    simp only [Bool.and_eq_true, List.all_eq_true, beq_iff_eq, Bool.or_eq_true, and_eq_zero,
      rmask_eq_zero]
    simp only [byte_eq_zero]
    refine and_congr Iff.rfl (and_congr ?_ ?_)
    · exact forall₂_congr fun j hj => by rw [getLsbD_lmask _ hj, decide_eq_true_iff]
    · constructor
      · rintro (hz | hr) j hj hl
        · omega
        · exact hr j hj (by rw [getLsbD_rmask _ hj]; exact decide_eq_true hl)
      · intro hr
        refine Or.inr fun j hj hm => hr j hj ?_
        rwa [getLsbD_rmask _ hj, decide_eq_true_iff] at hm

end Range

end Tux3
