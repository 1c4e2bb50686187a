import Tux3.Bitops

/-!
# Bit ranges in an array

The bitmap primitives again, access by access. The array has `n` bytes, and a load or a store
outside of it fails.
-/
namespace Tux3

section
variable (n : ℕ) (bitmap : Bytes)

/-- `bitmap[at]`. -/
def loadByte (at' : ℕ) : Option Byte := if at' < n then some (bitmap at') else none

/-- `bitmap[at] = value`. -/
def storeByte (at' : ℕ) (value : Byte) : Option Bytes :=
  if at' < n then some (Function.update bitmap at' value) else none

/-- `memset` of bytes of the array. -/
def fillBytes (at' : ℕ) (value : Byte) (len : ℕ) : Option Bytes :=
  if at' + len ≤ n then some (memset bitmap at' value len) else none

/-- `set_bits` and `clear_bits`: the masked bits of the end bytes change, the bytes between get a
value. -/
def storeRange (masked : Byte → Byte → Byte) (value : Byte) (start count : ℕ) : Option Bytes := do
  let limit := u32 (start + count)
  let loff := start / 8
  let roff := limit / 8
  let left ← loadByte n bitmap loff
  if loff = roff then storeByte n bitmap loff (masked left (lmask start &&& rmask limit))
  else
    let bitmap ← storeByte n bitmap loff (masked left (lmask start))
    let bitmap ← fillBytes n bitmap (loff + 1) value (u32 (2 ^ 32 + roff - loff - 1))
    if rmask limit ≠ 0 then
      let right ← loadByte n bitmap roff
      storeByte n bitmap roff (masked right (rmask limit))
    else some bitmap

/-- The loop over whole bytes, which ends at the first one that is not as wanted. -/
def testBytes (whole : Byte → Bool) : List ℕ → Option Bool
  | [] => some true
  | i :: rest => do
      let byte ← loadByte n bitmap i
      if whole byte then testBytes whole rest else some false

/-- `all_set` and `all_clear`: the masked bits of the end bytes and the bytes between are as
wanted. -/
def testRange (masked : Byte → Byte → Bool) (whole : Byte → Bool) (start count : ℕ) :
    Option Bool := do
  let limit := u32 (start + count)
  let loff := start / 8
  let roff := limit / 8
  if loff = roff then
    let left ← loadByte n bitmap loff
    some (masked left (lmask start &&& rmask limit))
  else if !(← testBytes n bitmap whole (inner loff roff)) then some false
  else
    let left ← loadByte n bitmap loff
    if !masked left (lmask start) then some false
    else if rmask limit = 0#8 then some true
    else
      let right ← loadByte n bitmap roff
      some (masked right (rmask limit))

def setBitsIn (start count : ℕ) : Option Bytes :=
  storeRange n bitmap (fun byte mask => byte ||| mask) 0xff#8 start count

/-- In one byte the source masks with `~lmask | ~rmask`. -/
def clearBitsIn (start count : ℕ) : Option Bytes :=
  storeRange n bitmap (fun byte mask => byte &&& ~~~mask) 0#8 start count

def allSetIn (start count : ℕ) : Option Bool :=
  testRange n bitmap (fun byte mask => byte &&& mask == mask) (fun byte => byte == 0xff#8) start
    count

def allClearIn (start count : ℕ) : Option Bool :=
  testRange n bitmap (fun byte mask => byte &&& mask == 0#8) (fun byte => byte == 0#8) start count

end

section
variable {n start count : ℕ} {bitmap : Bytes}

/-- A range of bits that the array holds. -/
structure InArray (n start count : ℕ) : Prop where
  pos : 0 < count
  fits : start + count ≤ 8 * n
  small : 8 * n < 2 ^ 32

theorem InArray.limit (h : InArray n start count) : start + count < 2 ^ 32 :=
  Nat.lt_of_le_of_lt h.fits h.small

theorem InArray.left (h : InArray n start count) : start / 8 < n := by
  have hpos := h.pos
  have hfits := h.fits
  omega

theorem InArray.right (h : InArray n start count) (hmask : rmask (start + count) ≠ 0#8) :
    (start + count) / 8 < n := by
  have hfits := h.fits
  have hrest := mt (rmask_eq_zero (start + count)).mpr hmask
  omega

theorem InArray.between (h : InArray n start count) (hoff : start / 8 ≠ (start + count) / 8) :
    start / 8 + 1 + u32 (2 ^ 32 + (start + count) / 8 - start / 8 - 1) ≤ n := by
  have hfits := h.fits
  have hlimit := h.limit
  rw [memset_length (by omega) (by omega)]
  omega

theorem loadByte_eq {at' : ℕ} (h : at' < n) : loadByte n bitmap at' = some (bitmap at') := if_pos h

theorem storeByte_eq {at' : ℕ} {value : Byte} (h : at' < n) :
    storeByte n bitmap at' value = some (Function.update bitmap at' value) := if_pos h

theorem fillBytes_eq {at' len : ℕ} {value : Byte} (h : at' + len ≤ n) :
    fillBytes n bitmap at' value len = some (memset bitmap at' value len) := if_pos h

/-- A store to a range stays in the array. -/
theorem storeRange_eq (h : InArray n start count) (masked : Byte → Byte → Byte) (value : Byte) :
    storeRange n bitmap masked value start count = some (
      let limit := u32 (start + count)
      let loff := start / 8
      let roff := limit / 8
      if loff = roff then
        Function.update bitmap loff (masked (bitmap loff) (lmask start &&& rmask limit))
      else
        let bitmap := Function.update bitmap loff (masked (bitmap loff) (lmask start))
        let bitmap := memset bitmap (loff + 1) value (u32 (2 ^ 32 + roff - loff - 1))
        if rmask limit ≠ 0 then
          Function.update bitmap roff (masked (bitmap roff) (rmask limit))
        else bitmap) := by
  simp only [storeRange, u32_of_lt h.limit, loadByte_eq h.left, Option.bind_eq_bind,
    Option.bind_some, storeByte_eq h.left]
  by_cases hoff : start / 8 = (start + count) / 8
  · rw [if_pos hoff, if_pos hoff]
  · rw [if_neg hoff, if_neg hoff, fillBytes_eq (h.between hoff), Option.bind_some]
    by_cases hmask : rmask (start + count) ≠ 0
    · rw [if_pos hmask, if_pos hmask, loadByte_eq (h.right hmask), Option.bind_some,
        storeByte_eq (h.right hmask)]
    · rw [if_neg hmask, if_neg hmask]

theorem testBytes_eq {whole : Byte → Bool} {l : List ℕ} (h : ∀ i ∈ l, i < n) :
    testBytes n bitmap whole l = some (l.all fun i => whole (bitmap i)) := by
  induction l with
  | nil => rfl
  | cons i l ih =>
      rw [testBytes, loadByte_eq (h i List.mem_cons_self), Option.bind_eq_bind, Option.bind_some,
        List.all_cons]
      cases hwhole : whole (bitmap i) with
      | false => rw [if_neg Bool.false_ne_true, Bool.false_and]
      | true => rw [if_pos rfl, Bool.true_and, ih fun j hj => h j (List.mem_cons_of_mem i hj)]

/-- A test of a range stays in the array. -/
theorem testRange_eq (h : InArray n start count) (masked : Byte → Byte → Bool)
    (whole : Byte → Bool) :
    testRange n bitmap masked whole start count = some (
      let limit := u32 (start + count)
      let loff := start / 8
      let roff := limit / 8
      if loff = roff then masked (bitmap loff) (lmask start &&& rmask limit)
      else
        (inner loff roff).all (fun i => whole (bitmap i)) &&
          (masked (bitmap loff) (lmask start) &&
            (rmask limit == 0#8 || masked (bitmap roff) (rmask limit)))) := by
  have hfits := h.fits
  have hinner : ∀ i ∈ inner (start / 8) ((start + count) / 8), i < n := by
    intro i hi
    rw [inner, List.mem_range'_1] at hi
    omega
  simp only [testRange, u32_of_lt h.limit, loadByte_eq h.left, testBytes_eq hinner,
    Option.bind_eq_bind, Option.bind_some]
  by_cases hoff : start / 8 = (start + count) / 8
  · rw [if_pos hoff, if_pos hoff]
  · rw [if_neg hoff, if_neg hoff]
    cases (inner (start / 8) ((start + count) / 8)).all fun i => whole (bitmap i) with
    | false => rfl
    | true =>
        cases masked (bitmap (start / 8)) (lmask start) with
        | false => rfl
        | true =>
            by_cases hmask : rmask (start + count) = 0#8
            · rw [hmask]
              rfl
            · simp [hmask, loadByte_eq (h.right hmask)]

theorem setBitsIn_eq (h : InArray n start count) :
    setBitsIn n bitmap start count = some (setBits bitmap start count) :=
  storeRange_eq h _ _

theorem clearBitsIn_eq (h : InArray n start count) :
    clearBitsIn n bitmap start count = some (clearBits bitmap start count) := by
  have hmask : ∀ a b : Byte, ~~~(a &&& b) = ~~~a ||| ~~~b := fun a b => BitVec.not_and
  rw [clearBitsIn, storeRange_eq h, clearBits]
  simp only [hmask]

theorem allSetIn_eq (h : InArray n start count) :
    allSetIn n bitmap start count = some (allSet bitmap start count) :=
  testRange_eq h _ _

theorem allClearIn_eq (h : InArray n start count) :
    allClearIn n bitmap start count = some (allClear bitmap start count) :=
  testRange_eq h _ _

theorem byte_outside {bitmap' : Bytes} {f : Bool → Bool → Bool} (hf : ∀ b, f b false = b)
    (h : InArray n start count) (hbits : ∀ i, bitAt bitmap' i =
      f (bitAt bitmap i) (decide (start ≤ i ∧ i < start + count))) {at' : ℕ} (hat : n ≤ at') :
    bitmap' at' = bitmap at' := by
  have hfits := h.fits
  refine byte_ext fun j hj => ?_
  have hbit := hbits (8 * at' + j)
  rw [decide_eq_false (by omega), hf, bitAt, bitAt, show (8 * at' + j) / 8 = at' by omega,
    show (8 * at' + j) % 8 = j by omega] at hbit
  exact hbit

/-- The operations stay in the array, and change or test the bits of their range and no others. -/
theorem bitops_exact (h : InArray n start count) (bitmap : Bytes) :
    (∃ bitmap', setBitsIn n bitmap start count = some bitmap' ∧
        (∀ i, bitAt bitmap' i = (bitAt bitmap i || decide (start ≤ i ∧ i < start + count))) ∧
        ∀ at', n ≤ at' → bitmap' at' = bitmap at') ∧
      (∃ bitmap', clearBitsIn n bitmap start count = some bitmap' ∧
        (∀ i, bitAt bitmap' i = (bitAt bitmap i && !decide (start ≤ i ∧ i < start + count))) ∧
        ∀ at', n ≤ at' → bitmap' at' = bitmap at') ∧
      (∃ all, allSetIn n bitmap start count = some all ∧
        (all = true ↔ ∀ i, start ≤ i → i < start + count → bitAt bitmap i = true)) ∧
      ∃ all, allClearIn n bitmap start count = some all ∧
        (all = true ↔ ∀ i, start ≤ i → i < start + count → bitAt bitmap i = false) := by
  have hset := @bitAt_setBits bitmap start count h.limit
  have hclear := @bitAt_clearBits bitmap start count h.limit
  refine ⟨⟨_, setBitsIn_eq h, hset, fun at' hat => ?_⟩,
    ⟨_, clearBitsIn_eq h, hclear, fun at' hat => ?_⟩, ⟨_, allSetIn_eq h, allSet_iff h.limit⟩,
    ⟨_, allClearIn_eq h, allClear_iff h.limit⟩⟩
  · exact byte_outside Bool.or_false h hset hat
  · exact byte_outside (f := fun b d => b && !d) Bool.and_true h hclear hat

/-- From the middle of the first byte to the end of the array. -/
theorem bitops_exact_two : ∃ bitmap', setBitsIn 2 (fun _ => 0#8) 6 10 = some bitmap' ∧
    (∀ i, bitAt bitmap' i = (bitAt (fun _ => 0#8) i || decide (6 ≤ i ∧ i < 6 + 10))) ∧
    ∀ at', 2 ≤ at' → bitmap' at' = 0#8 :=
  (bitops_exact ⟨by decide, by decide, by decide⟩ fun _ => 0#8).1

end

end Tux3
