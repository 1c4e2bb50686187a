import Tux3.XattrAtoms

/-!
# The blocks of the counts

The counts are in pairs of blocks of the atom table: one block has the low halves of a number of
atoms, and the next one their high halves. `use_atom` computes with ints of 32 bits, and goes to
the second block only for a low half that is zero or has left 16 bits. The dictionary and the
reverse map are in other blocks of the atom table.
-/
namespace Tux3.Xattr

open Tux3.Dir

/-- The `be_u16` fields of the blocks of the counts. -/
abbrev Fields := BitVec 32 → BitVec 32 → BitVec 16

/-- A field of a block changes. -/
def Fields.store (refs : Fields) (block offset : BitVec 32) (value : BitVec 16) : Fields :=
  Function.update refs block (Function.update (refs block) offset value)

section
variable (blockbits : ℕ) (atomrefBase : BitVec 32)

/-! ## `use_atom` -/

/-- `block` of `use_atom`. -/
def refBlock (atom : BitVec 32) : BitVec 32 := atomrefBase + 2 * (atom >>> (blockbits - 1))

/-- `offset` of `use_atom`. -/
def refOffset (atom : BitVec 32) : BitVec 32 := atom &&& ~~~((-1 : BitVec 32) <<< (blockbits - 1))

/-- `use_atom` up to `if (kill)`, with `kill`. -/
def useCount (refs : Fields) (atom use : BitVec 32) : Fields × Bool :=
  let block := refBlock blockbits atomrefBase atom
  let offset := refOffset blockbits atom
  let low := (refs block offset).setWidth 32 + use
  let refs := refs.store block offset (low.setWidth 16)
  if low = 0 ∨ low &&& ((-1 : BitVec 32) <<< 16) ≠ 0 then
    let high := (refs (block + 1) offset).setWidth 32 + low.sshiftRight 16
    (refs.store (block + 1) offset (high.setWidth 16), decide (low ||| high = 0))
  else (refs, false)

/-- `use_atom` with the blocks of the counts. -/
def useAtomFields (refs : Fields) (s : Atable) (atom use : BitVec 32) : Fields × Atable :=
  let (refs, kill) := useCount blockbits atomrefBase refs atom use
  (refs, if kill then killAtom blockbits s atom.toNat else s)

/-! ## Layout -/

/-- `sb->atomref_base` of `unpack_sb`. -/
def atomrefBlocks : BitVec 32 := (1 : BitVec 32) <<< (40 - blockbits)

/-- `sb->unatom_base` of `unpack_sb`. -/
def unatomBlocks : BitVec 32 := atomrefBlocks blockbits + ((1 : BitVec 32) <<< (34 - blockbits))

/-- The block of `blockread_unatom`. -/
def unatomBlock (unatomBase atom : BitVec 32) : BitVec 32 := unatomBase + (atom >>> (blockbits - 3))

/-! ## Counts of the fields -/

def lowRef (refs : Fields) (atom : BitVec 32) : BitVec 16 :=
  refs (refBlock blockbits atomrefBase atom) (refOffset blockbits atom)

def highRef (refs : Fields) (atom : BitVec 32) : BitVec 16 :=
  refs (refBlock blockbits atomrefBase atom + 1) (refOffset blockbits atom)

/-- The count that is stored for an atom. -/
def storedCount (refs : Fields) (atom : BitVec 32) : ℕ :=
  (highRef blockbits atomrefBase refs atom).toNat * 2 ^ 16 +
    (lowRef blockbits atomrefBase refs atom).toNat

/-- The halves of the counts by the number of the atom. -/
def halves (half : BitVec 32 → BitVec 16) (atom : ℕ) : ℕ :=
  if atom < 2 ^ 32 then (half (.ofNat 32 atom)).toNat else 0

/-- The atom table with the counts of the fields. -/
def Atable.withCounts (s : Atable) (refs : Fields) : Atable :=
  { s with
    lorefs := halves (lowRef blockbits atomrefBase refs)
    hirefs := halves (highRef blockbits atomrefBase refs) }

end

section
variable {bits : ℕ} {base : BitVec 32} {refs : Fields} {s : Atable} {atom use : BitVec 32}

/-! ## Words -/

/-- The test of `use_atom`: a sum that has left 16 bits. -/
theorem outside_iff (low : BitVec 32) :
    low &&& ((-1 : BitVec 32) <<< 16) ≠ 0 ↔ low.toInt < 0 ∨ 2 ^ 16 ≤ low.toInt := by
  have hmask : low &&& ((-1 : BitVec 32) <<< 16) = (low >>> 16) <<< 16 := by
    refine BitVec.eq_of_getLsbD_eq fun i hi => ?_
    have hall : (-1 : BitVec 32) = BitVec.allOnes 32 := rfl
    rw [hall, BitVec.getLsbD_and, BitVec.getLsbD_shiftLeft, BitVec.getLsbD_shiftLeft,
      BitVec.getLsbD_ushiftRight, BitVec.getLsbD_allOnes]
    by_cases h : i < 16
    · simp [h]
    · have h₁ : 16 + (i - 16) = i := by omega
      have h₂ : i - 16 < 32 := by omega
      simp [h, hi, h₁, h₂]
  have hzero : (low >>> 16) <<< 16 = 0 ↔ low.toNat < 2 ^ 16 := by
    rw [← BitVec.toNat_inj, BitVec.toNat_shiftLeft, BitVec.toNat_ushiftRight, Nat.shiftLeft_eq,
      Nat.shiftRight_eq_div_pow]
    have hlt := low.isLt
    have hz : (0 : BitVec 32).toNat = 0 := rfl
    rw [hz]
    omega
  rw [hmask, Ne, hzero]
  have hlt := low.isLt
  have hcond := low.toInt_eq_toNat_cond
  split at hcond <;> omega

theorem toInt_add_field (x : BitVec 16) {y : BitVec 32} (hdown : -2 ^ 16 ≤ y.toInt)
    (hup : y.toInt ≤ 2 ^ 16) : (x.setWidth 32 + y).toInt = x.toNat + y.toInt := by
  have hx := x.isLt
  have hfield : (x.setWidth 32).toInt = x.toNat := by
    rw [BitVec.toInt_eq_toNat_of_lt]
    · rw [BitVec.toNat_setWidth_of_le (by decide)]
    · rw [BitVec.toNat_setWidth_of_le (by decide)]
      omega
  rw [BitVec.toInt_add, hfield]
  exact Int.bmod_eq_of_le (by omega) (by omega)

theorem toNat_low (x : BitVec 32) : (x.setWidth 16).toNat = (x.toInt % 2 ^ 16).toNat := by
  have hlt := x.isLt
  have hcond := x.toInt_eq_toNat_cond
  rw [BitVec.toNat_setWidth]
  split at hcond <;> omega

theorem toInt_shift (x : BitVec 32) : (x.sshiftRight 16).toInt = x.toInt / 2 ^ 16 := by
  rw [BitVec.toInt_sshiftRight, Int.shiftRight_eq_div_pow]
  rfl

/-! ## Fields -/

theorem refBlock_ne_high (a b : BitVec 32) : refBlock bits base a ≠ refBlock bits base b + 1 := by
  unfold refBlock
  generalize a >>> (bits - 1) = x
  generalize b >>> (bits - 1) = y
  bv_omega

/-- Two atoms do not share a field. -/
theorem address_inj (hbits : 2 ≤ bits) {a b : BitVec 32}
    (hblock : refBlock bits base a = refBlock bits base b)
    (hoffset : refOffset bits a = refOffset bits b) : a = b := by
  have hhalf : ∀ x : BitVec 32, (x >>> (bits - 1)).toNat < 2 ^ 31 := by
    intro x
    rw [BitVec.toNat_ushiftRight, Nat.shiftRight_eq_div_pow]
    have hpow : 2 ^ 1 ≤ 2 ^ (bits - 1) := Nat.pow_le_pow_right (by decide) (by omega)
    have hle : x.toNat / 2 ^ (bits - 1) ≤ x.toNat / 2 :=
      Nat.div_le_div_left hpow (by decide)
    have hlt := x.isLt
    omega
  have hshift : a >>> (bits - 1) = b >>> (bits - 1) := by
    have ha := hhalf a
    have hb := hhalf b
    unfold refBlock at hblock
    generalize a >>> (bits - 1) = x at hblock ha ⊢
    generalize b >>> (bits - 1) = y at hblock hb ⊢
    bv_omega
  refine BitVec.eq_of_getLsbD_eq fun i hi => ?_
  by_cases h : i < bits - 1
  · have hbit : ∀ x : BitVec 32, (refOffset bits x).getLsbD i = x.getLsbD i := by
      intro x
      unfold refOffset
      simp [h, hi]
    rw [← hbit a, ← hbit b, hoffset]
  · have hbit : ∀ x : BitVec 32, (x >>> (bits - 1)).getLsbD (i - (bits - 1)) = x.getLsbD i := by
      intro x
      rw [BitVec.getLsbD_ushiftRight, Nat.add_sub_cancel' (by omega)]
    rw [← hbit a, ← hbit b, hshift]

theorem store_self (refs : Fields) (block offset : BitVec 32) (value : BitVec 16) :
    refs.store block offset value block offset = value := by
  rw [Fields.store, Function.update_self, Function.update_self]

theorem store_other {block offset block' offset' : BitVec 32} (value : BitVec 16)
    (h : block' = block → offset' ≠ offset) :
    refs.store block offset value block' offset' = refs block' offset' := by
  rw [Fields.store]
  by_cases hblock : block' = block
  · rw [hblock, Function.update_self, Function.update_of_ne (h hblock)]
  · rw [Function.update_of_ne hblock]

theorem lowRef_store_low (hbits : 2 ≤ bits) (value : BitVec 16) (b : BitVec 32) :
    lowRef bits base (refs.store (refBlock bits base atom) (refOffset bits atom) value) b =
      if b = atom then value else lowRef bits base refs b := by
  unfold lowRef
  by_cases h : b = atom
  · rw [if_pos h, h, store_self]
  · rw [if_neg h, store_other]
    intro hblock hoffset
    exact h (address_inj hbits hblock hoffset)

theorem highRef_store_high (hbits : 2 ≤ bits) (value : BitVec 16) (b : BitVec 32) :
    highRef bits base (refs.store (refBlock bits base atom + 1) (refOffset bits atom) value) b =
      if b = atom then value else highRef bits base refs b := by
  unfold highRef
  by_cases h : b = atom
  · rw [if_pos h, h, store_self]
  · rw [if_neg h, store_other]
    intro hblock hoffset
    exact h (address_inj hbits ((BitVec.add_left_inj 1).mp hblock) hoffset)

theorem highRef_store_low (value : BitVec 16) (b : BitVec 32) :
    highRef bits base (refs.store (refBlock bits base atom) (refOffset bits atom) value) b =
      highRef bits base refs b :=
  store_other value fun hblock => absurd hblock.symm (refBlock_ne_high _ _)

theorem lowRef_store_high (value : BitVec 16) (b : BitVec 32) :
    lowRef bits base (refs.store (refBlock bits base atom + 1) (refOffset bits atom) value) b =
      lowRef bits base refs b :=
  store_other value fun hblock => absurd hblock (refBlock_ne_high _ _)

/-! ## Both levels -/

theorem withCounts_lorefs (s : Atable) (refs : Fields) :
    (s.withCounts bits base refs).lorefs = halves (lowRef bits base refs) := rfl

theorem withCounts_hirefs (s : Atable) (refs : Fields) :
    (s.withCounts bits base refs).hirefs = halves (highRef bits base refs) := rfl

theorem halves_toNat (half : BitVec 32 → BitVec 16) (atom : BitVec 32) :
    halves half atom.toNat = (half atom).toNat := by
  rw [halves, if_pos atom.isLt, BitVec.ofNat_toNat, BitVec.setWidth_eq]

theorem halves_update {half half' : BitVec 32 → BitVec 16} {value : BitVec 16}
    (h : ∀ b, half' b = if b = atom then value else half b) :
    halves half' = Function.update (halves half) atom.toNat value.toNat := by
  funext a
  by_cases heq : a = atom.toNat
  · rw [heq, Function.update_self, halves_toNat, h, if_pos rfl]
  · rw [Function.update_of_ne heq]
    unfold halves
    by_cases ha : a < 2 ^ 32
    · have hne : BitVec.ofNat 32 a ≠ atom := by
        rintro rfl
        rw [BitVec.toNat_ofNat, Nat.mod_eq_of_lt ha] at heq
        exact heq rfl
      rw [if_pos ha, if_pos ha, h, if_neg hne]
    · rw [if_neg ha, if_neg ha]

theorem withCounts_store_low (hbits : 2 ≤ bits) (value : BitVec 16) :
    s.withCounts bits base
        (refs.store (refBlock bits base atom) (refOffset bits atom) value) =
      { s.withCounts bits base refs with
        lorefs := Function.update (s.withCounts bits base refs).lorefs atom.toNat
          value.toNat } := by
  have hhigh : highRef bits base
      (refs.store (refBlock bits base atom) (refOffset bits atom) value) =
      highRef bits base refs := funext fun b => highRef_store_low value b
  unfold Atable.withCounts
  rw [halves_update (lowRef_store_low hbits value), hhigh]

theorem withCounts_store_high (hbits : 2 ≤ bits) (value : BitVec 16) :
    s.withCounts bits base
        (refs.store (refBlock bits base atom + 1) (refOffset bits atom) value) =
      { s.withCounts bits base refs with
        hirefs := Function.update (s.withCounts bits base refs).hirefs atom.toNat
          value.toNat } := by
  have hlow : lowRef bits base
      (refs.store (refBlock bits base atom + 1) (refOffset bits atom) value) =
      lowRef bits base refs := funext fun b => lowRef_store_high value b
  unfold Atable.withCounts
  rw [halves_update (highRef_store_high hbits value), hlow]

theorem killAtom_withCounts (s : Atable) (refs : Fields) (a : ℕ) :
    killAtom bits (s.withCounts bits base refs) a =
      (killAtom bits s a).withCounts bits base refs := by
  unfold killAtom Atable.withCounts
  dsimp only
  split
  · split <;> rfl
  · rfl

/-! ## The two branches -/

theorem toInt_eq_zero (x : BitVec 32) : x = 0 ↔ x.toInt = 0 := BitVec.toInt_inj.symm

/-- The sum leaves the low half. -/
theorem useCount_carry {low high : ℤ} (hdown : -2 ^ 15 ≤ use.toInt) (hup : use.toInt ≤ 2 ^ 15)
    (hlow : low = (lowRef bits base refs atom).toNat + use.toInt)
    (hhigh : high = (highRef bits base refs atom).toNat + low / 2 ^ 16)
    (hcarry : low = 0 ∨ low < 0 ∨ 2 ^ 16 ≤ low) :
    ∃ lo hi : BitVec 16, lo.toNat = (low % 2 ^ 16).toNat ∧ hi.toNat = (high % 2 ^ 16).toNat ∧
      useCount bits base refs atom use =
        ((refs.store (refBlock bits base atom) (refOffset bits atom) lo).store
          (refBlock bits base atom + 1) (refOffset bits atom) hi, decide (low = 0 ∧ high = 0)) := by
  obtain ⟨x, hx⟩ : ∃ x, x = (lowRef bits base refs atom).setWidth 32 + use := ⟨_, rfl⟩
  have hxlow : x.toInt = low := by
    rw [hx, toInt_add_field _ (by omega) (by omega), hlow]
  obtain ⟨y, hy⟩ : ∃ y, y = (highRef bits base refs atom).setWidth 32 + x.sshiftRight 16 :=
    ⟨_, rfl⟩
  have hyhigh : y.toInt = high := by
    have hlo := (lowRef bits base refs atom).isLt
    have hshift := toInt_shift x
    rw [hy, toInt_add_field _ (by omega) (by omega), hshift, hxlow, hhigh]
  have htest : x = 0 ∨ x &&& ((-1 : BitVec 32) <<< 16) ≠ 0 := by
    rw [outside_iff, toInt_eq_zero, hxlow]
    exact hcarry
  have hkill : decide (x ||| y = 0) = decide (low = 0 ∧ high = 0) := by
    refine decide_eq_decide.mpr ?_
    rw [← hxlow, ← hyhigh, ← toInt_eq_zero, ← toInt_eq_zero]
    exact BitVec.or_eq_zero_iff
  refine ⟨x.setWidth 16, y.setWidth 16, ?_, ?_, ?_⟩
  · rw [toNat_low, hxlow]
  · rw [toNat_low, hyhigh]
  · have hfield : refs.store (refBlock bits base atom) (refOffset bits atom) (x.setWidth 16)
        (refBlock bits base atom + 1) (refOffset bits atom) = highRef bits base refs atom :=
      highRef_store_low _ atom
    have hlowfield : refs (refBlock bits base atom) (refOffset bits atom) =
      lowRef bits base refs atom := rfl
    unfold useCount
    dsimp only
    rw [hlowfield, ← hx, if_pos htest, hfield, ← hy, hkill]

theorem useCount_low {low : ℤ} (hdown : -2 ^ 15 ≤ use.toInt) (hup : use.toInt ≤ 2 ^ 15)
    (hlow : low = (lowRef bits base refs atom).toNat + use.toInt)
    (hcarry : ¬ (low = 0 ∨ low < 0 ∨ 2 ^ 16 ≤ low)) :
    ∃ lo : BitVec 16, lo.toNat = (low % 2 ^ 16).toNat ∧ useCount bits base refs atom use =
      (refs.store (refBlock bits base atom) (refOffset bits atom) lo, false) := by
  obtain ⟨x, hx⟩ : ∃ x, x = (lowRef bits base refs atom).setWidth 32 + use := ⟨_, rfl⟩
  have hxlow : x.toInt = low := by
    rw [hx, toInt_add_field _ (by omega) (by omega), hlow]
  have htest : ¬ (x = 0 ∨ x &&& ((-1 : BitVec 32) <<< 16) ≠ 0) := by
    rw [outside_iff, toInt_eq_zero, hxlow]
    exact hcarry
  refine ⟨x.setWidth 16, ?_, ?_⟩
  · rw [toNat_low, hxlow]
  · have hlowfield : refs (refBlock bits base atom) (refOffset bits atom) =
      lowRef bits base refs atom := rfl
    unfold useCount
    dsimp only
    rw [hlowfield, ← hx, if_neg htest]

/-- The fields and the atom table go on as the numbers do. -/
theorem useAtomFields_eq (hbits : 2 ≤ bits) (hdown : -2 ^ 15 ≤ use.toInt)
    (hup : use.toInt ≤ 2 ^ 15) :
    useAtom bits (s.withCounts bits base refs) atom.toNat use.toInt =
      (useAtomFields bits base refs s atom use).2.withCounts bits base
        (useAtomFields bits base refs s atom use).1 := by
  obtain ⟨low, hlow⟩ : ∃ low, low = ((lowRef bits base refs atom).toNat : ℤ) + use.toInt :=
    ⟨_, rfl⟩
  have hlo : (s.withCounts bits base refs).lorefs atom.toNat =
      (lowRef bits base refs atom).toNat := halves_toNat _ atom
  have hhi : (s.withCounts bits base refs).hirefs atom.toNat =
      (highRef bits base refs atom).toNat := halves_toNat _ atom
  unfold useAtom useAtomFields
  dsimp only
  rw [hlo, hhi, ← hlow]
  by_cases hcarry : low = 0 ∨ low < 0 ∨ 2 ^ 16 ≤ low
  · obtain ⟨lo, hi, hlo', hhi', heq⟩ := useCount_carry hdown hup hlow rfl hcarry
    rw [if_pos hcarry, heq, ← hlo', ← hhi']
    have hcounts : ({ s.withCounts bits base refs with
        lorefs := Function.update (s.withCounts bits base refs).lorefs atom.toNat lo.toNat
        hirefs := Function.update (s.withCounts bits base refs).hirefs atom.toNat hi.toNat } :
          Atable) = s.withCounts bits base
            ((refs.store (refBlock bits base atom) (refOffset bits atom) lo).store
              (refBlock bits base atom + 1) (refOffset bits atom) hi) := by
      rw [withCounts_store_high hbits, withCounts_store_low hbits]
    rw [hcounts, killAtom_withCounts]
    simp only [decide_eq_true_eq]
    split <;> rfl
  · obtain ⟨lo, hlo', heq⟩ := useCount_low hdown hup hlow hcarry
    rw [if_neg hcarry, heq, ← hlo', withCounts_store_low hbits]
    rfl

/-- The dictionary ends below the counts, and the reverse map starts above them. -/
theorem layout_apart (hlo : 9 ≤ bits) (hhi : bits ≤ 16) {i : ℕ} (hi : i * 2 ^ bits < 2 ^ 32)
    (a b : BitVec 32) :
    i < (refBlock bits (atomrefBlocks bits) a).toNat ∧
      (refBlock bits (atomrefBlocks bits) a).toNat <
        (refBlock bits (atomrefBlocks bits) a + 1).toNat ∧
      (refBlock bits (atomrefBlocks bits) a + 1).toNat <
        (unatomBlock bits (unatomBlocks bits) b).toNat := by
  obtain ⟨n, hn⟩ : ∃ n, n = 2 ^ (33 - bits) := ⟨_, rfl⟩
  have hsmall : n ≤ 2 ^ 24 := by
    rw [hn]
    exact Nat.pow_le_pow_right (by decide) (by omega)
  have hpos : 0 < n := by
    rw [hn]
    exact Nat.two_pow_pos _
  have hone : (1 : BitVec 32).toNat = 1 := rfl
  have hbase : (atomrefBlocks bits).toNat = 128 * n := by
    have hpow : 2 ^ (40 - bits) = 128 * n := by
      rw [show 40 - bits = 7 + (33 - bits) by omega, Nat.pow_add, hn]
    unfold atomrefBlocks
    rw [BitVec.toNat_shiftLeft, Nat.shiftLeft_eq, hpow, hone]
    omega
  have hgap : ((1 : BitVec 32) <<< (34 - bits)).toNat = 2 * n := by
    have hpow : 2 ^ (34 - bits) = 2 * n := by
      rw [show 34 - bits = 1 + (33 - bits) by omega, Nat.pow_add, hn]
    rw [BitVec.toNat_shiftLeft, Nat.shiftLeft_eq, hpow, hone]
    omega
  have hunatom : (unatomBlocks bits).toNat = 130 * n := by
    unfold unatomBlocks
    rw [BitVec.toNat_add, hbase, hgap]
    omega
  have hdict : i < n := by
    have hpow : 2 ^ 32 = 2 ^ (32 - bits) * 2 ^ bits := by
      rw [← Nat.pow_add, Nat.sub_add_cancel (by omega)]
    rw [hpow] at hi
    have hlt := Nat.lt_of_mul_lt_mul_right hi
    rw [hn]
    exact Nat.lt_of_lt_of_le hlt (Nat.pow_le_pow_right (by decide) (by omega))
  have ha : (a >>> (bits - 1)).toNat < n := by
    have hlt := BitVec.toNat_ushiftRight_lt a (bits - 1) (by omega)
    rwa [show 32 - (bits - 1) = 33 - bits by omega, ← hn] at hlt
  have hb : (b >>> (bits - 3)).toNat < 4 * n := by
    have hlt := BitVec.toNat_ushiftRight_lt b (bits - 3) (by omega)
    rwa [show 32 - (bits - 3) = 33 - bits + 2 by omega, Nat.pow_add, ← hn, Nat.mul_comm] at hlt
  have hlow : (refBlock bits (atomrefBlocks bits) a).toNat =
      128 * n + 2 * (a >>> (bits - 1)).toNat := by
    unfold refBlock
    rw [BitVec.toNat_add, BitVec.toNat_mul, hbase]
    have htwo : (2 : BitVec 32).toNat = 2 := rfl
    rw [htwo]
    omega
  have htop : (unatomBlock bits (unatomBlocks bits) b).toNat =
      130 * n + (b >>> (bits - 3)).toNat := by
    unfold unatomBlock
    rw [BitVec.toNat_add, hunatom]
    omega
  have hhigh : (refBlock bits (atomrefBlocks bits) a + 1).toNat =
      128 * n + 2 * (a >>> (bits - 1)).toNat + 1 := by
    rw [BitVec.toNat_add, hlow, hone]
    omega
  omega

/-! ## One counter -/

/-- The atom goes with its last reference. -/
theorem useCount_kill (hdown : -2 ^ 15 ≤ use.toInt) (hup : use.toInt ≤ 2 ^ 15) :
    (useCount bits base refs atom use).2 = true ↔
      storedCount bits base refs atom + use.toInt = 0 := by
  obtain ⟨low, hlow⟩ : ∃ low, low = ((lowRef bits base refs atom).toNat : ℤ) + use.toInt :=
    ⟨_, rfl⟩
  have hcount : (storedCount bits base refs atom : ℤ) + use.toInt =
      (highRef bits base refs atom).toNat * 2 ^ 16 + low := by
    unfold storedCount
    omega
  rw [hcount]
  by_cases hcarry : low = 0 ∨ low < 0 ∨ 2 ^ 16 ≤ low
  · obtain ⟨lo, hi, -, -, heq⟩ := useCount_carry hdown hup hlow rfl hcarry
    rw [heq, decide_eq_true_eq]
    omega
  · obtain ⟨lo, -, heq⟩ := useCount_low hdown hup hlow hcarry
    rw [heq]
    constructor
    · intro h
      cases h
    · intro h
      omega

theorem withCounts_refs (s : Atable) (refs : Fields) (a : BitVec 32) :
    (s.withCounts bits base refs).refs a.toNat = storedCount bits base refs a := by
  unfold Atable.refs Atable.withCounts storedCount
  dsimp only
  rw [halves_toNat, halves_toNat]

theorem kill_counts (P : Prop) [Decidable P] (s : Atable) (a : ℕ) :
    (if P then killAtom bits s a else s).lorefs = s.lorefs ∧
      (if P then killAtom bits s a else s).hirefs = s.hirefs := by
  obtain ⟨hlo, hhi, -⟩ := (killAtom_released bits s a).kept
  split
  · exact ⟨hlo, hhi⟩
  · exact ⟨rfl, rfl⟩

/-- `use_atom` writes the two blocks of the counts of its atom. -/
theorem useAtomFields_outside (s : Atable) {i : BitVec 32} (hlow : i ≠ refBlock bits base atom)
    (hhigh : i ≠ refBlock bits base atom + 1) :
    (useAtomFields bits base refs s atom use).1 i = refs i := by
  unfold useAtomFields useCount Fields.store
  dsimp only
  split
  · dsimp only
    rw [Function.update_of_ne hhigh, Function.update_of_ne hlow]
  · dsimp only
    rw [Function.update_of_ne hlow]

theorem useAtomFields_apart (s : Atable) (hlo : 9 ≤ bits) (hhi : bits ≤ 16) {i : BitVec 32}
    (hi : i.toNat * 2 ^ bits < 2 ^ 32 ∨ ∃ b, i = unatomBlock bits (unatomBlocks bits) b) :
    (useAtomFields bits (atomrefBlocks bits) refs s atom use).1 i = refs i := by
  have hne : i.toNat ≠ (refBlock bits (atomrefBlocks bits) atom).toNat ∧
      i.toNat ≠ (refBlock bits (atomrefBlocks bits) atom + 1).toNat := by
    rcases hi with hdict | ⟨b, rfl⟩
    · have h := layout_apart hlo hhi hdict atom atom
      omega
    · have h := layout_apart hlo hhi (Nat.zero_mul (2 ^ bits) ▸ Nat.two_pow_pos 32) atom b
      omega
  exact useAtomFields_outside s (fun h => hne.1 (congrArg BitVec.toNat h)) fun h =>
    hne.2 (congrArg BitVec.toNat h)

/-- The halves after `use_atom`. -/
theorem useAtomFields_halves (s : Atable) (hbits : 2 ≤ bits) (hdown : -2 ^ 15 ≤ use.toInt)
    (hup : use.toInt ≤ 2 ^ 15) (hzero : 0 ≤ storedCount bits base refs atom + use.toInt)
    (hmax : storedCount bits base refs atom + use.toInt < 2 ^ 32) :
    (∀ b, b ≠ atom →
        (lowRef bits base (useAtomFields bits base refs s atom use).1 b).toNat =
          (lowRef bits base refs b).toNat ∧
        (highRef bits base (useAtomFields bits base refs s atom use).1 b).toNat =
          (highRef bits base refs b).toNat) ∧
      (storedCount bits base (useAtomFields bits base refs s atom use).1 atom : ℤ) =
        storedCount bits base refs atom + use.toInt := by
  have hrefs := @withCounts_refs bits base s refs atom
  have hlo : (s.withCounts bits base refs).lorefs atom.toNat < 2 ^ 16 := by
    rw [withCounts_lorefs, halves_toNat]
    exact (lowRef bits base refs atom).isLt
  have hhi : (s.withCounts bits base refs).hirefs atom.toNat < 2 ^ 16 := by
    rw [withCounts_hirefs, halves_toNat]
    exact (highRef bits base refs atom).isLt
  obtain ⟨lo, hi, heq, hother, -, -, hsum⟩ := @useAtom_spec bits (s.withCounts bits base refs)
    atom.toNat use.toInt hlo hhi hdown hup (by rw [hrefs]; exact hzero)
    (by rw [hrefs]; exact hmax)
  rw [useAtomFields_eq hbits hdown hup] at heq
  rw [hrefs] at hsum
  -- the fields of the result are the halves of the numbers
  have hlow := congrArg Atable.lorefs heq
  have hhigh := congrArg Atable.hirefs heq
  rw [(kill_counts _ _ _).1, withCounts_lorefs] at hlow
  rw [(kill_counts _ _ _).2, withCounts_hirefs] at hhigh
  dsimp only at hlow hhigh
  constructor
  · intro b hb
    obtain ⟨hb₁, hb₂⟩ := hother b.toNat fun h => hb (BitVec.eq_of_toNat_eq h)
    rw [withCounts_lorefs, halves_toNat, ← hlow, halves_toNat] at hb₁
    rw [withCounts_hirefs, halves_toNat, ← hhigh, halves_toNat] at hb₂
    exact ⟨hb₁, hb₂⟩
  · rw [← hlow, ← hhigh, halves_toNat, halves_toNat] at hsum
    rw [← hsum]
    unfold storedCount
    omega

/-- `use_atom` adds to the count of one atom, and releases the atom when nothing is left. On a
volume it stays out of the dictionary and the reverse map. -/
theorem useAtom_exact (s : Atable) (hbits : 2 ≤ bits) (hdown : -2 ^ 15 ≤ use.toInt)
    (hup : use.toInt ≤ 2 ^ 15) (hzero : 0 ≤ storedCount bits base refs atom + use.toInt)
    (hmax : storedCount bits base refs atom + use.toInt < 2 ^ 32) :
    (storedCount bits base (useAtomFields bits base refs s atom use).1 atom : ℤ) =
        storedCount bits base refs atom + use.toInt ∧
      (∀ b, b ≠ atom →
        lowRef bits base (useAtomFields bits base refs s atom use).1 b = lowRef bits base refs b ∧
        highRef bits base (useAtomFields bits base refs s atom use).1 b =
          highRef bits base refs b) ∧
      (if (storedCount bits base refs atom : ℤ) + use.toInt = 0 then
        Released bits s (useAtomFields bits base refs s atom use).2 atom.toNat
      else (useAtomFields bits base refs s atom use).2 = s) ∧
      ∀ i : BitVec 32, 9 ≤ bits → bits ≤ 16 → base = atomrefBlocks bits →
        (i.toNat * 2 ^ bits < 2 ^ 32 ∨ ∃ b, i = unatomBlock bits (unatomBlocks bits) b) →
        (useAtomFields bits base refs s atom use).1 i = refs i := by
  obtain ⟨hother, hcount⟩ := useAtomFields_halves s hbits hdown hup hzero hmax
  refine ⟨hcount, fun b hb => ?_, ?_, fun i hlo hhi hbase hi => ?_⟩
  · exact ⟨BitVec.eq_of_toNat_eq (hother b hb).1, BitVec.eq_of_toNat_eq (hother b hb).2⟩
  · have hkill := @useCount_kill bits base refs atom use hdown hup
    unfold useAtomFields
    dsimp only
    by_cases hlast : (storedCount bits base refs atom : ℤ) + use.toInt = 0
    · rw [if_pos hlast, if_pos (hkill.mpr hlast)]
      exact killAtom_released bits s atom.toNat
    · rw [if_neg hlast, if_neg fun h => hlast (hkill.mp h)]
  · rw [hbase]
    exact useAtomFields_apart s hlo hhi hi

/-- Half a carry in the low field of atom 6. -/
def halfCarry : Fields := fun block offset => if block = 0x400 ∧ offset = 6 then 0x8000 else 0

/-- An atom table without names. -/
def emptyTable : Atable :=
  ⟨⟨fun _ _ => ⟨0, 0, 0, 0, []⟩, 0⟩, fun _ => 0, fun _ => 0, fun _ => 0, 0, 1, fun _ => []⟩

/-- The same again makes a carry, and the opposite releases the atom. -/
theorem useAtom_exact_carry :
    storedCount 8 0x400 (useAtomFields 8 0x400 halfCarry emptyTable 6 0x8000).1 6 = 0x10000 ∧
      Released 8 emptyTable (useAtomFields 8 0x400 halfCarry emptyTable 6 (-0x8000)).2 6 := by
  have hstored : storedCount 8 0x400 halfCarry 6 = 0x8000 := by decide
  have hup : (0x8000 : BitVec 32).toInt = 0x8000 := by decide
  have hdown : (-0x8000 : BitVec 32).toInt = -0x8000 := by decide
  constructor
  · have h := (@useAtom_exact 8 0x400 halfCarry 6 0x8000 emptyTable (by decide) (by decide)
      (by decide) (by rw [hstored, hup]; decide) (by rw [hstored, hup]; decide)).1
    rw [hstored, hup] at h
    omega
  · have h := (@useAtom_exact 8 0x400 halfCarry 6 (-0x8000) emptyTable (by decide) (by decide)
      (by decide) (by rw [hstored, hdown]; decide) (by rw [hstored, hdown]; decide)).2.2.1
    rw [hstored, hdown] at h
    exact h

end

end Tux3.Xattr
