import Tux3.DirBytes

/-!
# Listing a directory that has changed

A saved position can lie inside a record that was merged with another since, or in the bytes of a
record that was reused. The revalidation of `tux_readdir` walks from the record at the saved offset
itself, not from the start of the block, so it never moves the position.
-/
namespace Tux3.Dir

section
variable (blockbits : ℕ) (dir : Directory)

/-- A position at a record or at the end. -/
def Boundary (pos : ℕ) : Prop :=
  (∃ i < dir.size / 2 ^ blockbits, ∃ o ∈ chainOf blockbits dir i, pos = i * 2 ^ blockbits + o) ∨
    pos = dir.size / 2 ^ blockbits * 2 ^ blockbits

end

section
variable {bits n fuel fuel' pos version block size left o i k : ℕ} {dir : Directory} {b : Block}
  {l : List ℕ} {chain : ℕ → List ℕ} {rest filled : List Filled} {file : File}
  {filldir : List Filled → Filled → Bool} {raw raw' : RawDirectory}

/-! ## Positions -/

/-- The boundaries inside of a block. -/
theorem Boundary.mem (hw : WellFormed bits dir) (h : Boundary bits dir (k * 2 ^ bits + o))
    (hk : k < dir.size / 2 ^ bits) (ho : o < 2 ^ bits) :
    o ∈ chainOf bits dir k ∧ o + tuxRecLen 1 ≤ 2 ^ bits := by
  have hmul := Nat.mul_le_mul_right (2 ^ bits) hk
  rw [Nat.succ_mul] at hmul
  rcases h with ⟨i, hi, x, hx, hpos⟩ | hpos
  · obtain ⟨-, hstop, hfits⟩ := (hw.tiled i hi).bounds hx
    have h16 := Nat.le_trans (tuxRecLen_pos _) hfits.2
    have hone : tuxRecLen 1 = 16 := by decide
    have hpos' : o + 2 ^ bits * k = x + 2 ^ bits * i := by
      rw [Nat.mul_comm, Nat.mul_comm _ i]
      omega
    have hdiv := congrArg (· / 2 ^ bits) hpos'
    have hmod := congrArg (· % 2 ^ bits) hpos'
    simp only [Nat.add_mul_div_left _ _ (Nat.two_pow_pos bits), Nat.add_mul_mod_self_left,
      Nat.div_eq_of_lt ho, Nat.div_eq_of_lt (show x < 2 ^ bits by omega),
      Nat.mod_eq_of_lt ho, Nat.mod_eq_of_lt (show x < 2 ^ bits by omega)] at hdiv hmod
    obtain rfl : k = i := by omega
    subst hmod
    exact ⟨hx, by omega⟩
  · omega

theorem Boundary.le (hw : WellFormed bits dir) (h : Boundary bits dir pos) :
    pos ≤ dir.size / 2 ^ bits * 2 ^ bits := by
  rcases h with ⟨i, hi, x, hx, rfl⟩ | rfl
  · have hmul := Nat.mul_le_mul_right (2 ^ bits) hi
    have hstop := ((hw.tiled i hi).bounds hx).2.1
    rw [Nat.succ_mul] at hmul
    omega
  · exact Nat.le_refl _

/-! ## What reads as deleted -/

end

end Tux3.Dir
