import Tux3.Iattr

/-!
# Times in 32.32 fixed point

A time has 32 bits below the second. A nanosecond is more than four of its units, so the cut of
`tuxtime` and the rounding of `spectime` lose nothing.
-/
namespace Tux3.Iattr

/-- A time after the epoch, with 32 bits of seconds. -/
structure Timespec.Valid (t : Timespec) : Prop where
  sec : t.sec < 2 ^ 32
  nsec : t.nsec < 10 ^ 9

def Timespec.Before (t t' : Timespec) : Prop :=
  t.sec < t'.sec ∨ t.sec = t'.sec ∧ t.nsec < t'.nsec

/-- `mult` of `tuxtime`. -/
def nsecMult : ℕ := 2 ^ 63 / 1000000000

/-- The part below the second that `tuxtime` computes, in integers without a width. -/
def nsecFraction (nsec : ℕ) : ℕ := (nsec * nsecMult + 3 * 2 ^ 29) / 2 ^ 31

/-- The steps of `tuxtime` stay below 64 bits. -/
structure NoOverflow (t : Timespec) : Prop where
  seconds : t.sec * 2 ^ 32 < 2 ^ 64
  product : t.nsec * nsecMult < 2 ^ 64
  rounded : t.nsec * nsecMult + 3 * 2 ^ 29 < 2 ^ 64
  sum : t.sec * 2 ^ 32 + nsecFraction t.nsec < 2 ^ 64

section
variable {t t' : Timespec} {nsec nsec' : ℕ}

theorem nsecMult_eq : nsecMult = 9223372036 := rfl

theorem nsecFraction_lt (h : nsec < 10 ^ 9) : nsecFraction nsec < 2 ^ 32 := by
  rw [nsecFraction, nsecMult_eq]
  omega

theorem nsecFraction_increases (h : nsec < nsec') : nsecFraction nsec < nsecFraction nsec' := by
  rw [nsecFraction, nsecFraction, nsecMult_eq]
  omega

theorem nsecFraction_nearest (h : nsec < 10 ^ 9) :
    (nsecFraction nsec * 1000000000 + 2 ^ 31) / 2 ^ 32 = nsec := by
  obtain ⟨fraction, hfraction⟩ : ∃ fraction, fraction = nsecFraction nsec := ⟨_, rfl⟩
  rw [← hfraction]
  rw [nsecFraction, nsecMult_eq] at hfraction
  have hmult : 9223372036 * 1000000000 + 854775808 = 2 ^ 63 := rfl
  have hlow : nsec * 9223372036 < 2 ^ 31 * fraction + 2 ^ 29 := by omega
  have hhigh : 2 ^ 31 * fraction ≤ nsec * 9223372036 + 3 * 2 ^ 29 := by omega
  clear hfraction
  omega

theorem NoOverflow.of_valid (h : t.Valid) : NoOverflow t := by
  obtain ⟨hsec, hnsec⟩ := h
  have hfraction := nsecFraction_lt hnsec
  refine ⟨by omega, ?_, ?_, by omega⟩
  · rw [nsecMult_eq]
    omega
  · rw [nsecMult_eq]
    omega

theorem tuxtime_eq (h : t.Valid) : tuxtime t = t.sec * 2 ^ 32 + nsecFraction t.nsec := by
  have hover := NoOverflow.of_valid h
  simp only [tuxtime, Nat.shiftRight_eq_div_pow, Nat.shiftLeft_eq]
  change (t.sec * 2 ^ 32 + (t.nsec * nsecMult + 3 * 2 ^ 29) % 2 ^ 64 / 2 ^ 31) % 2 ^ 64 = _
  rw [Nat.mod_eq_of_lt hover.rounded]
  exact Nat.mod_eq_of_lt hover.sum

theorem high32_sum {sec fraction : ℕ} (h : fraction < 2 ^ 32) :
    high32 (sec * 2 ^ 32 + fraction) = sec := by
  rw [high32, Nat.shiftRight_eq_div_pow]
  omega

theorem billionths_sum {sec fraction : ℕ} (h : fraction < 2 ^ 32) :
    billionths (sec * 2 ^ 32 + fraction) = (fraction * 1000000000 + 2 ^ 31) / 2 ^ 32 := by
  have hmask : (sec * 2 ^ 32 + fraction) &&& 0xffffffff = fraction := by
    rw [show (0xffffffff : ℕ) = 2 ^ 32 - 1 from rfl, Nat.and_two_pow_sub_one_eq_mod]
    omega
  have hhalf : (0x80000000 : ℕ) = 2 ^ 31 := rfl
  rw [billionths, hmask, Nat.shiftRight_eq_div_pow, hhalf]

/-- A time in fixed point is the time, and times keep their order. -/
theorem tuxtime_exact (h : t.Valid) :
    NoOverflow t ∧ spectime (tuxtime t) = t ∧
      ∀ t' : Timespec, t'.Valid → t.Before t' → tuxtime t < tuxtime t' := by
  have hfraction := nsecFraction_lt h.nsec
  refine ⟨.of_valid h, ?_, fun t' h' hbefore => ?_⟩
  · rw [spectime, tuxtime_eq h, high32_sum hfraction, billionths_sum hfraction,
      nsecFraction_nearest h.nsec]
  · rw [tuxtime_eq h, tuxtime_eq h']
    rcases hbefore with hsec | ⟨hsec, hnsec⟩
    · omega
    · have hless := nsecFraction_increases hnsec
      omega

/-- The last nanosecond of a second, and the next second. -/
theorem tuxtime_exact_last : spectime (tuxtime ⟨7, 999999999⟩) = ⟨7, 999999999⟩ ∧
    tuxtime ⟨7, 999999999⟩ < tuxtime ⟨8, 0⟩ := by
  obtain ⟨-, hback, hless⟩ := @tuxtime_exact ⟨7, 999999999⟩ ⟨by decide, by decide⟩
  exact ⟨hback, hless ⟨8, 0⟩ ⟨by decide, by decide⟩ (.inl (by decide))⟩

end

end Tux3.Iattr
