import Mathlib.Algebra.Order.Ring.Int
import Mathlib.Data.List.Basic
import Mathlib.Tactic.Common

/-!
# Machine words and error numbers

Integers are `ℕ` and `ℤ`; where the width of an `unsigned` matters the model
reduces explicitly. Functions return the source's negative error numbers.
-/
namespace Tux3

/-- Reduction to the 32 bits of `unsigned`. -/
def u32 (n : ℕ) : ℕ := n % 2 ^ 32

theorem u32_of_lt {n : ℕ} (h : n < 2 ^ 32) : u32 n = n := Nat.mod_eq_of_lt h

theorem u32_lt (n : ℕ) : u32 n < 2 ^ 32 := Nat.mod_lt _ (Nat.two_pow_pos 32)

theorem u32_le (n : ℕ) : u32 n ≤ n := Nat.mod_le _ _

def eio : ℤ := 5
def enomem : ℤ := 12
def einval : ℤ := 22
def enospc : ℤ := 28

end Tux3
