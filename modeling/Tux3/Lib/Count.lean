import Mathlib.Data.Nat.Count
import Mathlib.Tactic.Common

/-!
# Counting below a bound

How `Nat.count` changes when a predicate is switched on over an interval.
-/
namespace Count

variable {p q : ℕ → Prop} [DecidablePred p] [DecidablePred q]

/-- The number of elements of `[a, a + n)` below `bound`. -/
def overlap (a n bound : ℕ) : ℕ := min bound (a + n) - min bound a

theorem overlap_le (a n bound : ℕ) : overlap a n bound ≤ n := by
  unfold overlap
  omega

theorem overlap_eq_iff {a n bound : ℕ} (hn : 0 < n) : overlap a n bound = n ↔ a + n ≤ bound := by
  unfold overlap
  omega

/-- Two predicates that differ exactly on `[a, a + n)`, where only `p` holds. -/
structure Differ (p q : ℕ → Prop) (a n : ℕ) : Prop where
  outside : ∀ b, ¬ (a ≤ b ∧ b < a + n) → (p b ↔ q b)
  on : ∀ b, a ≤ b → b < a + n → p b
  off : ∀ b, a ≤ b → b < a + n → ¬ q b

theorem Differ.count_eq {a n : ℕ} (h : Differ p q a n) (bound : ℕ) :
    Nat.count p bound = Nat.count q bound + overlap a n bound := by
  induction bound with
  | zero => simp only [Nat.count_zero, overlap, Nat.zero_min, Nat.sub_self]
  | succ bound ih =>
      rw [Nat.count_succ, Nat.count_succ, ih]
      by_cases hin : a ≤ bound ∧ bound < a + n
      · rw [if_pos (h.on _ hin.1 hin.2), if_neg (h.off _ hin.1 hin.2)]
        unfold overlap
        omega
      · have hsame : overlap a n (bound + 1) = overlap a n bound := by
          unfold overlap
          omega
        simp only [h.outside _ hin, hsame]
        omega

end Count
