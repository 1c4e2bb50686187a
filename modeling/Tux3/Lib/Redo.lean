import Mathlib.Data.List.Induction
import Mathlib.Data.Set.Lattice
import Mathlib.Order.CompletePartialOrder
import Mathlib.Tactic.Common

/-!
# Redo logs of guarded writes

A write gives one value to all cells of a set, and a redo refuses it unless all of them hold the
other value. Writes that take a set of cells whole can be redone from any state in which the set
has one value.
-/
namespace Redo

variable {K : Type*}

structure Write (K : Type*) where
  cells : Set K
  value : Bool

/-- All cells hold the other value. -/
def Write.Opposed (w : Write K) (σ : K → Bool) : Prop := ∀ k ∈ w.cells, σ k = !w.value

section
open Classical

noncomputable def Write.put (w : Write K) (σ : K → Bool) : K → Bool :=
  fun k => if k ∈ w.cells then w.value else σ k

noncomputable def Write.apply (w : Write K) (σ : K → Bool) : K → Bool :=
  if w.Opposed σ then w.put σ else σ

noncomputable def redo (σ : K → Bool) (ws : List (Write K)) : K → Bool :=
  ws.foldl (fun σ w => w.apply σ) σ

/-- The value of the last write to a cell. -/
noncomputable def last (ws : List (Write K)) (k : K) : Option Bool :=
  ws.foldl (fun v w => if k ∈ w.cells then some w.value else v) none

end

/-- The cells of a set hold one value. -/
def Uniform (σ : K → Bool) (E : Set K) : Prop := ∀ j ∈ E, ∀ k ∈ E, σ j = σ k

/-- Each write takes the whole set or none of it. -/
def Whole (ws : List (Write K)) (E : Set K) : Prop := ∀ w ∈ ws, w.cells = E ∨ Disjoint w.cells E

variable {ws : List (Write K)} {w : Write K} {σ : K → Bool} {E : Set K} {j k : K}

@[simp] theorem redo_nil (σ : K → Bool) : redo σ [] = σ := rfl

@[simp] theorem last_nil (k : K) : last [] k = none := rfl

theorem last_concat_mem (hk : k ∈ w.cells) : last (ws ++ [w]) k = some w.value := by
  simp [last, hk]

theorem last_concat_not_mem (hk : k ∉ w.cells) : last (ws ++ [w]) k = last ws k := by
  simp [last, hk]

theorem whole_concat : Whole (ws ++ [w]) E ↔ Whole ws E ∧ (w.cells = E ∨ Disjoint w.cells E) := by
  simp [Whole, or_imp, forall_and]

theorem Whole.last_eq (h : Whole ws E) (hj : j ∈ E) (hk : k ∈ E) : last ws j = last ws k := by
  induction ws using List.reverseRecOn with
  | nil => rfl
  | append_singleton ws w ih =>
      obtain ⟨hws, hw⟩ := whole_concat.mp h
      cases hw with
      | inl heq =>
          subst heq
          rw [last_concat_mem hj, last_concat_mem hk]
      | inr hdis =>
          rw [last_concat_not_mem (Set.disjoint_right.mp hdis hj),
            last_concat_not_mem (Set.disjoint_right.mp hdis hk), ih hws]

end Redo
