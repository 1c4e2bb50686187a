import Mathlib.Data.Finset.Card
import Mathlib.Tactic.Common

/-!
# Reader-writer counts

A count that is the number of readers, or -1 when there is one writer and no reader.
-/
namespace RwLock

variable {T : Type*}

/-- The count says who holds the lock. -/
def Holds (count : ℤ) (reads writes : T → Prop) : Prop :=
  (∃ readers : Finset T, count = readers.card ∧ (∀ t, t ∈ readers ↔ reads t) ∧ ∀ t, ¬ writes t) ∨
    count = -1 ∧ (∀ t, ¬ reads t) ∧ ∃ w, ∀ t, writes t ↔ t = w

variable {count : ℤ} {reads writes reads' writes' : T → Prop} {t u : T}

theorem holds_free (hr : ∀ t, ¬ reads t) (hw : ∀ t, ¬ writes t) : Holds 0 reads writes :=
  Or.inl ⟨∅, rfl, by simpa using hr, hw⟩

theorem Holds.congr (h : Holds count reads writes) (hr : ∀ t, reads' t ↔ reads t)
    (hw : ∀ t, writes' t ↔ writes t) : Holds count reads' writes' := by
  obtain rfl : reads' = reads := funext fun t => propext (hr t)
  obtain rfl : writes' = writes := funext fun t => propext (hw t)
  exact h

theorem Holds.exclusive (h : Holds count reads writes) (ht : writes t) :
    count = -1 ∧ (∀ u, ¬ reads u) ∧ ∀ u, writes u ↔ u = t := by
  rcases h with ⟨-, -, -, hw⟩ | ⟨hcount, hr, w, hw⟩
  · exact absurd ht (hw t)
  · obtain rfl := (hw t).mp ht
    exact ⟨hcount, hr, hw⟩

theorem Holds.shared (h : Holds count reads writes) (ht : reads t) :
    1 ≤ count ∧ ∀ u, ¬ writes u := by
  rcases h with ⟨readers, rfl, hr, hw⟩ | ⟨-, hr, -⟩
  · have hpos : 0 < readers.card := Finset.card_pos.mpr ⟨t, (hr t).mpr ht⟩
    exact ⟨by omega, hw⟩
  · exact absurd ht (hr t)

theorem Holds.free (h : Holds count reads writes) (hr : ∀ t, ¬ reads t) (hw : ∀ t, ¬ writes t) :
    count = 0 := by
  rcases h with ⟨readers, rfl, hr', -⟩ | ⟨-, -, w, hw'⟩
  · have hempty : readers = ∅ := Finset.eq_empty_of_forall_notMem fun t ht => hr t ((hr' t).mp ht)
    simp [hempty]
  · exact absurd ((hw' w).mpr rfl) (hw w)

theorem Holds.downRead (h : Holds count reads writes) (hcount : 0 ≤ count) (hnew : ¬ reads t)
    (hr : ∀ u, reads' u ↔ u = t ∨ reads u) (hw : ∀ u, writes' u ↔ writes u) :
    Holds (count + 1) reads' writes' := by
  classical
  rcases h with ⟨readers, rfl, hreaders, hnone⟩ | ⟨rfl, -⟩
  · have hout : t ∉ readers := fun hmem => hnew ((hreaders t).mp hmem)
    refine Or.inl ⟨insert t readers, ?_, fun u => ?_, fun u hu => hnone u ((hw u).mp hu)⟩
    · rw [Finset.card_insert_of_notMem hout]
      rfl
    · rw [Finset.mem_insert, hreaders, hr]
  · omega

theorem Holds.upRead (h : Holds count reads writes) (ht : reads t)
    (hr : ∀ u, reads' u ↔ u ≠ t ∧ reads u) (hw : ∀ u, writes' u ↔ writes u) :
    Holds (count - 1) reads' writes' := by
  classical
  rcases h with ⟨readers, rfl, hreaders, hnone⟩ | ⟨-, hno, -⟩
  · have hin : t ∈ readers := (hreaders t).mpr ht
    refine Or.inl ⟨readers.erase t, ?_, fun u => ?_, fun u hu => hnone u ((hw u).mp hu)⟩
    · have hcard := Finset.card_erase_add_one hin
      omega
    · rw [Finset.mem_erase, hreaders, hr]
  · exact absurd ht (hno t)

theorem Holds.downWrite (h : Holds count reads writes) (hcount : count = 0)
    (hr : ∀ u, reads' u ↔ reads u) (hw : ∀ u, writes' u ↔ u = t ∨ writes u) :
    Holds (count - 1) reads' writes' := by
  subst hcount
  rcases h with ⟨readers, hcard, hreaders, hnone⟩ | ⟨hneg, -⟩
  · have hempty : readers = ∅ := Finset.card_eq_zero.mp (by omega)
    refine Or.inr ⟨rfl, fun u hu => ?_, t, fun u => ?_⟩
    · have hmem := (hreaders u).mpr ((hr u).mp hu)
      rw [hempty] at hmem
      simp at hmem
    · rw [hw, or_iff_left (hnone u)]
  · omega

theorem Holds.upWrite (h : Holds count reads writes) (ht : writes t)
    (hr : ∀ u, reads' u ↔ reads u) (hw : ∀ u, writes' u ↔ u ≠ t ∧ writes u) :
    Holds (count + 1) reads' writes' := by
  obtain ⟨rfl, hnone, hone⟩ := h.exclusive ht
  refine holds_free (fun u hu => hnone u ((hr u).mp hu)) fun u hu => ?_
  obtain ⟨hne, hu⟩ := (hw u).mp hu
  exact hne ((hone u).mp hu)

end RwLock
