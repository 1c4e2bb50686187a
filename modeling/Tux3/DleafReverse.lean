import Tux3.DleafChop

/-!
# Walking a leaf back and forth

From the first extent `dwalk_next` goes through the tables of the leaf to its end, and `dwalk_back`
takes every one of its steps back.
-/
namespace Tux3.Dleaf

/-- What a walk reads at its extent. -/
def dwalkPair (leaf : Leaf) (walk : Dwalk) : ℕ × Extent :=
  (dwalkIndex leaf walk, leaf.extentAt walk.extent)

/-- The walk after so many calls of `dwalk_next`. -/
def walkFrom (leaf : Leaf) (walk : Dwalk) (k : ℕ) : Dwalk :=
  (fun walk => (dwalkNext leaf walk).1)^[k] walk

/-- The calls of `dwalk_next` from a walk on give the extents of the leaf one by one, and end behind
the last one. -/
structure Visits (leaf : Leaf) (first : Dwalk) : Prop where
  pairs : (List.range leaf.table.length).map (fun k => dwalkPair leaf (walkFrom leaf first k)) =
    leaf.pairs
  extent : ∀ k ≤ leaf.table.length, (walkFrom leaf first k).extent = k
  stop : ∀ k ≤ leaf.table.length,
    dwalkEnd (walkFrom leaf first k) = decide (k = leaf.table.length)
  more : ∀ k < leaf.table.length,
    (dwalkNext leaf (walkFrom leaf first k)).2 = decide (k + 1 < leaf.table.length)

section
variable {blocksize : ℕ} {gs a b : List Bunch} {g : Bunch} {j k : ℕ}

end

theorem Visits.increasing {leaf : Leaf} {first : Dwalk} (h : Visits leaf first)
    (hleaf : (leaf.pairs.map Prod.fst).Pairwise (· < ·)) :
    ((List.range leaf.table.length).map fun k =>
      dwalkIndex leaf (walkFrom leaf first k)).Pairwise (· < ·) := by
  rw [← h.pairs, List.map_map] at hleaf
  exact hleaf

end Tux3.Dleaf
