import Tux3.MapSegs
import Tux3.DtreeEdits

/-!
# The blocks of a region

The holes of a region get blocks from the allocator, one extent each. The segments then say where
every block of the region is.
-/
namespace Tux3.MapRegion

open Btree Dleaf TreeChop

section
variable {index : ℕ} {map map' segs : List Seg} {state : SegState} {blocks : List ℕ}
  {allocated : List (ℕ × ℕ)} {x : ℕ × Seg}

/-! ## Places -/

theorem placed_bounds (h : x ∈ placed index map) :
    index ≤ x.1 ∧ x.1 + x.2.count ≤ index + total map := by
  induction map generalizing index with
  | nil => cases h
  | cons s map ih =>
      rw [placed_cons] at h
      rw [total_cons]
      rcases List.mem_cons.mp h with rfl | h
      · exact ⟨Nat.le_refl _, by dsimp only; omega⟩
      · obtain ⟨hge, hle⟩ := ih h
        exact ⟨by omega, by omega⟩

theorem placed_seg (h : x ∈ placed index map) : x.2 ∈ map := by
  induction map generalizing index with
  | nil => cases h
  | cons s map ih =>
      rw [placed_cons] at h
      rcases List.mem_cons.mp h with rfl | h
      · exact List.mem_cons_self
      · exact List.mem_cons_of_mem s (ih h)

theorem placed_apart :
    (placed index map).Pairwise fun x y => x.1 + x.2.count ≤ y.1 := by
  induction map generalizing index with
  | nil => exact .nil
  | cons s map ih =>
      rw [placed_cons]
      exact List.pairwise_cons.mpr ⟨fun y hy => (placed_bounds hy).1, ih⟩

theorem length_le_total (h : ∀ s ∈ map, 0 < s.count) : map.length ≤ total map := by
  induction map with
  | nil => exact Nat.le_refl 0
  | cons s map ih =>
      have hs := h s List.mem_cons_self
      have hle := ih fun s' hs' => h s' (List.mem_cons_of_mem s hs')
      rw [total_cons, List.length_cons]
      omega

theorem segPieces_eq :
    segPieces index map = (placed index map).map fun x => ⟨x.1, x.1, x.2.extent⟩ := by
  induction map generalizing index with
  | nil => rfl
  | cons s map ih =>
      rw [segPieces, placed_cons, List.map_cons, ih]
      rfl

theorem mem_segPairs {p : ℕ × Extent} : p ∈ segPairs index map ↔
    ∃ x ∈ placed index map, x.2.state ≠ .hole ∧ (x.1, x.2.extent) = p := by
  rw [segPairs, List.mem_map]
  refine exists_congr fun x => ?_
  rw [List.mem_filter, decide_eq_true_eq, and_assoc]

/-! ## Holes -/

/-- The segments when every hole has its blocks. -/
structure Filled (state : SegState) (index : ℕ) (map map' : List Seg) (allocated : List (ℕ × ℕ)) :
    Prop where
  counts : map'.map Seg.count = map.map Seg.count
  kept : ∀ x ∈ placed index map, x.2.state ≠ .hole → x ∈ placed index map'
  origin : ∀ x ∈ placed index map', (x.2.state ≠ .hole ∧ x ∈ placed index map) ∨
    (x.2.state = state ∧ (x.2.block, x.2.count) ∈ allocated ∧
      ∃ y ∈ placed index map, y.1 = x.1 ∧ y.2.count = x.2.count ∧ y.2.state = .hole)
  blocks : ((placed index map').flatMap fun x => extentBlocks (x.1, x.2.extent)).Perm
    ((segPairs index map).flatMap extentBlocks ++ allocated.flatMap callBlocks)

theorem fillHoles_none {s : Seg} (h : s.state = .hole) :
    fillHoles state [] (s :: map) = (none, []) := by
  unfold fillHoles
  rw [if_pos h]

theorem fillHoles_hole {s : Seg} {block : ℕ} (h : s.state = .hole) :
    fillHoles state (block :: blocks) (s :: map) =
      ((fillHoles state blocks map).1.map (⟨block, s.count, state⟩ :: ·),
        (block, s.count) :: (fillHoles state blocks map).2) := by
  conv_lhs => unfold fillHoles
  rw [if_pos h]

theorem fillHoles_extent {s : Seg} (h : s.state ≠ .hole) :
    fillHoles state blocks (s :: map) =
      ((fillHoles state blocks map).1.map (s :: ·), (fillHoles state blocks map).2) := by
  conv_lhs => unfold fillHoles
  rw [if_neg h]

theorem fillHoles_spec (h : fillHoles state blocks map = (some map', allocated)) :
    Filled state index map map' allocated := by
  induction map generalizing index blocks map' allocated with
  | nil =>
      cases h
      exact ⟨rfl, fun x hx => (nomatch hx), fun x hx => (nomatch hx), .refl _⟩
  | cons s map ih =>
      by_cases hhole : s.state = .hole
      · cases blocks with
        | nil =>
            rw [fillHoles_none hhole] at h
            cases h
        | cons block blocks =>
            rw [fillHoles_hole hhole, Prod.mk.injEq] at h
            obtain ⟨hmap, rfl⟩ := h
            obtain ⟨map₁, hmap₁, rfl⟩ := Option.map_eq_some_iff.mp hmap
            obtain ⟨hcounts, hkept, horigin, hblocks⟩ :=
              @ih (index + s.count) _ _ _ (Prod.ext hmap₁ rfl)
            refine ⟨?_, fun x hx hne => ?_, fun x hx => ?_, ?_⟩
            · rw [List.map_cons, List.map_cons, hcounts]
            · rw [placed_cons] at hx ⊢
              rcases List.mem_cons.mp hx with rfl | hx
              · exact absurd hhole hne
              · exact List.mem_cons_of_mem _ (hkept x hx hne)
            · rw [placed_cons] at hx ⊢
              rcases List.mem_cons.mp hx with rfl | hx
              · exact .inr ⟨rfl, List.mem_cons_self, (index, s), List.mem_cons_self, rfl, rfl,
                  hhole⟩
              · rcases horigin x hx with ⟨hne, hx⟩ | ⟨hstate, hin, y, hy, hsame⟩
                · exact .inl ⟨hne, List.mem_cons_of_mem _ hx⟩
                · exact .inr ⟨hstate, List.mem_cons_of_mem _ hin, y, List.mem_cons_of_mem _ hy,
                    hsame⟩
            · rw [placed_cons, List.flatMap_cons, List.flatMap_cons, segPairs_hole hhole]
              refine (hblocks.append_left _).trans ?_
              refine List.perm_iff_count.mpr fun x => ?_
              have hcall : extentBlocks (index, Seg.extent ⟨block, s.count, state⟩) =
                  callBlocks (block, s.count) := rfl
              simp only [List.count_append, hcall]
              exact Nat.add_left_comm _ _ _
      · rw [fillHoles_extent hhole, Prod.mk.injEq] at h
        obtain ⟨hmap, rfl⟩ := h
        obtain ⟨map₁, hmap₁, rfl⟩ := Option.map_eq_some_iff.mp hmap
        obtain ⟨hcounts, hkept, horigin, hblocks⟩ :=
          @ih (index + s.count) _ _ _ (Prod.ext hmap₁ rfl)
        refine ⟨?_, fun x hx hne => ?_, fun x hx => ?_, ?_⟩
        · rw [List.map_cons, List.map_cons, hcounts]
        · rw [placed_cons] at hx ⊢
          rcases List.mem_cons.mp hx with rfl | hx
          · exact List.mem_cons_self
          · exact List.mem_cons_of_mem _ (hkept x hx hne)
        · rw [placed_cons] at hx ⊢
          rcases List.mem_cons.mp hx with rfl | hx
          · exact .inl ⟨hhole, List.mem_cons_self⟩
          · rcases horigin x hx with ⟨hne, hx⟩ | ⟨hstate, hin, y, hy, hsame⟩
            · exact .inl ⟨hne, List.mem_cons_of_mem _ hx⟩
            · exact .inr ⟨hstate, hin, y, List.mem_cons_of_mem _ hy, hsame⟩
        · rw [placed_cons, List.flatMap_cons, segPairs_extent hhole, List.flatMap_cons,
            List.append_assoc]
          exact hblocks.append_left _

end

/-! ## Failed allocations -/

section
variable {state : SegState} {blocks : List ℕ} {map map' : List Seg} {allocated : List (ℕ × ℕ)}

theorem fillHoles_spent (h : fillHoles state blocks map = (none, allocated)) :
    allocated.map Prod.fst = blocks ∧ ∃ s ∈ map, s.state = .hole := by
  induction map generalizing blocks allocated with
  | nil => cases h
  | cons s map ih =>
      by_cases hhole : s.state = .hole
      · refine ⟨?_, s, List.mem_cons_self, hhole⟩
        cases blocks with
        | nil =>
            rw [fillHoles_none hhole] at h
            cases h
            rfl
        | cons block blocks =>
            rw [fillHoles_hole hhole, Prod.mk.injEq, Option.map_eq_none_iff] at h
            obtain ⟨hnone, rfl⟩ := h
            rw [List.map_cons, (ih (Prod.ext hnone rfl)).1]
      · rw [fillHoles_extent hhole, Prod.mk.injEq, Option.map_eq_none_iff] at h
        obtain ⟨hnone, rfl⟩ := h
        obtain ⟨hspent, s', hs', hhole'⟩ := ih (Prod.ext hnone rfl)
        exact ⟨hspent, s', List.mem_cons_of_mem s hs', hhole'⟩

theorem fillHoles_nothing (h : fillHoles state blocks map = (some map', [])) :
    map' = map ∧ ∀ s ∈ map, s.state ≠ .hole := by
  induction map generalizing map' with
  | nil =>
      cases h
      exact ⟨rfl, fun s hs => absurd hs List.not_mem_nil⟩
  | cons s map ih =>
      by_cases hhole : s.state = .hole
      · cases blocks with
        | nil =>
            rw [fillHoles_none hhole] at h
            cases h
        | cons block blocks =>
            rw [fillHoles_hole hhole, Prod.mk.injEq] at h
            exact absurd h.2 (List.cons_ne_nil _ _)
      · rw [fillHoles_extent hhole, Prod.mk.injEq, Option.map_eq_some_iff] at h
        obtain ⟨⟨map₁, hmap, rfl⟩, hnil⟩ := h
        obtain ⟨rfl, hall⟩ := ih (Prod.ext hmap hnil)
        exact ⟨rfl, List.forall_mem_cons.mpr ⟨hhole, hall⟩⟩

/-- Each call of the allocator is for a hole. -/
theorem fillHoles_counts {r : Option (List Seg) × List (ℕ × ℕ)}
    (h : fillHoles state blocks map = r) : ∀ e ∈ r.2, ∃ s ∈ map, e.2 = s.count := by
  induction map generalizing blocks r with
  | nil =>
      subst h
      exact fun e he => absurd he List.not_mem_nil
  | cons s map ih =>
      have hmore : ∀ {blocks : List ℕ}, ∀ e ∈ (fillHoles state blocks map).2,
          ∃ s' ∈ s :: map, e.2 = s'.count := by
        intro blocks e he
        obtain ⟨s', hs', heq⟩ := ih rfl e he
        exact ⟨s', List.mem_cons_of_mem s hs', heq⟩
      subst h
      by_cases hhole : s.state = .hole
      · cases blocks with
        | nil =>
            rw [fillHoles_none hhole]
            exact fun e he => absurd he List.not_mem_nil
        | cons block blocks =>
            rw [fillHoles_hole hhole]
            exact List.forall_mem_cons.mpr ⟨⟨s, List.mem_cons_self, rfl⟩, hmore⟩
      · rw [fillHoles_extent hhole]
        exact hmore

theorem fillHoles_dry (h : fillHoles state [] map = (some map', allocated)) : allocated = [] := by
  induction map generalizing map' allocated with
  | nil =>
      cases h
      rfl
  | cons s map ih =>
      by_cases hhole : s.state = .hole
      · rw [fillHoles_none hhole] at h
        cases h
      · rw [fillHoles_extent hhole, Prod.mk.injEq, Option.map_eq_some_iff] at h
        obtain ⟨⟨map₁, hmap, rfl⟩, rfl⟩ := h
        exact ih (Prod.ext hmap rfl)

end

end Tux3.MapRegion
