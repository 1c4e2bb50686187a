import Tux3.TreeChopPath
import Tux3.BtreeFailure

/-!
# The trimmed tree

A tree whose path has lost the entries right of it has the leaves up to the path, and the blocks of
the others are apart from its own. Dropping root levels with one entry keeps the leaves.
-/
namespace Tux3.TreeChop

open Btree Dleaf

section
variable {node node' : Nodes} {n depth block leaf low : ℕ} {path : List PathLevel}

/-! ## Up to the path -/

theorem leaves_congr {es : List IndexEntry}
    (h : ∀ e ∈ es, ∀ y ∈ blocksOf node depth e.block, node' y = node y) :
    ((keyed low es).flatMap fun e => leaves node' depth e.key e.block) =
      (keyed low es).flatMap fun e => leaves node depth e.key e.block := by
  refine List.flatMap_congr fun e he => ?_
  obtain ⟨e', he', heq⟩ := keyed_mem he
  exact heq ▸ (subtree_congr (h e' he')).2.1 e.key

/-- The tree up to a path, and the blocks right of it. -/
theorem trimmed_tree (h : OnPath node depth block path leaf) (hsized : Sized node n depth block)
    (hnodup : (blocksOf node depth block).Nodup)
    (htaken : ∀ p ∈ path, node' p.block = (node p.block).take p.next)
    (hnode : ∀ y ∈ blocksOf node depth block, y ∉ path.map PathLevel.block →
      y ∉ blocksAfter node depth path → node' y = node y) :
    OnPath node' depth block path leaf ∧ Sized node' n depth block ∧
      (∀ low, leaves node' depth low block =
        before node depth path low ++ [(lowKey node path low, leaf)]) ∧
      (blocksOf node depth block).Perm
        (blocksOf node' depth block ++ blocksAfter node depth path) := by
  induction h with
  | leaf block =>
      exact ⟨OnPath.leaf block, trivial, fun _ => rfl, List.Perm.of_eq rfl⟩
  | @level depth block next e path leaf hnext hentry h ih =>
      have hmem := List.mem_of_getElem? hentry
      have hlt := (List.getElem?_eq_some_iff.mp hentry).1
      obtain ⟨hself, hsub, hrest, hright, hleft⟩ := entry_apart hnodup hnext hentry
      have hpathsub := h.blocks_sub
      have hgonesub := blocksAfter_subset h
      -- below the entry of the path
      obtain ⟨hpath', hsized', hleaves', hperm'⟩ := ih (hsized.2.2 e hmem) hsub
        (fun p hp => htaken p (List.mem_cons_of_mem _ hp)) (by
          intro y hy hpath hgone
          refine hnode y (mem_child hmem hy) ?_ ?_
          · rw [List.map_cons, List.mem_cons, not_or]
            refine ⟨?_, hpath⟩
            rintro rfl
            exact hself hy
          · rw [blocksAfter, List.mem_append, not_or]
            refine ⟨hgone, fun hin => ?_⟩
            obtain ⟨e', he', hy'⟩ := List.mem_flatMap.mp hin
            exact (hright e' he' y hy').2 hy)
      -- below the entries left of it
      have hframe : ∀ e' ∈ (node block).take (next - 1), ∀ y ∈ blocksOf node depth e'.block,
          node' y = node y := by
        intro e' he' y hy
        obtain ⟨hblock, hentryy, hrighty⟩ := hleft e' he' y hy
        refine hnode y (mem_child (List.mem_of_mem_take he') hy) ?_ ?_
        · rw [List.map_cons, List.mem_cons, not_or]
          exact ⟨hblock, fun hin => hentryy (hpathsub y hin)⟩
        · rw [blocksAfter, List.mem_append, not_or]
          exact ⟨fun hin => hentryy (hgonesub y hin), hrighty⟩
      have htake : node' block = (node block).take (next - 1) ++ [e] := by
        rw [htaken ⟨block, next⟩ List.mem_cons_self]
        dsimp only
        conv_lhs => rw [← Nat.sub_add_cancel hnext]
        rw [List.take_add_one, hentry]
        rfl
      have hlen : ((node block).take (next - 1)).length = next - 1 := by
        rw [List.length_take, Nat.min_eq_left (Nat.le_of_lt hlt)]
      have hentry' : (node' block)[next - 1]? = some e := by
        rw [htake, List.getElem?_append_right (Nat.le_of_eq hlen), hlen, Nat.sub_self]
        rfl
      refine ⟨OnPath.level hnext hentry' hpath', ⟨?_, ?_, ?_⟩, fun low => ?_, ?_⟩
      · rw [htake]
        exact List.append_ne_nil_of_right_ne_nil _ (List.cons_ne_nil _ _)
      · rw [htaken ⟨block, next⟩ List.mem_cons_self, List.length_take]
        exact Nat.le_trans (Nat.min_le_right _ _) hsized.2.1
      · intro e' he'
        rw [htake, List.mem_append, List.mem_singleton] at he'
        rcases he' with he' | rfl
        · exact ((subtree_congr (hframe e' he')).2.2 n).mpr
            (hsized.2.2 e' (List.mem_of_mem_take he'))
        · exact hsized'
      · have hdrop : (node' block).drop next = [] := by
          rw [htake]
          refine List.drop_eq_nil_of_le ?_
          rw [List.length_append, hlen]
          exact Nat.le_of_eq (Nat.sub_add_cancel hnext)
        have hsame : (node' block).take (next - 1) = (node block).take (next - 1) := by
          rw [htake, List.take_left' hlen]
        rw [leaves_entry hnext hentry', hdrop, keyed_take, hsame, leaves_congr hframe, hleaves',
          before, lowKey]
        dsimp only
        rw [hentry, keyed_take, List.flatMap_nil, List.append_nil]
        exact (List.append_assoc _ _ _).symm
      · have hleftblocks : (((node block).take (next - 1)).flatMap fun e =>
            blocksOf node' depth e.block) =
              ((node block).take (next - 1)).flatMap fun e => blocksOf node depth e.block :=
          List.flatMap_congr fun e he => (subtree_congr (hframe e he)).1
        rw [blocksOf, blocksOf, blocksAfter, htake, List.flatMap_append, hleftblocks,
          List.flatMap_singleton]
        conv_lhs => rw [split_at hnext hentry]
        rw [List.flatMap_append, List.flatMap_cons, List.cons_append, List.append_assoc]
        refine List.Perm.cons _ (List.Perm.append_left _ ?_)
        rw [← List.append_assoc]
        exact hperm'.append_right _

end

/-! ## Root levels -/

/-- The root is at a lower level, over the same leaves. -/
structure Dropped (s s' : Chop) (gone : List ℕ) : Prop where
  node : s'.node = s.node
  leaf : s'.leaf = s.leaf
  freed : s'.freed = s.freed ++ gone.map fun b => (b, 1)
  pos : 0 < s'.depth
  leaves : ∀ low, leaves s.node s'.depth low s'.root = leaves s.node s.depth low s.root
  blocks : blocksOf s.node s.depth s.root = gone ++ blocksOf s.node s'.depth s'.root
  sized : ∀ n, Sized s.node n s.depth s.root → Sized s.node n s'.depth s'.root
  stop : s'.depth = 1 ∨ (s.node s'.root).length ≠ 1

section
variable {node : Nodes} {depth block leaf : ℕ} {path : List PathLevel} {s s' : Chop}
  {gone : List ℕ}

theorem Dropped.refl (hpos : 0 < s.depth) (hstop : s.depth = 1 ∨ (s.node s.root).length ≠ 1) :
    Dropped s s [] where
  node := rfl
  leaf := rfl
  freed := (List.append_nil _).symm
  pos := hpos
  leaves _ := rfl
  blocks := rfl
  sized _ h := h
  stop := hstop

/-- A root with one entry goes. -/
theorem Dropped.cons {e : IndexEntry} {prev : List (Option ℕ)} (hdepth : s.depth = depth + 1)
    (hentries : s.node s.root = [e])
    (h : Dropped { s with
      root := e.block
      depth := depth
      prev := prev
      freed := s.freed ++ [(s.root, 1)] } s' gone) : Dropped s s' (s.root :: gone) where
  node := h.node
  leaf := h.leaf
  freed := h.freed.trans (List.append_assoc _ _ _)
  pos := h.pos
  leaves low := by
    rw [h.leaves, hdepth, Btree.leaves, hentries, keyed, List.flatMap_singleton]
  blocks := by
    have hblocks := h.blocks
    dsimp only at hblocks
    rw [hdepth, blocksOf, hentries, List.flatMap_singleton, hblocks]
    rfl
  sized n hsized := by
    rw [hdepth] at hsized
    exact h.sized n (hsized.2.2 e (hentries ▸ List.mem_singleton_self e))
  stop := h.stop

theorem dropLevels_spec (h : OnPath node depth block path leaf) (hnode : s.node = node)
    (hpos : 0 < depth) (hroot : s.root = block) (hdepth : s.depth = depth)
    (hprev : s.prev = path.map fun p => some p.block) :
    ∃ s' gone, dropLevels depth s = some s' ∧ Dropped s s' gone := by
  induction h generalizing s with
  | leaf block => exact absurd hpos (Nat.lt_irrefl 0)
  | @level depth block next e path leaf hnext hentry h ih =>
      cases h with
      | leaf block =>
          exact ⟨s, [], rfl, Dropped.refl (hdepth ▸ hpos) (.inl hdepth)⟩
      | @level depth _ next' e' path _ hnext' hentry' h =>
          rw [dropLevels]
          rw [hprev, List.map_cons, List.map_cons]
          dsimp only
          by_cases hone : (s.node block).length = 1
          · rw [if_pos hone]
            obtain ⟨a, ha⟩ := List.length_eq_one_iff.mp hone
            have hentries : s.node s.root = [e] := by
              rw [hroot, ha]
              rw [← hnode, ha] at hentry
              obtain ⟨hlt, rfl⟩ := List.getElem?_eq_some_iff.mp hentry
              rw [List.getElem_singleton]
            obtain ⟨s', gone, hdrop, hdropped⟩ := @ih
              { s with
                root := e.block
                depth := depth + 1
                prev := some e.block :: path.map fun p => some p.block
                freed := s.freed ++ [(block, 1)] } hnode (Nat.succ_pos depth) rfl rfl rfl
            rw [← hroot] at hdrop hdropped ⊢
            exact ⟨s', s.root :: gone, hdrop, Dropped.cons hdepth hentries hdropped⟩
          · rw [if_neg hone]
            exact ⟨s, [], rfl, Dropped.refl (hdepth ▸ hpos) (.inr (hroot ▸ hone))⟩

end

end Tux3.TreeChop
