import Tux3.TreeChopTrim
import Mathlib.Data.List.Perm.Basic
import Mathlib.Data.List.Flatten

/-!
# The blocks of a file btree

A file btree, what it maps and the blocks it has. Every extent is split at the key of a chop, and
the calls of `bfree` for a subtree are those for its extents and one for each of its blocks.
-/
namespace Tux3.TreeChop

open Btree Dleaf

/-! ## File btrees -/

/-- The separators and leaves in order. -/
def Dtree.leafList (t : Dtree) : List (ℕ × ℕ) := leaves t.node t.depth 0 t.root

/-- The index and leaf blocks. -/
def Dtree.blocks (t : Dtree) : List ℕ := blocksOf t.node t.depth t.root

def extentBlocks (p : ℕ × Extent) : List ℕ := List.range' p.2.block p.2.count

def Dtree.dataBlocks (t : Dtree) : List ℕ :=
  t.leafList.flatMap fun x => (t.leaf x.2).pairs.flatMap extentBlocks

/-- A logical index and its physical block. -/
def Dtree.Maps (t : Dtree) (index block : ℕ) : Prop :=
  ∃ x ∈ t.leafList, ∃ p ∈ (t.leaf x.2).pairs, ∃ i < p.2.count,
    index = p.1 + i ∧ block = p.2.block + i

/-- A file btree: a well-formed index with rising separators, leaves with extents in order within
their separators, and no block in two places. -/
structure Dtree.WellFormed (t : Dtree) (blocksize entriesPerNode : ℕ) : Prop where
  index : t.toTree.WellFormed entriesPerNode
  depth : 0 < t.depth
  rising : (t.leafList.map Prod.fst).Pairwise (· < ·)
  sound : ∀ x ∈ t.leafList, (t.leaf x.2).Sound blocksize
  ordered : ∀ x ∈ t.leafList, (t.leaf x.2).Ordered
  above : ∀ x ∈ t.leafList, ∀ p ∈ (t.leaf x.2).pairs, x.1 ≤ p.1
  below : t.leafList.Pairwise fun x y => ∀ p ∈ (t.leaf x.2).pairs, p.1 + p.2.count ≤ y.1
  nodup : (t.blocks ++ t.dataBlocks).Nodup

/-- No extent lies in two ranges of `2 ^ 24` indexes. -/
def Dtree.Unstraddled (t : Dtree) : Prop := ∀ x ∈ t.leafList, (t.leaf x.2).Unstraddled

/-- The blocks of a call of `bfree`. -/
def callBlocks (c : ℕ × ℕ) : List ℕ := List.range' c.1 c.2

def Chop.freedBlocks (s : Chop) : List ℕ := s.freed.flatMap callBlocks

theorem Dtree.WellFormed.leaf_nodup {t : Dtree} {blocksize entriesPerNode : ℕ}
    (h : t.WellFormed blocksize entriesPerNode) : (t.leafList.map Prod.snd).Nodup :=
  h.index.nodup.sublist (leaves_sublist 0)

theorem Dtree.leaf_mem {t : Dtree} {x : ℕ × ℕ} (hx : x ∈ t.leafList) : x.2 ∈ t.blocks :=
  (leaves_sublist 0).subset (List.mem_map_of_mem hx)

/-! ## Accounting -/

/-- The calls of `bfree` for the extents of leaves. -/
def dataFreed (leaf : ℕ → Leaf) (key : ℕ) (bs : List ℕ) : List (ℕ × ℕ) :=
  bs.flatMap fun b => (leaf b).pairs.filterMap (freedFrom key)

section
variable {node : Nodes} {leaf : ℕ → Leaf} {key depth block leafbuf : ℕ} {path : List PathLevel}

theorem entries_perm {es : List IndexEntry} {f : IndexEntry → List (ℕ × ℕ)}
    {g h : IndexEntry → List ℕ}
    (hf : ∀ e ∈ es, (f e).Perm (dataFreed leaf key (g e) ++ (h e).map fun b => (b, 1))) :
    (es.flatMap f).Perm
      (dataFreed leaf key (es.flatMap g) ++ (es.flatMap h).map fun b => (b, 1)) := by
  refine (List.Perm.flatMap_left es hf).trans ?_
  rw [dataFreed, List.flatMap_assoc, List.map_flatMap]
  exact (List.flatMap_append_perm es _ _).symm

theorem freedBelow_perm : (freedBelow node leaf key depth block).Perm
    (dataFreed leaf key (leafBlocks node depth block) ++
      (blocksOf node depth block).map fun b => (b, 1)) := by
  induction depth generalizing block with
  | zero =>
      rw [freedBelow, leafBlocks, blocksOf, dataFreed, List.flatMap_singleton]
      rfl
  | succ depth ih =>
      have hentries := @entries_perm leaf key (node block) _ _ _ fun e _ => @ih e.block
      rw [freedBelow, leafBlocks, blocksOf, List.map_cons]
      refine (hentries.append_right _).trans ?_
      rw [List.append_assoc]
      exact List.Perm.append_left _ List.perm_append_comm

theorem append_append_perm {α : Type} (a b c d : List α) :
    ((a ++ b) ++ (c ++ d)).Perm ((a ++ c) ++ (b ++ d)) := by
  rw [List.append_assoc, List.append_assoc]
  exact List.Perm.append_left a (List.perm_append_comm_assoc b c d)

theorem freedAfter_perm (h : OnPath node depth block path leafbuf) :
    (freedAfter node leaf key depth path).Perm
      (dataFreed leaf key ((after node depth path).map Prod.snd) ++
        (blocksAfter node depth path).map fun b => (b, 1)) := by
  induction h with
  | leaf block => exact List.Perm.nil
  | @level depth block next e path leafbuf hnext hentry h ih =>
      have hentries := @entries_perm leaf key ((node block).drop next) _ _ _
        fun e _ => @freedBelow_perm node leaf key depth e.block
      rw [freedAfter, after, blocksAfter, List.map_append, List.map_append, dataFreed,
        List.flatMap_append, List.map_flatMap]
      simp only [leaves_leafBlocks]
      exact (ih.append hentries).trans (append_append_perm _ _ _ _)

theorem extentBlocks_split (key : ℕ) (p : ℕ × Extent) : extentBlocks p =
    (keptBelow key p).toList.flatMap extentBlocks ++
      (freedFrom key p).toList.flatMap callBlocks := by
  rw [keptBelow, freedFrom]
  by_cases hkept : p.1 < key
  · by_cases hall : p.1 + p.2.count ≤ key
    · rw [if_pos hkept, if_pos hall, Nat.min_eq_left (by omega), Option.toList_some,
        List.flatMap_singleton]
      exact (List.append_nil _).symm
    · have hcount : p.2.count = key - p.1 + (p.2.count - (key - p.1)) := by omega
      rw [if_pos hkept, if_neg hall, Nat.min_eq_right (by omega), extentBlocks]
      conv_lhs => rw [hcount, ← List.range'_append_1]
      simp only [Option.toList_some, List.flatMap_singleton, extentBlocks, callBlocks]
  · rw [if_neg hkept, extentBlocks]
    by_cases hnone : p.1 + p.2.count ≤ key
    · rw [if_pos hnone, show p.2.count = 0 by omega]
      rfl
    · rw [if_neg hnone, show key - p.1 = 0 by omega]
      exact (List.append_nil _).symm

theorem pairs_split (key : ℕ) (pairs : List (ℕ × Extent)) :
    (pairs.flatMap extentBlocks).Perm
      ((pairs.filterMap (keptBelow key)).flatMap extentBlocks ++
        (pairs.filterMap (freedFrom key)).flatMap callBlocks) := by
  rw [List.filterMap_eq_flatMap_toList, List.filterMap_eq_flatMap_toList, List.flatMap_assoc,
    List.flatMap_assoc]
  refine List.Perm.trans (List.Perm.of_eq ?_) (List.flatMap_append_perm _ _ _).symm
  exact List.flatMap_congr fun p _ => extentBlocks_split key p

theorem keptBelow_covers {p : ℕ × Extent} {index : ℕ} :
    (∃ q ∈ keptBelow key p, ∃ i < q.2.count, index = q.1 + i ∧ block = q.2.block + i) ↔
      index < key ∧ ∃ i < p.2.count, index = p.1 + i ∧ block = p.2.block + i := by
  rw [keptBelow]
  constructor
  · rintro ⟨q, hq, i, hi, rfl, rfl⟩
    split at hq
    · next hkept =>
        obtain rfl := Option.some.inj hq
        have hlt := Nat.lt_min.mp hi
        exact ⟨by dsimp only; omega, i, hlt.1, rfl, rfl⟩
    · cases hq
  · rintro ⟨hkey, i, hi, rfl, rfl⟩
    rw [if_pos (by omega)]
    exact ⟨_, rfl, i, Nat.lt_min.mpr ⟨hi, by omega⟩, rfl, rfl⟩

theorem freedFrom_covers {p : ℕ × Extent} :
    (∃ c ∈ freedFrom key p, block ∈ callBlocks c) ↔
      ∃ index, key ≤ index ∧ ∃ i < p.2.count, index = p.1 + i ∧ block = p.2.block + i := by
  rw [freedFrom]
  constructor
  · rintro ⟨c, hc, hblock⟩
    split at hc
    · cases hc
    · next hover =>
        obtain rfl := Option.some.inj hc
        obtain ⟨i, hi, rfl⟩ := List.mem_range'.mp hblock
        exact ⟨p.1 + (key - p.1 + i), by omega, key - p.1 + i, by omega, rfl, by dsimp only; omega⟩
  · rintro ⟨index, hkey, i, hi, rfl, rfl⟩
    rw [if_neg (by omega)]
    refine ⟨_, rfl, List.mem_range'_1.mpr ?_⟩
    dsimp only
    omega

end

end Tux3.TreeChop
