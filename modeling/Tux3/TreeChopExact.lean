import Tux3.TreeChopRun

/-!
# Truncation

What `tree_chop` leaves of a file btree, and what it frees, at any key.
-/
namespace Tux3.TreeChop

open Btree Dleaf

section
variable {blocksize entriesPerNode key low leafbuf : ℕ} {t : Dtree} {s : Chop}
  {b a : List (ℕ × ℕ)} {gone : List ℕ}

section
variable (hc : Chopped blocksize entriesPerNode key t s b a low leafbuf gone)
include hc

theorem Chopped.mid_mem : (low, leafbuf) ∈ t.leafList := by
  rw [hc.before]
  exact List.mem_append_right _ List.mem_cons_self

theorem Chopped.left_mem {x : ℕ × ℕ} (hx : x ∈ b) : x ∈ t.leafList := by
  rw [hc.before]
  exact List.mem_append_left _ hx

theorem Chopped.right_mem {x : ℕ × ℕ} (hx : x ∈ a) : x ∈ t.leafList := by
  rw [hc.before]
  exact List.mem_append_right _ (List.mem_cons_of_mem _ hx)

variable (h : t.WellFormed blocksize entriesPerNode)
include h

theorem Chopped.left_same {x : ℕ × ℕ} (hx : x ∈ b) : s.leaf x.2 = t.leaf x.2 := by
  refine hc.same x.2 ?_ ?_
  · have hnodup := h.leaf_nodup
    rw [hc.before, List.map_append, List.map_cons] at hnodup
    exact (List.nodup_append.mp hnodup).2.2 x.2 (List.mem_map_of_mem hx) leafbuf List.mem_cons_self
  · have hmem : x.2 ∈ s.tree.blocks :=
      Dtree.leaf_mem (by rw [hc.after]; exact List.mem_append_left _ hx)
    have hnodup := hc.blocks.nodup_iff.mp h.index.nodup
    exact fun hin => (List.nodup_append.mp hnodup).2.2 x.2 hmem x.2 hin rfl

theorem Chopped.left_below {x : ℕ × ℕ} (hx : x ∈ b) :
    (t.leaf x.2).pairs.filterMap (keptBelow key) = (t.leaf x.2).pairs ∧
      (t.leaf x.2).pairs.filterMap (freedFrom key) = [] := by
  have hmem := hc.left_mem hx
  refine filterMap_below (fun p hp => ((h.ordered x hmem).counts p hp).1) fun p hp => ?_
  have hbelow := h.below
  rw [hc.before] at hbelow
  have hle := (List.pairwise_append.mp hbelow).2.2 x hx _ List.mem_cons_self p hp
  exact Nat.le_trans hle hc.le

theorem Chopped.right_above {x : ℕ × ℕ} (hx : x ∈ a) :
    (t.leaf x.2).pairs.filterMap (keptBelow key) = [] := by
  have hmem := hc.right_mem hx
  refine (filterMap_above (fun p hp => ((h.ordered x hmem).counts p hp).1) fun p hp => ?_).1
  exact Nat.le_trans (Nat.le_of_lt (hc.lt x hx)) (h.above x hmem p hp)

variable (hkey : key < 2 ^ 56) (hclear : ∀ x ∈ t.leafList, (t.leaf x.2).ClearAt key)
include hkey hclear

theorem Chopped.kept {x : ℕ × ℕ} (hx : x ∈ s.tree.leafList) :
    x ∈ t.leafList ∧ (s.leaf x.2).Sound blocksize ∧
      (s.leaf x.2).pairs = (t.leaf x.2).pairs.filterMap (keptBelow key) := by
  rw [hc.after, List.mem_append, List.mem_singleton] at hx
  rcases hx with hx | rfl
  · have hmem := hc.left_mem hx
    rw [hc.left_same h hx]
    exact ⟨hmem, h.sound x hmem, (hc.left_below h hx).1.symm⟩
  · have hmem := hc.mid_mem
    obtain ⟨leaf, hchop, hsound, hpairs⟩ := dleafChop_sound hkey (h.sound _ hmem) (h.ordered _ hmem)
      (hclear _ hmem)
    have hleaf := hc.chopped.symm.trans hchop
    rw [Option.some_inj, Prod.mk.injEq] at hleaf
    dsimp only at hleaf ⊢
    rw [hleaf.1]
    exact ⟨hmem, hsound, hpairs⟩

/-- Exactly the indexes below the key are mapped, as before. -/
theorem Chopped.maps (index block : ℕ) :
    s.tree.Maps index block ↔ index < key ∧ t.Maps index block := by
  constructor
  · rintro ⟨x, hx, q, hq, hcovers⟩
    obtain ⟨hmem, -, hpairs⟩ := hc.kept h hkey hclear hx
    rw [show s.tree.leaf x.2 = s.leaf x.2 from rfl, hpairs] at hq
    obtain ⟨p, hp, hkept⟩ := List.mem_filterMap.mp hq
    obtain ⟨hlt, hcovers⟩ := keptBelow_covers.mp ⟨q, hkept, hcovers⟩
    exact ⟨hlt, x, hmem, p, hp, hcovers⟩
  · rintro ⟨hlt, x, hx, p, hp, hcovers⟩
    obtain ⟨q, hkept, hcovers⟩ := keptBelow_covers.mpr ⟨hlt, hcovers⟩
    have hq : q ∈ (t.leaf x.2).pairs.filterMap (keptBelow key) :=
      List.mem_filterMap.mpr ⟨p, hp, hkept⟩
    have hleft : x ∈ s.tree.leafList := by
      rw [hc.before, List.mem_append, List.mem_cons] at hx
      rw [hc.after, List.mem_append, List.mem_singleton]
      rcases hx with hx | rfl | hx
      · exact .inl hx
      · exact .inr rfl
      · rw [hc.right_above h hx] at hq
        cases hq
    refine ⟨x, hleft, q, ?_, hcovers⟩
    rw [show s.tree.leaf x.2 = s.leaf x.2 from rfl, (hc.kept h hkey hclear hleft).2.2]
    exact hq

/-- The blocks of the tree before: those of the tree that is left, and those that are freed. -/
theorem Chopped.conserved :
    s.freedBlocks.Perm (t.leafList.flatMap
        (fun x => ((t.leaf x.2).pairs.filterMap (freedFrom key)).flatMap callBlocks) ++ gone) ∧
      (t.blocks ++ t.dataBlocks).Perm ((s.tree.blocks ++ s.tree.dataBlocks) ++ s.freedBlocks) := by
  have hgone : (gone.map fun b => (b, 1)).flatMap callBlocks = gone := by
    rw [List.flatMap_map]
    exact List.flatMap_singleton' gone
  have hdata : dataFreed t.leaf key (leafbuf :: a.map Prod.snd) =
      t.leafList.flatMap fun x => (t.leaf x.2).pairs.filterMap (freedFrom key) := by
    have hnil : (b.flatMap fun x => (t.leaf x.2).pairs.filterMap (freedFrom key)) = [] :=
      List.flatMap_eq_nil_iff.mpr fun x hx => (hc.left_below h hx).2
    rw [hc.before, List.flatMap_append, hnil, List.nil_append, dataFreed, List.flatMap_cons,
      List.flatMap_cons, List.flatMap_map]
  have hfreed : s.freedBlocks.Perm (t.leafList.flatMap
      (fun x => ((t.leaf x.2).pairs.filterMap (freedFrom key)).flatMap callBlocks) ++ gone) := by
    have hperm := hc.freed.flatMap_right callBlocks
    rw [List.flatMap_append, hgone, hdata, List.flatMap_assoc] at hperm
    exact hperm
  have hkept : (t.leafList.flatMap fun x =>
      ((t.leaf x.2).pairs.filterMap (keptBelow key)).flatMap extentBlocks) = s.tree.dataBlocks := by
    have hnil : (a.flatMap fun x =>
        ((t.leaf x.2).pairs.filterMap (keptBelow key)).flatMap extentBlocks) = [] :=
      List.flatMap_eq_nil_iff.mpr fun x hx => by rw [hc.right_above h hx]; rfl
    have hsame : s.tree.dataBlocks = s.tree.leafList.flatMap fun x =>
        ((t.leaf x.2).pairs.filterMap (keptBelow key)).flatMap extentBlocks :=
      List.flatMap_congr fun x hx => by
        rw [show s.tree.leaf x.2 = s.leaf x.2 from rfl, (hc.kept h hkey hclear hx).2.2]
    rw [hsame, hc.before, hc.after, List.flatMap_append, List.flatMap_append, List.flatMap_cons,
      List.flatMap_cons, hnil, List.flatMap_nil]
  have hsplit : t.dataBlocks.Perm (s.tree.dataBlocks ++ t.leafList.flatMap
      (fun x => ((t.leaf x.2).pairs.filterMap (freedFrom key)).flatMap callBlocks)) := by
    rw [← hkept]
    exact (List.Perm.flatMap_left _ fun x _ => pairs_split key _).trans
      (List.flatMap_append_perm _ _ _).symm
  refine ⟨hfreed, (hc.blocks.append hsplit).trans ?_⟩
  refine (append_append_perm _ _ _ _).trans (List.Perm.append_left _ ?_)
  exact List.perm_append_comm.trans hfreed.symm

/-- The tree that is left is well-formed. -/
theorem Chopped.wellFormed : s.tree.WellFormed blocksize entriesPerNode := by
  have hsublist : s.tree.leafList.Sublist t.leafList := by
    rw [hc.before, hc.after]
    exact List.Sublist.append_left (List.singleton_sublist.mpr List.mem_cons_self) b
  have hnodup := (hc.conserved h hkey hclear).2.nodup_iff.mp h.nodup
  refine ⟨⟨hc.sized, ?_, h.index.sorted.sublist (hsublist.map _)⟩, hc.depth,
    h.rising.sublist (hsublist.map _), fun x hx => (hc.kept h hkey hclear hx).2.1, fun x hx => ?_,
    fun x hx q hq => ?_, ?_, (List.nodup_append.mp hnodup).1⟩
  · exact (List.nodup_append.mp (List.nodup_append.mp hnodup).1).1
  · obtain ⟨hmem, -, hpairs⟩ := hc.kept h hkey hclear hx
    exact (h.ordered x hmem).kept hpairs
  · obtain ⟨hmem, -, hpairs⟩ := hc.kept h hkey hclear hx
    rw [show s.tree.leaf x.2 = s.leaf x.2 from rfl, hpairs] at hq
    obtain ⟨p, hp, hq⟩ := List.mem_filterMap.mp hq
    rw [(keptBelow_le hq).1]
    exact h.above x hmem p hp
  · refine (h.below.sublist hsublist).imp_of_mem fun {x y} hx _ hbelow q hq => ?_
    rw [show s.tree.leaf x.2 = s.leaf x.2 from rfl, (hc.kept h hkey hclear hx).2.2] at hq
    obtain ⟨p, hp, hq⟩ := List.mem_filterMap.mp hq
    obtain ⟨hindex, hcount, -⟩ := keptBelow_le hq
    have hle := hbelow p hp
    omega

/-- What is freed, and that it is freed once. -/
theorem Chopped.freed_iff :
    s.freedBlocks.Nodup ∧ ∀ block, block ∈ s.freedBlocks ↔
      (∃ index, key ≤ index ∧ t.Maps index block) ∨
        (block ∈ t.blocks ∧ block ∉ s.tree.blocks) := by
  obtain ⟨hfreed, hall⟩ := hc.conserved h hkey hclear
  have hnodup := List.nodup_append.mp (hall.nodup_iff.mp h.nodup)
  have hblocks := List.nodup_append.mp (hc.blocks.nodup_iff.mp h.index.nodup)
  refine ⟨hnodup.2.1, fun block => ?_⟩
  rw [hfreed.mem_iff, List.mem_append]
  apply or_congr
  · constructor
    · intro hin
      obtain ⟨x, hx, hin⟩ := List.mem_flatMap.mp hin
      obtain ⟨c, hcall, hin⟩ := List.mem_flatMap.mp hin
      obtain ⟨p, hp, hcall⟩ := List.mem_filterMap.mp hcall
      obtain ⟨index, hkey, hcovers⟩ := freedFrom_covers.mp ⟨c, hcall, hin⟩
      exact ⟨index, hkey, x, hx, p, hp, hcovers⟩
    · rintro ⟨index, hkey, x, hx, p, hp, hcovers⟩
      obtain ⟨c, hcall, hin⟩ := freedFrom_covers.mpr ⟨index, hkey, hcovers⟩
      exact List.mem_flatMap.mpr ⟨x, hx,
        List.mem_flatMap.mpr ⟨c, List.mem_filterMap.mpr ⟨p, hp, hcall⟩, hin⟩⟩
  · rw [hc.blocks.mem_iff, List.mem_append]
    constructor
    · intro hin
      exact ⟨.inr hin, fun hleft => hblocks.2.2 block hleft block hin rfl⟩
    · rintro ⟨hleft | hin, hnot⟩
      · exact absurd hleft hnot
      · exact hin

end

/-- At key 0 one root entry is left, with an empty leaf. -/
theorem Chopped.zero (hc : Chopped blocksize entriesPerNode 0 t s b a low leafbuf gone)
    (h : t.WellFormed blocksize entriesPerNode)
    (hclear : ∀ x ∈ t.leafList, (t.leaf x.2).ClearAt 0) :
    s.depth = 1 ∧ ∃ entry, s.node s.root = [entry] ∧
      s.leaf entry.block = dleafInit blocksize ∧
      freeEmptyBtree s.tree = some [(entry.block, 1), (s.root, 1)] := by
  have hb : b = [] := by
    have hrising := h.rising
    rw [hc.before, List.map_append, List.map_cons] at hrising
    refine List.eq_nil_iff_forall_not_mem.mpr fun x hx => ?_
    have hlt := (List.pairwise_append.mp hrising).2.2 x.1 (List.mem_map_of_mem hx) low
      List.mem_cons_self
    have hle := hc.le
    omega
  have hlist : leaves s.node s.depth 0 s.root = [(low, leafbuf)] := by
    have hafter := hc.after
    rw [hb] at hafter
    exact hafter
  have hsized := hc.sized
  obtain ⟨depth, hdepth⟩ := Nat.exists_eq_succ_of_ne_zero (Nat.ne_of_gt hc.depth)
  rw [hdepth] at hsized hlist
  have hone : (s.node s.root).length = 1 := by
    have hle := length_le_leaves hsized 0
    have hpos := List.length_pos_of_ne_nil hsized.1
    rw [hlist, List.length_singleton] at hle
    omega
  have hdepth1 : s.depth = 1 := hc.stop.resolve_right fun hne => hne hone
  obtain rfl : depth = 0 := by omega
  obtain ⟨entry, hentry⟩ := List.length_eq_one_iff.mp hone
  rw [leaves, hentry, keyed, List.flatMap_singleton, leaves, List.singleton_inj,
    Prod.mk.injEq] at hlist
  have hleaf : s.leaf entry.block = dleafInit blocksize := by
    have hmem : (low, leafbuf) ∈ s.tree.leafList := by
      rw [hc.after]
      exact List.mem_append_right _ List.mem_cons_self
    obtain ⟨-, hsound, hpairs⟩ := hc.kept h (by decide) hclear hmem
    rw [hlist.2]
    refine hsound.eq_init (hpairs.trans (List.filterMap_eq_nil_iff.mpr fun p _ => ?_))
    exact if_neg (Nat.not_lt_zero _)
  refine ⟨hdepth1, entry, hentry, hleaf, ?_⟩
  have hroot : s.tree.hasRoot = true := by
    rw [Dtree.hasRoot, Bool.or_eq_true]
    exact .inr (bne_iff_ne.mpr (Nat.ne_of_gt hc.depth))
  rw [freeEmptyBtree, hroot, if_neg (by decide), if_pos (show s.tree.depth = 1 from hdepth1),
    show s.tree.node s.tree.root = [entry] from hentry]
  rfl

end

/-- Below key `2 ^ 56`, `tree_chop` returns, the tree that is left is well-formed and maps the indexes below the key as
before, and exactly the blocks of the others and those of the tree that are no longer in it are
freed, each once. -/
theorem treeChop_exact {blocksize entriesPerNode key : ℕ} {t : Dtree}
    (h : t.WellFormed blocksize entriesPerNode) (hrange : t.Unstraddled) (hkey : key < 2 ^ 56) :
    ∃ s rounds, (∀ r, rounds ≤ r → treeChop blocksize entriesPerNode key r t = some s) ∧
      s.tree.WellFormed blocksize entriesPerNode ∧
      (∀ index block, s.tree.Maps index block ↔ index < key ∧ t.Maps index block) ∧
      s.freedBlocks.Nodup ∧
      (∀ block, block ∈ s.freedBlocks ↔ (∃ index, key ≤ index ∧ t.Maps index block) ∨
        (block ∈ t.blocks ∧ block ∉ s.tree.blocks)) ∧
      (key = 0 → s.depth = 1 ∧ ∃ entry, s.node s.root = [entry] ∧
        s.leaf entry.block = dleafInit blocksize ∧
        freeEmptyBtree s.tree = some [(entry.block, 1), (s.root, 1)]) := by
  have hclear := fun x hx => Leaf.Unstraddled.clearAt (hrange x hx) (h.ordered x hx) key
  obtain ⟨s, rounds, b, a, low, leafbuf, gone, hrun, hc⟩ := run_spec h hkey hclear
  obtain ⟨hnodup, hfreed⟩ := hc.freed_iff h hkey hclear
  refine ⟨s, rounds, hrun, hc.wellFormed h hkey hclear, hc.maps h hkey hclear, hnodup, hfreed, ?_⟩
  rintro rfl
  exact hc.zero h hclear

/-! ## A tree -/

/-- A leaf with one extent. -/
def oneExtent (index : ℕ) (extent : Extent) : Leaf := pack 4096 [⟨0, [(index, extent)]⟩]

section
variable {index : ℕ} {extent : Extent}

theorem oneExtent_pairs : (oneExtent index extent).pairs = [(index, extent)] := by
  rw [oneExtent, pack_pairs, pairsOf_cons, Bunch.pairs, List.map_singleton, getIndex, Nat.zero_mul,
    Nat.zero_add]
  rfl

theorem oneExtent_sound (hindex : index < 2 ^ 24) (hblock : extent.block ≠ 0) :
    (oneExtent index extent).Sound 4096 := by
  refine Fits.sound ⟨fun g hg => ?_, List.pairwise_singleton _ _, show 24 ≤ 4096 by decide⟩
  cases List.mem_singleton.mp hg
  refine ⟨List.cons_ne_nil _ _, show 1 ≤ 255 by decide, List.pairwise_singleton _ _, fun x hx => ?_,
    show 0 < 2 ^ 24 by decide, fun x hx => ?_⟩
  · rw [List.mem_singleton.mp hx]
    exact hblock
  · rw [List.mem_singleton.mp hx]
    exact hindex

theorem oneExtent_ordered (hcount : 1 ≤ extent.count ∧ extent.count ≤ 64) :
    (oneExtent index extent).Ordered := by
  refine ⟨?_, ?_, fun p hp => ?_⟩
  · rw [oneExtent_pairs]
    exact List.pairwise_singleton _ _
  · rw [oneExtent_pairs]
    exact List.pairwise_singleton _ _
  · rw [oneExtent_pairs] at hp
    rw [List.mem_singleton.mp hp]
    exact hcount

end

/-- A tree with two index levels and three leaves. -/
def twoLevels : Dtree where
  node block := match block with
    | 1 => [⟨0, 2⟩, ⟨8, 3⟩]
    | 2 => [⟨0, 4⟩, ⟨4, 5⟩]
    | 3 => [⟨8, 6⟩]
    | _ => []
  root := 1
  depth := 2
  leaf block := match block with
    | 4 => oneExtent 0 ⟨100, 2⟩
    | 5 => oneExtent 5 ⟨110, 3⟩
    | _ => oneExtent 8 ⟨120, 1⟩

theorem twoLevels_leaf {x : ℕ × ℕ} (hx : x ∈ twoLevels.leafList) :
    x = (0, 4) ∨ x = (4, 5) ∨ x = (8, 6) := by
  rw [show twoLevels.leafList = [(0, 4), (4, 5), (8, 6)] from rfl] at hx
  simpa using hx

theorem twoLevels_wellFormed : twoLevels.WellFormed 4096 2 := by
  refine ⟨⟨?_, by decide, by decide⟩, by decide, by decide, ?_, ?_, by decide, by decide,
    by decide⟩
  · simp [Sized, twoLevels]
  · intro x hx
    rcases twoLevels_leaf hx with rfl | rfl | rfl
    · exact oneExtent_sound (by decide) (by decide)
    · exact oneExtent_sound (by decide) (by decide)
    · exact oneExtent_sound (by decide) (by decide)
  · intro x hx
    rcases twoLevels_leaf hx with rfl | rfl | rfl
    · exact oneExtent_ordered (by decide)
    · exact oneExtent_ordered (by decide)
    · exact oneExtent_ordered (by decide)

theorem twoLevels_unstraddled : twoLevels.Unstraddled := by
  unfold Dtree.Unstraddled Leaf.Unstraddled
  decide

/-- The second extent is cut, its node becomes the root, and the third leaf goes with its node. -/
example : (treeChop 4096 2 6 100 twoLevels).map (fun s => (s.tree.leafList, s.freedBlocks)) =
    some ([(0, 4), (4, 5)], [111, 112, 120, 6, 3, 1]) := by decide

theorem treeChop_twoLevels : ∃ s rounds,
    (∀ r, rounds ≤ r → treeChop 4096 2 6 r twoLevels = some s) ∧ s.tree.WellFormed 4096 2 ∧
      (∀ index block, s.tree.Maps index block ↔ index < 6 ∧ twoLevels.Maps index block) ∧
      s.freedBlocks.Nodup ∧
      (∀ block, block ∈ s.freedBlocks ↔ (∃ index, 6 ≤ index ∧ twoLevels.Maps index block) ∨
        (block ∈ twoLevels.blocks ∧ block ∉ s.tree.blocks)) := by
  obtain ⟨s, rounds, hrun, hwell, hmaps, hnodup, hfreed, -⟩ :=
    treeChop_exact twoLevels_wellFormed twoLevels_unstraddled (show 6 < 2 ^ 56 by decide)
  exact ⟨s, rounds, hrun, hwell, hmaps, hnodup, hfreed⟩

/-- Every index is below key `2 ^ 56`, but the probe takes it for 0. -/
theorem treeChop_truncated : twoLevels.WellFormed 4096 2 ∧ twoLevels.Unstraddled ∧
    (∀ index block, twoLevels.Maps index block → index < 2 ^ 56) ∧
    ∀ r, treeChop 4096 2 (2 ^ 56) r twoLevels = none := by
  refine ⟨twoLevels_wellFormed, twoLevels_unstraddled, ?_, fun r => ?_⟩
  · rintro index block ⟨x, hx, p, hp, i, hi, rfl, -⟩
    have hall : ∀ x ∈ twoLevels.leafList, ∀ p ∈ (twoLevels.leaf x.2).pairs,
        p.1 + p.2.count ≤ 9 := by decide
    have hend := hall x hx p hp
    omega
  · cases r with
    | zero => rfl
    | succ r => rfl

end Tux3.TreeChop
