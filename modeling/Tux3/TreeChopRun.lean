import Tux3.TreeChopBlocks

/-!
# The run of a chop

The probed leaf is chopped, the levels of its path are popped, and root levels are dropped. No
assertion fails on the way, and the loops end.
-/
namespace Tux3.TreeChop

open Btree Dleaf Relation

section
variable {blocksize entriesPerNode key depth block leaf leafbuf : ℕ} {s : Chop}
  {path : List PathLevel} {c : Chop × Control}

/-! ## Runs -/

theorem chopRun_of_steps (h : ReflTransGen (Step blocksize entriesPerNode key) c (s, .finished)) :
    ∃ n, ∀ m, n ≤ m → chopRun blocksize entriesPerNode key m c = some (s, .finished) := by
  induction h using ReflTransGen.head_induction_on with
  | refl =>
      refine ⟨0, fun m _ => ?_⟩
      cases m with
      | zero => rfl
      | succ m => rfl
  | @head c c' hstep _ ih =>
      obtain ⟨n, hn⟩ := ih
      refine ⟨n + 1, fun m hm => ?_⟩
      obtain ⟨m, rfl⟩ := Nat.exists_eq_succ_of_ne_zero (show m ≠ 0 by omega)
      have hrest := hn m (by omega)
      rw [Step] at hstep
      rw [chopRun, hstep]
      obtain ⟨s', control⟩ := c
      cases control with
      | atLeaf path leafbuf => exact hrest
      | popping path => exact hrest
      | finished => cases hstep

/-- From the probed leaf up to the end. -/
theorem path_finished (h : OnPath s.node depth block path leaf) (hpos : 0 < depth)
    (hsized : Sized s.node entriesPerNode depth block)
    (hnodup : (blocksOf s.node depth block).Nodup)
    (hempties : ∀ y ∈ after s.node depth path, Empties blocksize key (s.leaf y.2))
    (hdepth : s.depth = depth) (hroot : s.root = block)
    (hprev : s.prev = List.replicate depth none) (hleafprev : s.leafprev = some leafbuf) :
    ∃ s₁ s' gone, ReflTransGen (Step blocksize entriesPerNode key) (s, .popping path.reverse)
        (s', .finished) ∧
      Trimmed s s₁ [] path (blocksAfter s.node depth path)
        (freedAfter s.node s.leaf key depth path) ∧ Dropped s₁ s' gone := by
  cases h with
  | leaf block => exact absurd hpos (Nat.lt_irrefl 0)
  | @level depth _ next e path _ hnext hentry h =>
      obtain ⟨hself, hsub, -⟩ := entry_apart hnodup hnext hentry
      obtain ⟨s₀, hsteps₀, htrim₀⟩ := @path_popped blocksize entriesPerNode _ _ _ _ _ _
        _ [⟨block, next⟩] [none] h
        (hsized.2.2 e (List.mem_of_getElem? hentry)) hsub
        (fun p hp => by rw [List.mem_singleton.mp hp]; exact hself)
        (fun y hy => hempties y (List.mem_append_left _ hy))
        (by rw [hdepth, Nat.add_comm]; rfl) rfl (by rw [hprev]; rfl) hleafprev
        (List.cons_ne_nil _ _)
      obtain ⟨s₁, s₂, hsteps₁, hpop, htrim⟩ := @level_popped blocksize entriesPerNode _ _ _ _ _
        _ _ _ _ [] [] _ hsized hnodup
        (fun p hp => by cases hp) hnext hentry h hempties (by rw [hdepth, List.length_nil]; omega)
        rfl hleafprev htrim₀
      obtain ⟨hpath', -, -, -⟩ := trimmed_tree (OnPath.level hnext hentry h) hsized hnodup
        htrim.taken fun y _ hpath hgone => htrim.node y hpath hgone
      obtain ⟨s', gone, hdrop, hdropped⟩ := dropLevels_spec hpath' rfl (Nat.succ_pos depth)
        (htrim.root.trans hroot) (htrim.depth.trans hdepth) htrim.prev
      refine ⟨s₂, s', gone, ?_, htrim, hdropped⟩
      rw [List.reverse_cons]
      refine (hsteps₀.trans hsteps₁).tail (hpop.trans ?_)
      rw [popped, htrim.depth, hdepth, hdrop]
      rfl

theorem empties_of_above {leaf : Leaf} (hkey : key < 2 ^ 56) (hsound : leaf.Sound blocksize)
    (hordered : leaf.Ordered) (habove : ∀ p ∈ leaf.pairs, key ≤ p.1) :
    Empties blocksize key leaf := by
  have hclear : leaf.ClearAt key := fun p hp hlt =>
    absurd (Nat.div_le_div_right (habove p hp)) (Nat.not_le.mpr hlt)
  obtain ⟨leaf', hchop, hsound', hpairs⟩ := dleafChop_sound hkey hsound hordered hclear
  rw [(filterMap_above (fun p hp => (hordered.counts p hp).1) habove).1] at hpairs
  rw [Empties, hchop, hsound'.eq_init hpairs]

/-! ## What is left and what is freed -/

/-- The tree after a chop: the leaves up to the one of the key, where that one is chopped and the
others are as before, and the blocks that are gone. -/
structure Chopped (blocksize entriesPerNode key : ℕ) (t : Dtree) (s : Chop) (b a : List (ℕ × ℕ))
    (low leafbuf : ℕ) (gone : List ℕ) : Prop where
  before : t.leafList = b ++ (low, leafbuf) :: a
  le : low ≤ key
  lt : ∀ y ∈ a, key < y.1
  after : s.tree.leafList = b ++ [(low, leafbuf)]
  sized : Sized s.node entriesPerNode s.depth s.root
  depth : 0 < s.depth
  stop : s.depth = 1 ∨ (s.node s.root).length ≠ 1
  blocks : t.blocks.Perm (s.tree.blocks ++ gone)
  chopped : dleafChop blocksize (t.leaf leafbuf) key =
    some (s.leaf leafbuf, (t.leaf leafbuf).pairs.filterMap (freedFrom key))
  same : ∀ y, y ≠ leafbuf → y ∉ gone → s.leaf y = t.leaf y
  freed : s.freed.Perm
    (dataFreed t.leaf key (leafbuf :: a.map Prod.snd) ++ gone.map fun b => (b, 1))

/-- The variables when the probed leaf is chopped. -/
def Dtree.probed (t : Dtree) (leafbuf : ℕ) (this : Leaf) (freed : List (ℕ × ℕ)) : Chop :=
  { t.chop with
    leaf := Function.update t.leaf leafbuf this
    freed := freed
    leafprev := some leafbuf }

section
variable {t : Dtree} (h : t.WellFormed blocksize entriesPerNode)
  (hpath : OnPath t.node t.depth t.root path leafbuf)
include h hpath

theorem after_other {y : ℕ × ℕ} (hy : y ∈ after t.node t.depth path) :
    y ∈ t.leafList ∧ y.2 ≠ leafbuf := by
  have hleaves : t.leafList = _ := leaves_path hpath 0
  constructor
  · rw [hleaves]
    exact List.mem_append_right _ (List.mem_cons_of_mem _ hy)
  · intro heq
    have hnodup := h.leaf_nodup
    rw [hleaves, List.map_append, List.map_cons, List.nodup_append, List.nodup_cons] at hnodup
    exact hnodup.2.1.1 (List.mem_map.mpr ⟨y, hy, heq⟩)

/-- A trimmed path and dropped root levels make the tree that is left. -/
theorem chopped_of_run {this : Leaf} {s₁ : Chop} {dropped : List ℕ}
    (hlow : lowKey t.node path 0 ≤ key) (hafter : ∀ y ∈ after t.node t.depth path, key < y.1)
    (hchop : dleafChop blocksize (t.leaf leafbuf) key =
      some (this, (t.leaf leafbuf).pairs.filterMap (freedFrom key)))
    (htrim : Trimmed
      (t.probed leafbuf this ((t.leaf leafbuf).pairs.filterMap (freedFrom key))) s₁ [] path
      (blocksAfter t.node t.depth path)
      (freedAfter t.node (Function.update t.leaf leafbuf this) key t.depth path))
    (hdropped : Dropped s₁ s dropped) :
    Chopped blocksize entriesPerNode key t s (before t.node t.depth path 0)
      (after t.node t.depth path) (lowKey t.node path 0) leafbuf
      (blocksAfter t.node t.depth path ++ dropped) := by
  obtain ⟨hpath₁, hsized₁, hleaves₁, hperm₁⟩ := trimmed_tree hpath h.index.sized h.index.nodup
    htrim.taken fun y _ hpathy hgone => htrim.node y hpathy hgone
  have hdepth₁ : s₁.depth = t.depth := htrim.depth
  have hroot₁ : s₁.root = t.root := htrim.root
  have hnotgone : leafbuf ∉ blocksAfter t.node t.depth path := by
    intro hin
    have hnodup := List.nodup_append.mp (hperm₁.nodup_iff.mp h.index.nodup)
    exact hnodup.2.2 leafbuf hpath₁.leaf_mem leafbuf hin rfl
  refine ⟨leaves_path hpath 0, hlow, hafter, ?_, ?_, hdropped.pos, ?_, ?_, ?_, ?_, ?_⟩
  · rw [Dtree.leafList, Chop.tree]
    dsimp only
    rw [hdropped.node, hdropped.leaves, hdepth₁, hroot₁]
    exact hleaves₁ 0
  · rw [hdropped.node]
    exact hdropped.sized _ (by rw [hdepth₁, hroot₁]; exact hsized₁)
  · rw [hdropped.node]
    exact hdropped.stop
  · have hblocks := hdropped.blocks
    rw [hdepth₁, hroot₁] at hblocks
    refine hperm₁.trans ?_
    rw [hblocks, Dtree.blocks, Chop.tree]
    dsimp only
    rw [hdropped.node, ← List.append_assoc]
    refine (List.perm_append_comm.append_right _).trans ?_
    rw [List.append_assoc, List.append_assoc]
    exact List.Perm.append_left _ List.perm_append_comm
  · rw [hdropped.leaf, htrim.leaf leafbuf hnotgone, hchop, Dtree.probed]
    dsimp only
    rw [Function.update_self]
  · intro y hy hgone
    rw [List.mem_append, not_or] at hgone
    rw [hdropped.leaf, htrim.leaf y hgone.1]
    exact Function.update_of_ne hy _ _
  · have hdata : dataFreed (Function.update t.leaf leafbuf this) key
        ((after t.node t.depth path).map Prod.snd) =
          dataFreed t.leaf key ((after t.node t.depth path).map Prod.snd) := by
      refine List.flatMap_congr fun x hx => ?_
      obtain ⟨y, hy, rfl⟩ := List.mem_map.mp hx
      rw [Function.update_of_ne (after_other h hpath hy).2]
    have hafterperm := @freedAfter_perm _ (Function.update t.leaf leafbuf this) key _ _ _ _ hpath
    rw [hdata] at hafterperm
    have hperm := (hafterperm.append_right (dropped.map fun b => (b, 1))).append_left
      ((t.leaf leafbuf).pairs.filterMap (freedFrom key))
    rw [hdropped.freed, htrim.freed, List.append_assoc]
    refine hperm.trans (List.Perm.of_eq ?_)
    rw [List.map_append, dataFreed, dataFreed, List.flatMap_cons]
    simp only [List.append_assoc]

end

theorem run_spec {t : Dtree} (h : t.WellFormed blocksize entriesPerNode) (hkey : key < 2 ^ 56)
    (hclear : ∀ x ∈ t.leafList, (t.leaf x.2).ClearAt key) :
    ∃ s rounds b a low leafbuf gone,
      (∀ r, rounds ≤ r → treeChop blocksize entriesPerNode key r t = some s) ∧
      Chopped blocksize entriesPerNode key t s b a low leafbuf gone := by
  obtain ⟨⟨path, leafbuf⟩, hprobe, hpath, hlow, hafter⟩ :=
    probe_spec h.index.sized h.index.sorted (Nat.zero_le key)
  dsimp only at hpath hlow hafter
  have hmid : (lowKey t.node path 0, leafbuf) ∈ t.leafList := by
    rw [show t.leafList = _ from leaves_path hpath 0]
    exact List.mem_append_right _ List.mem_cons_self
  obtain ⟨this, hchop, -, -⟩ := dleafChop_sound hkey (h.sound _ hmid) (h.ordered _ hmid)
    (hclear _ hmid)
  dsimp only at hchop
  set s₀ := t.probed leafbuf this ((t.leaf leafbuf).pairs.filterMap (freedFrom key)) with hs₀
  -- the probed leaf is chopped, and there is no leaf before it
  have hfirst : Step blocksize entriesPerNode key (t.chop, .atLeaf path.reverse leafbuf)
      (s₀, .popping path.reverse) := by
    rw [Step, chopStep, chopLeaf, show t.chop.leaf leafbuf = t.leaf leafbuf from rfl, hchop]
    rfl
  have hempties : ∀ y ∈ after s₀.node t.depth path, Empties blocksize key (s₀.leaf y.2) := by
    intro y hy
    obtain ⟨hmem, hne⟩ := after_other h hpath hy
    rw [show s₀.leaf y.2 = t.leaf y.2 from Function.update_of_ne hne _ _]
    refine empties_of_above hkey (h.sound y hmem) (h.ordered y hmem) fun p hp => ?_
    exact Nat.le_trans (Nat.le_of_lt (hafter y hy)) (h.above y hmem p hp)
  obtain ⟨s₁, s, dropped, hsteps, htrim, hdropped⟩ := path_finished (s := s₀) hpath h.depth
    h.index.sized h.index.nodup hempties rfl rfl rfl rfl
  obtain ⟨rounds, hrounds⟩ := chopRun_of_steps (ReflTransGen.head hfirst hsteps)
  refine ⟨s, rounds, _, _, _, leafbuf, _, fun r hr => ?_,
    chopped_of_run h hpath hlow hafter hchop htrim hdropped⟩
  have hroot : t.hasRoot = true := by
    rw [Dtree.hasRoot, Bool.or_eq_true]
    exact .inr (bne_iff_ne.mpr (Nat.ne_of_gt h.depth))
  rw [treeChop, hroot, if_neg (by decide), hprobe]
  dsimp only
  rw [hrounds r hr]

end

end Tux3.TreeChop
