import Tux3.BtreeSteady
import Tux3.DleafSpare
import Tux3.TreeChopExact

/-!
# Edits of a file btree

A leaf gets other contents, or a new leaf is put behind another. What the btree maps, in the order
of the index, says what an edit does.
-/
namespace Tux3.TreeChop

open Btree Dleaf

/-- The indexes that leaves map, with their blocks. -/
def leavesMapping (leaf : ℕ → Leaf) (l : List (ℕ × ℕ)) : List (ℕ × ℕ) :=
  l.flatMap fun x => (leaf x.2).mapping

def Dtree.mapping (t : Dtree) : List (ℕ × ℕ) := leavesMapping t.leaf t.leafList

/-- A file btree that `map_region` and `tree_chop` work on. -/
structure Dtree.Good (t : Dtree) (blocksize entriesPerNode : ℕ) : Prop where
  wellFormed : t.WellFormed blocksize entriesPerNode
  range : t.Unstraddled
  spare : ∀ x ∈ t.leafList, (t.leaf x.2).Spare

/-- A file btree whose extents have a property, whatever it is. -/
structure Dtree.GoodFor (t : Dtree) (ok : ℕ × Extent → Prop) (blocksize entriesPerNode : ℕ) :
    Prop where
  wellFormed : t.WellFormed blocksize entriesPerNode
  extents : ∀ x ∈ t.leafList, ∀ p ∈ (t.leaf x.2).pairs, ok p
  spare : ∀ x ∈ t.leafList, (t.leaf x.2).Spare

/-- An extent in one range of `2 ^ 24` indexes. -/
def InRange (p : ℕ × Extent) : Prop := (p.1 + p.2.count - 1) / 2 ^ 24 = p.1 / 2 ^ 24

section
variable {t t' : Dtree} {blocksize n low buf : ℕ} {leaf' : Leaf} {a b l : List (ℕ × ℕ)}
  {leaf leaf₁ : ℕ → Leaf} {ok : ℕ × Extent → Prop}

theorem Dtree.Good.goodFor (h : t.Good blocksize n) : t.GoodFor InRange blocksize n :=
  ⟨h.wellFormed, h.range, h.spare⟩

theorem Dtree.GoodFor.good (h : t.GoodFor InRange blocksize n) : t.Good blocksize n :=
  ⟨h.wellFormed, h.extents, h.spare⟩

theorem Dtree.GoodFor.mono {ok' : ℕ × Extent → Prop} (h : t.GoodFor ok blocksize n)
    (hok : ∀ p, ok p → ok' p) : t.GoodFor ok' blocksize n :=
  ⟨h.wellFormed, fun x hx p hp => hok p (h.extents x hx p hp), h.spare⟩

/-! ## What a btree maps -/

theorem leavesMapping_append : leavesMapping leaf (b ++ a) =
    leavesMapping leaf b ++ leavesMapping leaf a := List.flatMap_append

theorem leavesMapping_cons {x : ℕ × ℕ} : leavesMapping leaf (x :: a) =
    (leaf x.2).mapping ++ leavesMapping leaf a := List.flatMap_cons

theorem leavesMapping_congr (h : ∀ x ∈ l, leaf x.2 = leaf₁ x.2) :
    leavesMapping leaf l = leavesMapping leaf₁ l :=
  List.flatMap_congr fun x hx => by rw [h x hx]

theorem mem_indexBlocks {p : ℕ × Extent} {index block : ℕ} : (index, block) ∈ indexBlocks p ↔
    ∃ i < p.2.count, index = p.1 + i ∧ block = p.2.block + i := by
  rw [indexBlocks, List.mem_map]
  constructor
  · rintro ⟨index', hin, heq⟩
    rw [Prod.mk.injEq] at heq
    obtain ⟨rfl, rfl⟩ := heq
    rw [List.mem_range'_1] at hin
    exact ⟨index' - p.1, by omega, by omega, rfl⟩
  · rintro ⟨i, hi, rfl, rfl⟩
    exact ⟨p.1 + i, List.mem_range'_1.mpr (by omega), by rw [Nat.add_sub_cancel_left]⟩

theorem indexBlocks_blocks (p : ℕ × Extent) : (indexBlocks p).map Prod.snd = extentBlocks p := by
  rw [indexBlocks, extentBlocks, List.map_map, List.range'_eq_map_range, List.range'_eq_map_range,
    List.map_map]
  refine List.map_congr_left fun i _ => ?_
  change p.2.block + (p.1 + i - p.1) = p.2.block + i
  rw [Nat.add_sub_cancel_left]

theorem Dtree.dataBlocks_eq : t.dataBlocks = t.mapping.map Prod.snd := by
  rw [Dtree.dataBlocks, Dtree.mapping, leavesMapping, List.map_flatMap]
  refine List.flatMap_congr fun x _ => ?_
  rw [Leaf.mapping, List.map_flatMap]
  exact List.flatMap_congr fun p _ => (indexBlocks_blocks p).symm

/-! ## Other contents of a leaf -/

theorem Dtree.WellFormed.others (h : t.WellFormed blocksize n)
    (hlist : t.leafList = b ++ (low, buf) :: a) : (∀ x ∈ b, x.2 ≠ buf) ∧ ∀ x ∈ a, x.2 ≠ buf := by
  have hnodup := h.leaf_nodup
  rw [hlist, List.map_append, List.map_cons] at hnodup
  obtain ⟨-, hright, hdisj⟩ := List.nodup_append.mp hnodup
  refine ⟨fun x hx => hdisj x.2 (List.mem_map_of_mem hx) buf List.mem_cons_self, fun x hx heq => ?_⟩
  have hmem := List.mem_map_of_mem (f := Prod.snd) hx
  rw [heq] at hmem
  exact (List.nodup_cons.mp hright).1 hmem

def Dtree.setLeaf (t : Dtree) (buf : ℕ) (leaf' : Leaf) : Dtree :=
  { t with leaf := Function.update t.leaf buf leaf' }

theorem setLeaf_mapping (h : t.WellFormed blocksize n)
    (hlist : t.leafList = b ++ (low, buf) :: a) :
    (t.setLeaf buf leaf').mapping =
      leavesMapping t.leaf b ++ leaf'.mapping ++ leavesMapping t.leaf a := by
  obtain ⟨hb, ha⟩ := h.others hlist
  have hsame : ∀ l : List (ℕ × ℕ), (∀ x ∈ l, x.2 ≠ buf) →
      leavesMapping (Function.update t.leaf buf leaf') l = leavesMapping t.leaf l :=
    fun l hl => leavesMapping_congr fun x hx => Function.update_of_ne (hl x hx) _ _
  rw [Dtree.mapping]
  change leavesMapping (Function.update t.leaf buf leaf') t.leafList = _
  rw [hlist, leavesMapping_append, leavesMapping_cons, hsame b hb, hsame a ha, Function.update_self,
    List.append_assoc]

theorem Dtree.GoodFor.setLeaf (h : t.GoodFor ok blocksize n)
    (hlist : t.leafList = b ++ (low, buf) :: a)
    (hsound : leaf'.Sound blocksize) (hordered : leaf'.Ordered) (hok : ∀ p ∈ leaf'.pairs, ok p)
    (hspare : leaf'.Spare) (habove : ∀ p ∈ leaf'.pairs, low ≤ p.1)
    (hbelow : ∀ p ∈ leaf'.pairs, ∀ y ∈ a, p.1 + p.2.count ≤ y.1)
    (hnodup : (t.blocks ++ (t.setLeaf buf leaf').mapping.map Prod.snd).Nodup) :
    (t.setLeaf buf leaf').GoodFor ok blocksize n := by
  obtain ⟨hb, ha⟩ := h.wellFormed.others hlist
  have hself : (t.setLeaf buf leaf').leaf buf = leaf' := Function.update_self _ _ _
  have hother : ∀ {x : ℕ × ℕ}, x.2 ≠ buf → (t.setLeaf buf leaf').leaf x.2 = t.leaf x.2 :=
    fun hx => Function.update_of_ne hx _ _
  -- a property of the leaves
  have hall : ∀ P : ℕ × ℕ → Leaf → Prop, (∀ x ∈ t.leafList, P x (t.leaf x.2)) → P (low, buf) leaf' →
      ∀ x ∈ (t.setLeaf buf leaf').leafList, P x ((t.setLeaf buf leaf').leaf x.2) := by
    intro P hP hnew x hx
    change x ∈ t.leafList at hx
    have hP' := hP x hx
    rw [hlist, List.mem_append, List.mem_cons] at hx
    rcases hx with hx | rfl | hx
    · rw [hother (hb x hx)]
      exact hP'
    · rw [hself]
      exact hnew
    · rw [hother (ha x hx)]
      exact hP'
  refine ⟨⟨h.wellFormed.index, h.wellFormed.depth, h.wellFormed.rising,
    hall (fun _ leaf => leaf.Sound blocksize) h.wellFormed.sound hsound,
    hall (fun _ leaf => leaf.Ordered) h.wellFormed.ordered hordered,
    hall (fun x leaf => ∀ p ∈ leaf.pairs, x.1 ≤ p.1) h.wellFormed.above habove, ?_, ?_⟩,
    hall (fun _ leaf => ∀ p ∈ leaf.pairs, ok p) h.extents hok,
    hall (fun _ leaf => leaf.Spare) h.spare hspare⟩
  · have hpair := h.wellFormed.below
    change t.leafList.Pairwise _
    rw [hlist, List.pairwise_append, List.pairwise_cons] at hpair ⊢
    obtain ⟨hleft, ⟨-, hright⟩, hacross⟩ := hpair
    refine ⟨hleft.imp_of_mem fun {x y} hx _ hxy => ?_, ⟨fun y hy => ?_,
      hright.imp_of_mem fun {x y} hx _ hxy => ?_⟩, fun x hx y hy => ?_⟩
    · rw [hother (hb x hx)]
      exact hxy
    · rw [hself]
      exact fun p hp => hbelow p hp y hy
    · rw [hother (ha x hx)]
      exact hxy
    · rw [hother (hb x hx)]
      exact hacross x hx y hy
  · rw [Dtree.dataBlocks_eq]
    exact hnodup

/-! ## A new leaf -/

theorem Dtree.WellFormed.path_split {path : List PathLevel} (h : t.WellFormed blocksize n)
    (hlist : t.leafList = b ++ (low, buf) :: a) (hpath : OnPath t.node t.depth t.root path buf) :
    b = before t.node t.depth path 0 ∧ low = lowKey t.node path 0 ∧
      a = after t.node t.depth path := by
  obtain ⟨hb, ha⟩ := h.others hlist
  have hpath' := leaves_path hpath 0
  change t.leafList = _ at hpath'
  rw [hlist] at hpath'
  obtain ⟨rfl, heq, rfl⟩ := (List.append_cons_inj_of_notMem
    (fun hin => hb _ hin rfl) fun hin => ha _ hin rfl).mp hpath'
  exact ⟨rfl, congrArg Prod.fst heq, rfl⟩

/-- A leaf that is behind the one of the cursor after an insertion. -/
structure LeafAdded (t t' : Dtree) (n room : ℕ) (b a : List (ℕ × ℕ)) (low buf key leafbuf : ℕ)
    (blocks : List ℕ) (cursor' : Cursor) : Prop where
  leafList : t'.leafList = b ++ (low, buf) :: (key, leafbuf) :: a
  blocks : ∃ used rest, blocks = used ++ rest ∧ t'.blocks.Perm (leafbuf :: used ++ t.blocks)
  cursor : cursor'.leaf = leafbuf
  steady : Steady t'.toTree n room cursor'
  sized : Sized t'.node n t'.depth t'.root
  depth : 0 < t'.depth

theorem leafAdded_of_insert {room key leafbuf : ℕ} {blocks : List ℕ} {cursor cursor' : Cursor}
    {tree : Tree} (content : Leaf) (hn : 2 ≤ n) (h : t.WellFormed blocksize n)
    (hlist : t.leafList = b ++ (low, cursor.leaf) :: a) (hroom : (n + 1) / 2 + 1 + room ≤ n)
    (hsteady : Steady t.toTree n (room + 1) cursor) (hfresh : (leafbuf :: blocks ++ t.blocks).Nodup)
    (hinsert : insertLeaf t.toTree n blocks cursor key leafbuf false = some (tree, cursor')) :
    LeafAdded t ⟨tree, Function.update t.leaf leafbuf content⟩ n room b a low cursor.leaf key
      leafbuf blocks cursor' := by
  obtain ⟨hleaf, hsteady', path, cursor'', hpath, hinsert'⟩ :=
    hsteady.insert hn h.index h.depth hroom hfresh hinsert
  obtain ⟨hleaves, -, hsized⟩ := insertLeaf_tree hn h.index (by exact hpath) hfresh hinsert'
  obtain ⟨hblocks, -, -⟩ := insertLeaf_lowest hn h.index h.depth (by exact hpath) hfresh hinsert'
  obtain ⟨rfl, rfl, rfl⟩ := h.path_split hlist hpath
  refine ⟨hleaves, hblocks, hleaf, hsteady', hsized, ?_⟩
  obtain ⟨s, -, hcase⟩ := insertLeaf_cases hinsert
  rcases hcase with ⟨-, rfl, -⟩ | ⟨c, newroot, rest, -, -, rfl, -⟩
  · exact h.depth
  · exact Nat.succ_pos t.depth

theorem pairwise_insert {α : Type} {R : α → α → Prop} {b a : List α} {x y : α}
    (h : (b ++ x :: a).Pairwise R) (hb : ∀ z ∈ b, R z y) (hx : R x y) (ha : ∀ z ∈ a, R y z) :
    (b ++ x :: y :: a).Pairwise R := by
  obtain ⟨hleft, hright, hacross⟩ := List.pairwise_append.mp h
  obtain ⟨hxa, ha'⟩ := List.pairwise_cons.mp hright
  refine List.pairwise_append.mpr ⟨hleft, List.pairwise_cons.mpr ⟨fun z hz => ?_,
    List.pairwise_cons.mpr ⟨ha, ha'⟩⟩, fun z hz w hw => ?_⟩
  · rcases List.mem_cons.mp hz with rfl | hz
    · exact hx
    · exact hxa z hz
  · rcases List.mem_cons.mp hw with rfl | hw
    · exact hacross z hz w List.mem_cons_self
    · rcases List.mem_cons.mp hw with rfl | hw
      · exact hb z hz
      · exact hacross z hz w (List.mem_cons_of_mem x hw)

section
variable {room key leafbuf : ℕ} {blocks : List ℕ} {cursor' : Cursor} {tree : Tree} {content : Leaf}

/-- What a leaf may hold that is put before other leaves. -/
structure Fitting (ok : ℕ × Extent → Prop) (blocksize key : ℕ) (a : List (ℕ × ℕ))
    (content : Leaf) : Prop where
  sound : content.Sound blocksize
  ordered : content.Ordered
  extents : ∀ p ∈ content.pairs, ok p
  spare : content.Spare
  high : ∀ y ∈ a, key < y.1
  above : ∀ p ∈ content.pairs, key ≤ p.1
  below : ∀ p ∈ content.pairs, ∀ y ∈ a, p.1 + p.2.count ≤ y.1

theorem leaf_same (hnew : leafbuf ∉ t.blocks) {x : ℕ × ℕ} (hx : x ∈ t.leafList) :
    Function.update t.leaf leafbuf content x.2 = t.leaf x.2 := by
  refine Function.update_of_ne (fun heq => hnew ?_) _ _
  rw [← heq]
  exact Dtree.leaf_mem hx

section
variable (hlist : t.leafList = b ++ (low, buf) :: a)
  (hadd : LeafAdded t ⟨tree, Function.update t.leaf leafbuf content⟩ n room b a low buf key leafbuf
    blocks cursor')
  (hnew : leafbuf ∉ t.blocks)
include hlist hadd hnew

theorem LeafAdded.mapping :
    Dtree.mapping ⟨tree, Function.update t.leaf leafbuf content⟩ =
      leavesMapping t.leaf (b ++ [(low, buf)]) ++ content.mapping ++ leavesMapping t.leaf a := by
  have hsame : ∀ l : List (ℕ × ℕ), (∀ x ∈ l, x ∈ t.leafList) →
      leavesMapping (Function.update t.leaf leafbuf content) l = leavesMapping t.leaf l :=
    fun l hl => leavesMapping_congr fun x hx => leaf_same hnew (hl x hx)
  rw [Dtree.mapping]
  change leavesMapping (Function.update t.leaf leafbuf content) (Dtree.leafList _) = _
  rw [hadd.leafList, List.append_cons, leavesMapping_append, leavesMapping_cons, hsame, hsame,
    Function.update_self, List.append_assoc]
  · intro x hx
    rw [hlist]
    exact List.mem_append_right _ (List.mem_cons_of_mem _ hx)
  · intro x hx
    rw [hlist, List.append_cons]
    exact List.mem_append_left _ hx

theorem LeafAdded.forall {P : ℕ × ℕ → Leaf → Prop} (hold : ∀ x ∈ t.leafList, P x (t.leaf x.2))
    (hcontent : P (key, leafbuf) content) :
    ∀ x ∈ Dtree.leafList ⟨tree, Function.update t.leaf leafbuf content⟩,
      P x (Function.update t.leaf leafbuf content x.2) := by
  intro x hx
  rw [hadd.leafList, List.append_cons, List.mem_append, List.mem_cons] at hx
  have hin : x ∈ b ++ [(low, buf)] ∨ x ∈ a → x ∈ t.leafList := by
    intro hin
    rw [hlist, List.append_cons]
    exact List.mem_append.mpr hin
  rcases hx with hx | rfl | hx
  · rw [leaf_same hnew (hin (.inl hx))]
    exact hold x (hin (.inl hx))
  · rw [Function.update_self]
    exact hcontent
  · rw [leaf_same hnew (hin (.inr hx))]
    exact hold x (hin (.inr hx))

theorem Dtree.GoodFor.addLeaf (h : t.GoodFor ok blocksize n)
    (hfit : Fitting ok blocksize key a content) (hlow : low < key)
    (hends : ∀ p ∈ (t.leaf buf).pairs, p.1 + p.2.count ≤ key)
    (hnodup : (leafbuf :: blocks ++ (t.blocks ++
      (t.mapping.map Prod.snd ++ content.mapping.map Prod.snd))).Nodup) :
    Dtree.GoodFor ⟨tree, Function.update t.leaf leafbuf content⟩ ok blocksize n := by
  have hw := h.wellFormed
  have hleft : ∀ x ∈ b, x.1 < low := by
    have hrising := hw.rising
    rw [hlist, List.map_append, List.map_cons] at hrising
    exact fun x hx => (List.pairwise_append.mp hrising).2.2 x.1 (List.mem_map_of_mem hx) low
      List.mem_cons_self
  have hrising : ((Dtree.leafList ⟨tree, Function.update t.leaf leafbuf content⟩).map
      Prod.fst).Pairwise (· < ·) := by
    have hrising := hw.rising
    rw [hlist, List.pairwise_map] at hrising
    rw [hadd.leafList, List.pairwise_map]
    exact pairwise_insert hrising (fun x hx => Nat.lt_trans (hleft x hx) hlow) hlow
      hfit.high
  obtain ⟨used, rest, hused, hperm⟩ := hadd.blocks
  have hdistinct : (leafbuf :: used ++ (t.blocks ++
      (t.mapping.map Prod.snd ++ content.mapping.map Prod.snd))).Nodup := by
    refine hnodup.sublist (List.Sublist.append_right (List.Sublist.cons_cons _ ?_) _)
    rw [hused]
    exact List.sublist_append_left used rest
  have hall := fun P => @LeafAdded.forall _ _ _ _ _ _ _ _ _ _ _ _ _ hlist hadd hnew P
  refine ⟨⟨⟨hadd.sized, ?_, hrising.imp Nat.le_of_lt⟩, hadd.depth, hrising,
    hall (fun _ leaf => leaf.Sound blocksize) hw.sound hfit.sound,
    hall (fun _ leaf => leaf.Ordered) hw.ordered hfit.ordered,
    hall (fun x leaf => ∀ p ∈ leaf.pairs, x.1 ≤ p.1) hw.above hfit.above, ?_, ?_⟩,
    hall (fun _ leaf => ∀ p ∈ leaf.pairs, ok p) h.extents hfit.extents,
    hall (fun _ leaf => leaf.Spare) h.spare hfit.spare⟩
  · rw [← List.append_assoc] at hdistinct
    exact hperm.nodup_iff.mpr (List.nodup_append.mp hdistinct).1
  · have hbelow := hw.below
    have hfirst : (low, buf) ∈ t.leafList := by
      rw [hlist]
      exact List.mem_append_right b List.mem_cons_self
    have hb : ∀ x ∈ b, x ∈ t.leafList := fun x hx => by
      rw [hlist]
      exact List.mem_append_left _ hx
    have hleftEnds : ∀ x ∈ b, ∀ p ∈ (t.leaf x.2).pairs, p.1 + p.2.count ≤ low := by
      rw [hlist] at hbelow
      exact fun x hx => (List.pairwise_append.mp hbelow).2.2 x hx (low, buf) List.mem_cons_self
    have hsame : ∀ x ∈ t.leafList, Function.update t.leaf leafbuf content x.2 = t.leaf x.2 :=
      fun x hx => leaf_same hnew hx
    replace hbelow := hbelow.imp_of_mem fun {x y} hx _ hxy => by
      rw [← hsame x hx] at hxy
      exact hxy
    rw [hlist] at hbelow
    rw [hadd.leafList]
    refine pairwise_insert hbelow (fun x hx => ?_) ?_ fun y hy => ?_
    · dsimp only
      rw [leaf_same hnew (hb x hx)]
      exact fun p hp => Nat.le_trans (hleftEnds x hx p hp) (Nat.le_of_lt hlow)
    · dsimp only
      rw [leaf_same hnew hfirst]
      exact hends
    · dsimp only
      rw [Function.update_self]
      exact fun p hp => hfit.below p hp y hy
  · rw [Dtree.dataBlocks_eq, hadd.mapping hlist hnew]
    refine (List.Perm.nodup_iff ?_).mp hdistinct
    have hold : t.mapping = leavesMapping t.leaf (b ++ [(low, buf)]) ++ leavesMapping t.leaf a := by
      rw [Dtree.mapping, hlist, List.append_cons, leavesMapping_append]
    rw [← List.append_assoc]
    refine hperm.symm.append ?_
    rw [hold]
    refine List.perm_iff_count.mpr fun x => ?_
    simp only [List.map_append, List.count_append]
    omega

end

end

/-! ## `tree_chop` -/

/-- The btree that `tree_chop` leaves when no extent of a lower range reaches over the key. -/
theorem Dtree.GoodFor.chop {key : ℕ} (h : t.GoodFor ok blocksize n) (hkey : key < 2 ^ 56)
    (hclear : ∀ x ∈ t.leafList, (t.leaf x.2).ClearAt key)
    (hok : ∀ p q, ok p → 1 ≤ p.2.count → keptBelow key p = some q → ok q) :
    ∃ s rounds, (∀ r, rounds ≤ r → treeChop blocksize n key r t = some s) ∧
      s.tree.GoodFor ok blocksize n ∧
      ∀ index block, s.tree.Maps index block ↔ index < key ∧ t.Maps index block := by
  have hwell := h.wellFormed
  obtain ⟨s, rounds, b, a, low, leafbuf, gone, hrun, hc⟩ := run_spec hwell hkey hclear
  refine ⟨s, rounds, hrun, ⟨hc.wellFormed hwell hkey hclear, fun x hx => ?_, fun x hx => ?_⟩,
    hc.maps hwell hkey hclear⟩
  · obtain ⟨hmem, -, hpairs⟩ := hc.kept hwell hkey hclear hx
    intro q hq
    rw [show s.tree.leaf x.2 = s.leaf x.2 from rfl, hpairs] at hq
    obtain ⟨p, hp, hq⟩ := List.mem_filterMap.mp hq
    exact hok p q (h.extents x hmem p hp) ((hwell.ordered x hmem).counts p hp).1 hq
  · obtain ⟨hmem, -, -⟩ := hc.kept hwell hkey hclear hx
    have hx' := hx
    rw [hc.after, List.mem_append, List.mem_singleton] at hx'
    rcases hx' with hx' | rfl
    · rw [show s.tree.leaf x.2 = s.leaf x.2 from rfl, hc.left_same hwell hx']
      exact h.spare x hmem
    · exact dleafChop_spare hkey (hwell.sound _ hmem) (hwell.ordered _ hmem) (hclear _ hmem)
        (h.spare _ hmem) hc.chopped

/-- A btree that `tree_chop` leaves. -/
theorem Dtree.Good.chop {key : ℕ} (h : t.Good blocksize n) (hkey : key < 2 ^ 56) :
    ∃ s rounds, (∀ r, rounds ≤ r → treeChop blocksize n key r t = some s) ∧
      s.tree.Good blocksize n := by
  obtain ⟨s, rounds, hrun, hgood, -⟩ := h.goodFor.chop hkey
    (fun x hx => Leaf.Unstraddled.clearAt (h.range x hx) (h.wellFormed.ordered x hx) key)
    fun p q hp hcount hq => by
      obtain ⟨hindex, hle, hone⟩ := keptBelow_le hq
      have hpos := hone hcount
      rw [InRange] at hp ⊢
      rw [hindex]
      omega
  exact ⟨s, rounds, hrun, hgood.good⟩

end

end Tux3.TreeChop
