import Tux3.MapRegion
import Tux3.DtreeEdits

/-!
# The packing loop

Each round of the loop of `map_region` puts one extent behind what is packed. A leaf without room is
left behind, and the round goes on in a new one.
-/
namespace Tux3.MapRegion

open Btree Dleaf TreeChop

def Piece.pair (p : Piece) : ℕ × Extent := (p.index, p.extent)

/-- The pieces that are left, in order, from an index on and below the leaves behind. -/
structure Packable (ok : ℕ × Extent → Prop) (a : List (ℕ × ℕ)) (next : ℕ) (ps : List Piece) :
    Prop where
  apart : ps.Pairwise fun p q => p.index + p.extent.count ≤ q.index
  start : ∀ p ∈ ps, next ≤ p.index
  counts : ∀ p ∈ ps, 1 ≤ p.extent.count ∧ p.extent.count ≤ 64
  blocks : ∀ p ∈ ps, p.extent.block ≠ 0
  extents : ∀ p ∈ ps, ok p.pair
  index : ∀ p ∈ ps, p.index < 2 ^ 48
  stop : ∀ p ∈ ps, ∀ y ∈ a, p.index + p.extent.count ≤ y.1

/-- How often a leaf can be put behind the one of the cursor: a new leaf takes fifteen pieces, so
the lowest level of the cursor has room once it was split. -/
def Room (n pieces : ℕ) (s : PackState) : Prop :=
  OnPath s.tree.node s.tree.depth s.tree.root s.cursor.path s.cursor.leaf ∨
    ∃ added, 248 ≤ dleafFree (s.tree.leaf s.cursor.leaf) + 16 * added ∧
      Steady s.tree.toTree n ((pieces + added) / 15 + 1) s.cursor

/-- The blocks that the allocator has for new leaves. -/
def leafStock (leaves : List (ℕ × List ℕ)) : List ℕ := leaves.flatMap fun x => x.1 :: x.2

/-- The state of the packing loop: what is packed is mapped up to the leaf of the cursor, and the
leaves behind it are as before. -/
structure Front (ok : ℕ × Extent → Prop) (blocksize n : ℕ) (a mapped : List (ℕ × ℕ))
    (stock : List ℕ) (done : List (ℕ × ℕ)) (next : ℕ) (ps : List Piece) (s : PackState) : Prop where
  good : s.tree.GoodFor ok blocksize n
  place : ∃ b low, s.tree.leafList = b ++ (low, s.cursor.leaf) :: a ∧ low ≤ next ∧
    leavesMapping s.tree.leaf (b ++ [(low, s.cursor.leaf)]) = done
  rest : leavesMapping s.tree.leaf a = mapped
  ends : ∀ p ∈ (s.tree.leaf s.cursor.leaf).pairs, p.1 + p.2.count ≤ next
  walk : AtEnd (s.tree.leaf s.cursor.leaf) s.walk
  room : Room n ps.length s
  nodup : ((s.tree.blocks ++ s.tree.mapping.map Prod.snd) ++
    (ps.flatMap (fun p => extentBlocks p.pair) ++ (stock ++ leafStock s.leaves))).Nodup

section
variable {blocksize n next : ℕ} {a mapped done : List (ℕ × ℕ)} {stock : List ℕ} {p : Piece}
  {ps : List Piece} {s s' : PackState} {leaf : Leaf} {ok : ℕ × Extent → Prop}

theorem ordered_of_apart (hapart : leaf.pairs.Pairwise fun p q => p.1 + p.2.count ≤ q.1)
    (hcounts : ∀ p ∈ leaf.pairs, 1 ≤ p.2.count ∧ p.2.count ≤ 64) : leaf.Ordered := by
  refine ⟨?_, hapart, hcounts⟩
  rw [List.pairwise_map]
  refine hapart.imp_of_mem fun {p q} hp _ hpq => ?_
  have hpos := (hcounts p hp).1
  omega

theorem Packable.tail (h : Packable ok a next (p :: ps)) :
    Packable ok a (p.index + p.extent.count) ps where
  apart := (List.pairwise_cons.mp h.apart).2
  start := (List.pairwise_cons.mp h.apart).1
  counts := fun q hq => h.counts q (List.mem_cons_of_mem p hq)
  blocks := fun q hq => h.blocks q (List.mem_cons_of_mem p hq)
  extents := fun q hq => h.extents q (List.mem_cons_of_mem p hq)
  index := fun q hq => h.index q (List.mem_cons_of_mem p hq)
  stop := fun q hq => h.stop q (List.mem_cons_of_mem p hq)

theorem Packable.from_index (h : Packable ok a next (p :: ps)) :
    Packable ok a p.index (p :: ps) where
  apart := h.apart
  start := fun q hq => by
    rcases List.mem_cons.mp hq with rfl | hq
    · exact Nat.le_refl _
    · exact Nat.le_trans (Nat.le_add_right _ _) ((List.pairwise_cons.mp h.apart).1 q hq)
  counts := h.counts
  blocks := h.blocks
  extents := h.extents
  index := h.index
  stop := h.stop

theorem add_free {leaf' : Leaf} {walk walk' : Dwalk} {index : ℕ} {extent : Extent}
    (h : leaf.Sound blocksize) (h' : leaf'.Sound blocksize) (hat : walk.group = leaf.groups.length)
    (hpairs : leaf'.pairs.length = leaf.pairs.length + 1)
    (hadd : dwalkAdd blocksize leaf walk index extent = some (leaf', walk')) :
    dleafFree leaf ≤ dleafFree leaf' + 16 := by
  have hroom := h.room
  have hroom' := h'.room
  rcases dwalkAdd_groups hat hadd with hsame | ⟨hmore, -⟩
  · omega
  · omega

/-- A round that has room. -/
theorem Front.add (h : Front ok blocksize n a mapped stock done next (p :: ps) s)
    (hpack : Packable ok a next (p :: ps))
    (hfree : DLEAF_MAX_EXTENT_SIZE ≤ dleafFree (s.tree.leaf s.cursor.leaf)) {leaf' : Leaf}
    {walk' : Dwalk}
    (hadd : dwalkAdd blocksize (s.tree.leaf s.cursor.leaf) s.walk p.index p.extent =
      some (leaf', walk')) :
    Front ok blocksize n a mapped stock (done ++ indexBlocks p.pair) (p.index + p.extent.count) ps
        { s with tree := s.tree.setLeaf s.cursor.leaf leaf', walk := walk' } ∧
      leaf'.pairs ≠ [] := by
  obtain ⟨b, low, hlist, hlow, hdone⟩ := h.place
  have hmem : (low, s.cursor.leaf) ∈ s.tree.leafList := by
    rw [hlist]
    exact List.mem_append_right b List.mem_cons_self
  have hsound : (s.tree.leaf s.cursor.leaf).Sound blocksize := h.good.wellFormed.sound _ hmem
  have hordered : (s.tree.leaf s.cursor.leaf).Ordered := h.good.wellFormed.ordered _ hmem
  have hstart := hpack.start p List.mem_cons_self
  have hcounts := hpack.counts p List.mem_cons_self
  have hends := h.ends
  -- the leaf takes the extent
  obtain ⟨gs, hfits, heq⟩ := hsound.packed
  have hnext : Appendable (pack blocksize gs) p.index p.extent := by
    refine ⟨fun q hq => ?_, hpack.index p List.mem_cons_self,
      Nat.pos_of_ne_zero (hpack.blocks p List.mem_cons_self), hcounts.1⟩
    rw [← heq] at hq
    have hin := List.mem_of_getLast? hq
    have hend := hends q hin
    have hpos := (hordered.counts q hin).1
    omega
  have hat := h.walk
  have hfree' := hfree
  have hadd' := hadd
  rw [heq] at hat hfree' hadd'
  obtain ⟨gs', walk'', hfits', hat', hadd'', hpairs, -⟩ := add_one hfits hat hfree' hnext
  rw [hadd'] at hadd''
  obtain ⟨rfl, rfl⟩ := Prod.mk.inj (Option.some.inj hadd'')
  have hpairs' : (pack blocksize gs').pairs = (s.tree.leaf s.cursor.leaf).pairs ++ [p.pair] := by
    rw [pack_pairs, hpairs, heq, pack_pairs]
    rfl
  have hmapping : (pack blocksize gs').mapping =
      (s.tree.leaf s.cursor.leaf).mapping ++ indexBlocks p.pair := by
    rw [Leaf.mapping, hpairs', List.flatMap_append, List.flatMap_singleton, Leaf.mapping]
  have hold : ∀ q ∈ (pack blocksize gs').pairs,
      q ∈ (s.tree.leaf s.cursor.leaf).pairs ∨ q = p.pair := by
    rw [hpairs']
    exact fun q hq => (List.mem_append.mp hq).imp_right List.mem_singleton.mp
  have hset := @setLeaf_mapping s.tree blocksize n low s.cursor.leaf (pack blocksize gs') a b
    h.good.wellFormed hlist
  have hwhole : s.tree.mapping = leavesMapping s.tree.leaf b ++
      ((s.tree.leaf s.cursor.leaf).mapping ++ leavesMapping s.tree.leaf a) := by
    rw [Dtree.mapping, hlist, leavesMapping_append, leavesMapping_cons]
  have hnodup : ((s.tree.blocks ++
      (s.tree.setLeaf s.cursor.leaf (pack blocksize gs')).mapping.map Prod.snd) ++
      (ps.flatMap (fun p => extentBlocks p.pair) ++ (stock ++ leafStock s.leaves))).Nodup := by
    refine (List.Perm.nodup_iff ?_).mp h.nodup
    rw [hset, hwhole, hmapping]
    refine List.perm_iff_count.mpr fun x => ?_
    simp only [List.map_append, List.count_append, List.flatMap_cons, indexBlocks_blocks]
    omega
  obtain ⟨hb, ha⟩ := h.good.wellFormed.others hlist
  have hself : (s.tree.setLeaf s.cursor.leaf (pack blocksize gs')).leaf s.cursor.leaf =
      pack blocksize gs' := Function.update_self _ _ _
  have hother : ∀ l : List (ℕ × ℕ), (∀ x ∈ l, x.2 ≠ s.cursor.leaf) →
      leavesMapping (s.tree.setLeaf s.cursor.leaf (pack blocksize gs')).leaf l =
        leavesMapping s.tree.leaf l :=
    fun l hl => leavesMapping_congr fun x hx => Function.update_of_ne (hl x hx) _ _
  refine ⟨⟨?_, ⟨b, low, hlist, ?_, ?_⟩, ?_, ?_, ?_, ?_, hnodup⟩, ?_⟩
  · refine h.good.setLeaf hlist hfits'.sound ?_ ?_ ?_ ?_ ?_ (List.nodup_append.mp hnodup).1
    · refine ordered_of_apart ?_ fun q hq => ?_
      · rw [hpairs', List.pairwise_append]
        refine ⟨hordered.apart, List.pairwise_singleton _ _, fun q hq r hr => ?_⟩
        rw [List.mem_singleton.mp hr]
        exact Nat.le_trans (hends q hq) hstart
      · rcases hold q hq with hq | rfl
        · exact hordered.counts q hq
        · exact hcounts
    · intro q hq
      rcases hold q hq with hq | rfl
      · exact h.good.extents _ hmem q hq
      · exact hpack.extents p List.mem_cons_self
    · refine .add hsound hfits'.sound h.walk.group ?_ hfree hadd
      rw [hpairs', List.length_append, List.length_singleton]
    · intro q hq
      rcases hold q hq with hq | rfl
      · exact h.good.wellFormed.above _ hmem q hq
      · exact Nat.le_trans hlow hstart
    · intro q hq y hy
      rcases hold q hq with hq | rfl
      · have hbelow := h.good.wellFormed.below
        rw [hlist] at hbelow
        exact (List.pairwise_cons.mp (List.pairwise_append.mp hbelow).2.1).1 y hy q hq
      · exact hpack.stop p List.mem_cons_self y hy
  · exact Nat.le_trans hlow (Nat.le_trans hstart (Nat.le_add_right _ _))
  · rw [← hdone, leavesMapping_append, leavesMapping_append, hother b hb, leavesMapping_cons,
      leavesMapping_cons, List.append_assoc]
    dsimp only
    rw [hself, hmapping]
    simp only [leavesMapping, List.flatMap_nil, List.append_nil]
  · exact (hother a ha).trans h.rest
  · intro q hq
    dsimp only at hq
    rw [hself] at hq
    rcases hold q hq with hq | rfl
    · exact Nat.le_trans (hends q hq) (Nat.le_trans hstart (Nat.le_add_right _ _))
    · exact Nat.le_refl _
  · dsimp only
    rw [hself]
    exact hat'
  · rcases h.room with hpath | ⟨added, hroom, hsteady⟩
    · exact .inl hpath
    · refine .inr ⟨added + 1, ?_, ?_⟩
      · dsimp only
        rw [hself]
        have hless := add_free hsound hfits'.sound h.walk.group
          (by rw [hpairs', List.length_append, List.length_singleton]) hadd
        omega
      · rw [List.length_cons] at hsteady
        rw [show ps.length + (added + 1) = ps.length + 1 + added by omega]
        exact hsteady
  · rw [hpairs']
    exact List.append_ne_nil_of_right_ne_nil _ (List.cons_ne_nil _ _)

theorem insertNewLeaf_linked {key : ℕ} {content : Leaf}
    (h : insertNewLeaf n key content s = some (.linked s')) :
    ∃ leafbuf blocks leaves tree cursor', s.leaves = (leafbuf, blocks) :: leaves ∧
      insertLeaf s.tree.toTree n blocks s.cursor key leafbuf false = some (tree, cursor') ∧
      s' = ⟨⟨tree, Function.update s.tree.leaf leafbuf content⟩, cursor',
        (dwalkProbe content key).1, leaves⟩ := by
  unfold insertNewLeaf at h
  split at h
  · cases h
  · next leafbuf blocks leaves hleaves =>
      dsimp only at h
      split at h
      · obtain ⟨tree, -, h⟩ := Option.map_eq_some_iff.mp h
        cases h
      · next tree cursor hinsert =>
          obtain ⟨-, h⟩ := Option.ite_none_right_eq_some.mp h
          cases h
          exact ⟨leafbuf, blocks, leaves, tree, cursor, hleaves, hinsert, rfl⟩

/-- The state with a new leaf behind the one of the cursor. -/
structure Spilled (ok : ℕ × Extent → Prop) (blocksize n room key : ℕ) (a mapped : List (ℕ × ℕ))
    (stock : List ℕ) (done : List (ℕ × ℕ)) (content : Leaf) (s' : PackState) : Prop where
  good : s'.tree.GoodFor ok blocksize n
  place : ∃ b, s'.tree.leafList = b ++ (key, s'.cursor.leaf) :: a ∧
    leavesMapping s'.tree.leaf b = done
  leaf : s'.tree.leaf s'.cursor.leaf = content
  rest : leavesMapping s'.tree.leaf a = mapped
  steady : Steady s'.tree.toTree n room s'.cursor
  walk : s'.walk = (dwalkProbe content key).1
  nodup : ((s'.tree.blocks ++ s'.tree.mapping.map Prod.snd) ++
    (stock ++ leafStock s'.leaves)).Nodup

theorem Front.fresh {leafbuf : ℕ} {blocks : List ℕ} {leaves : List (ℕ × List ℕ)}
    (h : Front ok blocksize n a mapped stock done next ps s)
    (hleaves : s.leaves = (leafbuf, blocks) :: leaves) :
    (leafbuf :: blocks ++ s.tree.blocks).Nodup := by
  have hnodup := h.nodup
  rw [hleaves] at hnodup
  have hless : (s.tree.blocks ++ (leafbuf :: blocks)).Nodup := by
    refine hnodup.sublist (List.Sublist.append (List.sublist_append_left _ _) ?_)
    refine List.Sublist.trans ?_ (List.sublist_append_right _ _)
    refine List.Sublist.trans ?_ (List.sublist_append_right _ _)
    exact List.sublist_append_left _ _
  exact (List.perm_append_comm.nodup_iff).mp hless

theorem Front.spilled {key room : ℕ} {content : Leaf} {r : List ℕ}
    (h : Front ok blocksize n a mapped stock done next ps s) (hn : 2 ≤ n)
    (hroom : (n + 1) / 2 + 1 + room ≤ n) (hsteady : Steady s.tree.toTree n (room + 1) s.cursor)
    (hfit : Fitting ok blocksize key a content) (hkey : next ≤ key)
    (hne : (s.tree.leaf s.cursor.leaf).pairs ≠ [])
    (hstock : (ps.flatMap (fun p => extentBlocks p.pair) ++ stock).Perm
      (content.mapping.map Prod.snd ++ r))
    (hinsert : insertNewLeaf n key content s = some (.linked s')) :
    Spilled ok blocksize n room key a mapped r done content s' := by
  obtain ⟨leafbuf, blocks, leaves, tree, cursor', hleaves, hinsert', rfl⟩ :=
    insertNewLeaf_linked hinsert
  obtain ⟨b, low, hlist, hlow, hdone⟩ := h.place
  have hmem : (low, s.cursor.leaf) ∈ s.tree.leafList := by
    rw [hlist]
    exact List.mem_append_right b List.mem_cons_self
  have hlt : low < key := by
    obtain ⟨q, l, hq⟩ := List.exists_cons_of_ne_nil hne
    have hin : q ∈ (s.tree.leaf s.cursor.leaf).pairs := hq ▸ List.mem_cons_self
    have habove := h.good.wellFormed.above _ hmem q hin
    have hpos := ((h.good.wellFormed.ordered _ hmem).counts q hin).1
    have hend := h.ends q hin
    dsimp only at habove
    omega
  have hwhole : s.tree.mapping = done ++ mapped := by
    rw [Dtree.mapping, hlist, List.append_cons, leavesMapping_append, hdone, h.rest]
  have hnodup : ((leafbuf :: blocks ++ (s.tree.blocks ++ (s.tree.mapping.map Prod.snd ++
      content.mapping.map Prod.snd))) ++ (r ++ leafStock leaves)).Nodup := by
    refine (List.Perm.nodup_iff ?_).mp h.nodup
    rw [hleaves]
    refine List.perm_iff_count.mpr fun x => ?_
    have hcount := hstock.count_eq x
    simp only [List.count_append, leafStock, List.flatMap_cons, List.count_cons,
      List.cons_append] at hcount ⊢
    omega
  have hfirst := (List.nodup_append.mp hnodup).1
  have hfresh := h.fresh hleaves
  have hnew : leafbuf ∉ s.tree.blocks := fun hin =>
    (List.nodup_append.mp hfresh).2.2 leafbuf List.mem_cons_self leafbuf hin rfl
  have hadd := leafAdded_of_insert content hn h.good.wellFormed hlist hroom hsteady hfresh hinsert'
  have hmapping := hadd.mapping hlist hnew
  obtain ⟨used, rest, rfl, hperm⟩ := hadd.blocks
  have hsame : ∀ l : List (ℕ × ℕ), (∀ x ∈ l, x ∈ s.tree.leafList) →
      leavesMapping (Function.update s.tree.leaf leafbuf content) l = leavesMapping s.tree.leaf l :=
    fun l hl => leavesMapping_congr fun x hx => leaf_same hnew (hl x hx)
  have hcursor := hadd.cursor
  refine ⟨Dtree.GoodFor.addLeaf hlist hadd hnew h.good hfit hlt
      (fun q hq => Nat.le_trans (h.ends q hq) hkey) hfirst,
    ⟨b ++ [(low, s.cursor.leaf)], ?_, ?_⟩, ?_, ?_, hadd.steady, rfl, ?_⟩
  · dsimp only
    rw [hcursor, hadd.leafList, ← List.append_cons]
  · rw [← hdone]
    refine hsame _ fun x hx => ?_
    rw [hlist, List.append_cons]
    exact List.mem_append_left _ hx
  · dsimp only
    rw [hcursor, Function.update_self]
  · rw [← h.rest]
    refine hsame _ fun x hx => ?_
    rw [hlist]
    exact List.mem_append_right b (List.mem_cons_of_mem _ hx)
  · have hless : ((leafbuf :: used ++ (s.tree.blocks ++ (s.tree.mapping.map Prod.snd ++
        content.mapping.map Prod.snd))) ++ (r ++ leafStock leaves)).Nodup :=
      hnodup.sublist (List.Sublist.append_right (List.Sublist.append_right
        (List.Sublist.cons_cons _ (List.sublist_append_left used rest)) _) _)
    refine (List.Perm.nodup_iff ?_).mp hless
    dsimp only
    rw [hmapping, hdone, h.rest, hwhole]
    refine List.perm_iff_count.mpr fun x => ?_
    have hcount := hperm.count_eq x
    simp only [List.map_append, List.count_append] at hcount ⊢
    omega

theorem Room.steady {pieces room : ℕ} (h : Room n pieces s)
    (hroom : ∀ added, 248 ≤ dleafFree (s.tree.leaf s.cursor.leaf) + 16 * added →
      room ≤ (pieces + added) / 15 + 1) : Steady s.tree.toTree n room s.cursor := by
  rcases h with hpath | ⟨added, hfree, path, hpath, hlast, hcase⟩
  · exact ⟨_, hpath, rfl, .inl rfl⟩
  · refine ⟨path, hpath, hlast, hcase.imp_right fun hle a ha => ?_⟩
    have hle := hle a ha
    have hmore := hroom added hfree
    omega

theorem Room.full {pieces : ℕ} (h : Room n pieces s)
    (hfull : dleafFree (s.tree.leaf s.cursor.leaf) < DLEAF_MAX_EXTENT_SIZE) :
    Steady s.tree.toTree n (pieces / 15 + 1 + 1) s.cursor := by
  refine h.steady fun added hfree => ?_
  rw [DLEAF_MAX_EXTENT_SIZE] at hfull
  omega

theorem init_atEnd (key : ℕ) :
    AtEnd (dleafInit blocksize) (dwalkProbe (dleafInit blocksize) key).1 :=
  ⟨rfl, rfl, rfl, rfl⟩

theorem init_fitting {key : ℕ} (hblocksize : 8 ≤ blocksize) (hhigh : ∀ y ∈ a, key < y.1) :
    Fitting ok blocksize key a (dleafInit blocksize) where
  sound := dleafInit_sound hblocksize
  ordered := ⟨.nil, .nil, fun _ hq => nomatch hq⟩
  extents := fun _ hq => nomatch hq
  spare := dleafInit_spare
  high := hhigh
  above := fun _ hq => nomatch hq
  below := fun _ hq => nomatch hq

theorem pairs_of_full (h : leaf.Sound blocksize) (hblocksize : 256 ≤ blocksize)
    (hfull : dleafFree leaf < DLEAF_MAX_EXTENT_SIZE) : leaf.pairs ≠ [] := by
  intro hnil
  rw [h.eq_init hnil, DLEAF_MAX_EXTENT_SIZE, dleafFree, dleafInit] at hfull
  dsimp only at hfull
  omega

/-- A round without room gets a new leaf. -/
theorem Front.spill (h : Front ok blocksize n a mapped stock done next (p :: ps) s)
    (hpack : Packable ok a next (p :: ps)) (hkey : p.key = p.index)
    (hfull : dleafFree (s.tree.leaf s.cursor.leaf) < DLEAF_MAX_EXTENT_SIZE) (hn : 15 ≤ n)
    (hlen : (n + 1) / 2 + (p :: ps).length / 15 + 2 ≤ n) (hblocksize : 256 ≤ blocksize)
    (hinsert : insertNewLeaf n p.key (dleafInit blocksize) s = some (.linked s')) :
    Front ok blocksize n a mapped stock done p.index (p :: ps) s' ∧
      DLEAF_MAX_EXTENT_SIZE ≤ dleafFree (s'.tree.leaf s'.cursor.leaf) := by
  have hsound : (s.tree.leaf s.cursor.leaf).Sound blocksize := by
    obtain ⟨b, low, hlist, -⟩ := h.place
    refine h.good.wellFormed.sound (low, s.cursor.leaf) ?_
    rw [hlist]
    exact List.mem_append_right b List.mem_cons_self
  have hcount := (hpack.counts p List.mem_cons_self).1
  have hhigh : ∀ y ∈ a, p.key < y.1 := fun y hy => by
    have hstop := hpack.stop p List.mem_cons_self y hy
    omega
  have hsteady := h.room.full hfull
  have hspilled := h.spilled (r := (p :: ps).flatMap (fun p => extentBlocks p.pair) ++ stock)
    (by omega) (by omega) hsteady (init_fitting (by omega) hhigh)
    (by rw [hkey]; exact hpack.start p List.mem_cons_self) (pairs_of_full hsound hblocksize hfull)
    (List.Perm.refl _) hinsert
  obtain ⟨hgood, ⟨b, hlist, hdone⟩, hleaf, hrest, hsteady', hwalk, hnodup⟩ := hspilled
  have hfree : dleafFree (s'.tree.leaf s'.cursor.leaf) = blocksize - 8 := by
    rw [hleaf]
    rfl
  refine ⟨⟨hgood, ⟨b, p.key, hlist, Nat.le_of_eq hkey, ?_⟩, hrest, ?_, ?_, .inr ⟨0, ?_, ?_⟩, ?_⟩,
    ?_⟩
  · rw [leavesMapping_append, hdone, leavesMapping_cons, hleaf]
    exact List.append_nil done
  · rw [hleaf]
    exact fun _ hq => absurd hq List.not_mem_nil
  · rw [hleaf, hwalk]
    exact init_atEnd p.key
  · omega
  · exact hsteady'
  · rw [← List.append_assoc ((p :: ps).flatMap _)]
    exact hnodup
  · rw [hfree, DLEAF_MAX_EXTENT_SIZE]
    omega

/-! ## The loop -/

section
variable (hn : 15 ≤ n) (hblocksize : 256 ≤ blocksize)
include hn hblocksize

/-- A round. Only the part below the region is packed at another index than the one that a new leaf
would get. -/
theorem Front.round (h : Front ok blocksize n a mapped stock done next (p :: ps) s)
    (hpack : Packable ok a next (p :: ps)) (hlen : (n + 1) / 2 + (p :: ps).length / 15 + 2 ≤ n)
    (hkey : p.key = p.index ∨ DLEAF_MAX_EXTENT_SIZE ≤ dleafFree (s.tree.leaf s.cursor.leaf))
    (hround : packPiece blocksize n p s = some (.done s')) :
    Front ok blocksize n a mapped stock (done ++ indexBlocks p.pair) (p.index + p.extent.count)
        ps s' ∧
      (s'.tree.leaf s'.cursor.leaf).pairs ≠ [] := by
  have hadded : ∀ {s₁ : PackState} {next₁ : ℕ},
      Front ok blocksize n a mapped stock done next₁ (p :: ps) s₁ → Packable ok a next₁ (p :: ps) →
      DLEAF_MAX_EXTENT_SIZE ≤ dleafFree (s₁.tree.leaf s₁.cursor.leaf) →
      (dwalkAdd blocksize (s₁.tree.leaf s₁.cursor.leaf) s₁.walk p.index p.extent).map (fun r =>
        Packed.done { s₁ with
          tree := { s₁.tree with leaf := Function.update s₁.tree.leaf s₁.cursor.leaf r.1 }
          walk := r.2 }) = some (.done s') →
      Front ok blocksize n a mapped stock (done ++ indexBlocks p.pair) (p.index + p.extent.count) ps
          s' ∧
        (s'.tree.leaf s'.cursor.leaf).pairs ≠ [] := by
    intro s₁ next₁ hfront hpack₁ hfree hmap
    obtain ⟨⟨leaf', walk'⟩, hadd, heq⟩ := Option.map_eq_some_iff.mp hmap
    cases heq
    obtain ⟨hfront', hne⟩ := hfront.add hpack₁ hfree hadd
    refine ⟨hfront', ?_⟩
    dsimp only
    rw [Function.update_self]
    exact hne
  unfold packPiece at hround
  dsimp only at hround
  split at hround
  · next hfull =>
      have hkey' := hkey.resolve_right (Nat.not_le.mpr hfull)
      split at hround
      · cases hround
      · cases hround
      · cases hround
      · next s₁ hinsert =>
          obtain ⟨hfront, hfree⟩ := h.spill hpack hkey' hfull hn hlen hblocksize hinsert
          exact hadded hfront hpack.from_index hfree hround
  · next hfree => exact hadded h hpack (Nat.not_lt.mp hfree) hround

/-- The loop over the pieces. -/
theorem Front.rounds (h : Front ok blocksize n a mapped stock done next ps s)
    (hpack : Packable ok a next ps) (hlen : (n + 1) / 2 + ps.length / 15 + 2 ≤ n)
    (hfirst : ∀ p ∈ ps.head?, p.key = p.index ∨
      DLEAF_MAX_EXTENT_SIZE ≤ dleafFree (s.tree.leaf s.cursor.leaf))
    (hkeys : ∀ p ∈ ps.tail, p.key = p.index)
    (hrun : packAll blocksize n ps s = some (.done s')) :
    ∃ next', Front ok blocksize n a mapped stock (done ++ ps.flatMap fun p => indexBlocks p.pair)
        next' [] s' ∧
      (ps ≠ [] → (s'.tree.leaf s'.cursor.leaf).pairs ≠ []) ∧
      ∀ k, next ≤ k → (∀ p ∈ ps, p.index + p.extent.count ≤ k) → next' ≤ k := by
  induction ps generalizing s done next with
  | nil =>
      rw [packAll] at hrun
      cases hrun
      refine ⟨next, ?_, fun hne => absurd rfl hne, fun k hk _ => hk⟩
      rw [List.flatMap_nil, List.append_nil]
      exact h
  | cons p ps ih =>
      rw [packAll] at hrun
      split at hrun
      · next s₁ hround =>
          obtain ⟨hfront, hne⟩ := h.round hn hblocksize hpack hlen (hfirst p rfl) hround
          have hlen' : (n + 1) / 2 + ps.length / 15 + 2 ≤ n := by
            rw [List.length_cons] at hlen
            omega
          obtain ⟨next', hfront', hne', hle⟩ := ih hfront hpack.tail hlen'
            (fun q hq => .inl (hkeys q (List.mem_of_mem_head? hq)))
            (fun q hq => hkeys q (List.mem_of_mem_tail hq)) hrun
          refine ⟨next', ?_, fun _ => ?_, fun k _ hk => ?_⟩
          · rw [List.flatMap_cons, ← List.append_assoc]
            exact hfront'
          · cases ps with
            | nil =>
                rw [packAll] at hrun
                cases hrun
                exact hne
            | cons q ps => exact hne' (List.cons_ne_nil q ps)
          · exact hle k (hk p List.mem_cons_self) fun q hq => hk q (List.mem_cons_of_mem p hq)
      · next hother =>
          exact absurd hrun (hother s')

omit hblocksize

/-- The extents behind the region, in the leaf or in one of their own. -/
theorem Front.tail {tailkey : ℕ} {tail : Leaf} {r : List ℕ}
    (h : Front ok blocksize n a mapped stock done next [] s) (hfour : 4 ∣ blocksize)
    (hfit : Fitting ok blocksize tailkey a tail) (hnext : next ≤ tailkey)
    (hne : (s.tree.leaf s.cursor.leaf).pairs ≠ [])
    (hstock : stock.Perm (tail.mapping.map Prod.snd ++ r))
    (hrun : packTail blocksize n tailkey tail s = some (.done s')) :
    s'.tree.GoodFor ok blocksize n ∧ s'.tree.mapping = done ++ tail.mapping ++ mapped := by
  unfold packTail at hrun
  dsimp only at hrun
  split at hrun
  · next hneed =>
      obtain ⟨merged, hmerge, heq⟩ := Option.map_eq_some_iff.mp hrun
      cases heq
      obtain ⟨b, low, hlist, hlow, hdone⟩ := h.place
      have hmem : (low, s.cursor.leaf) ∈ s.tree.leafList := by
        rw [hlist]
        exact List.mem_append_right b List.mem_cons_self
      have hsound : (s.tree.leaf s.cursor.leaf).Sound blocksize := h.good.wellFormed.sound _ hmem
      have hordered : (s.tree.leaf s.cursor.leaf).Ordered := h.good.wellFormed.ordered _ hmem
      have happart : ∀ p ∈ (s.tree.leaf s.cursor.leaf).pairs, ∀ q ∈ tail.pairs,
          p.1 + p.2.count ≤ q.1 := fun p hp q hq =>
        Nat.le_trans (h.ends p hp) (Nat.le_trans hnext (hfit.above q hq))
      obtain ⟨merged', hmerge', hpairs, hsound', -⟩ := dleafMerge_appends hsound hfit.sound
        (fun p hp q hq => by
          have hpos := (hordered.counts p hp).1
          have hle := happart p hp q hq
          omega) (Nat.le_of_lt hneed)
      obtain rfl := Option.some.inj (hmerge.symm.trans hmerge')
      have hold : ∀ q ∈ merged.pairs, q ∈ (s.tree.leaf s.cursor.leaf).pairs ∨ q ∈ tail.pairs := by
        rw [hpairs]
        exact fun q hq => List.mem_append.mp hq
      have hmapping : merged.mapping = (s.tree.leaf s.cursor.leaf).mapping ++ tail.mapping := by
        rw [Leaf.mapping, hpairs, List.flatMap_append, Leaf.mapping, Leaf.mapping]
      have hdone' : done = leavesMapping s.tree.leaf b ++ (s.tree.leaf s.cursor.leaf).mapping := by
        rw [← hdone, leavesMapping_append, leavesMapping_cons]
        exact congrArg _ (List.append_nil _)
      have hwhole : s.tree.mapping = done ++ mapped := by
        rw [Dtree.mapping, hlist, leavesMapping_append, leavesMapping_cons, hdone', h.rest,
          List.append_assoc]
      have hset : (s.tree.setLeaf s.cursor.leaf merged).mapping =
          done ++ tail.mapping ++ mapped := by
        rw [setLeaf_mapping h.good.wellFormed hlist, hmapping, hdone', h.rest]
        simp only [List.append_assoc]
      refine ⟨h.good.setLeaf hlist hsound' ?_ ?_ ?_ ?_ ?_ ?_, hset⟩
      · refine ordered_of_apart ?_ fun q hq => ?_
        · rw [hpairs, List.pairwise_append]
          exact ⟨hordered.apart, hfit.ordered.apart, happart⟩
        · rcases hold q hq with hq | hq
          · exact hordered.counts q hq
          · exact hfit.ordered.counts q hq
      · intro q hq
        rcases hold q hq with hq | hq
        · exact h.good.extents _ hmem q hq
        · exact hfit.extents q hq
      · refine .merge hsound hfit.sound hsound' hfour ?_ hneed hmerge
        rw [hpairs, List.length_append]
      · intro q hq
        rcases hold q hq with hq | hq
        · exact h.good.wellFormed.above _ hmem q hq
        · exact Nat.le_trans (Nat.le_trans hlow hnext) (hfit.above q hq)
      · intro q hq y hy
        rcases hold q hq with hq | hq
        · have hbelow := h.good.wellFormed.below
          rw [hlist] at hbelow
          exact (List.pairwise_cons.mp (List.pairwise_append.mp hbelow).2.1).1 y hy q hq
        · exact hfit.below q hq y hy
      · have hnodup : ((s.tree.blocks ++
            (s.tree.setLeaf s.cursor.leaf merged).mapping.map Prod.snd) ++
              (r ++ leafStock s.leaves)).Nodup := by
          refine (List.Perm.nodup_iff ?_).mp h.nodup
          rw [hset, hwhole]
          refine List.perm_iff_count.mpr fun x => ?_
          have hcount := hstock.count_eq x
          simp only [List.map_append, List.count_append, List.flatMap_nil, List.count_nil]
            at hcount ⊢
          omega
        exact (List.nodup_append.mp hnodup).1
  · split at hrun
    · cases hrun
    · split at hrun
      · cases hrun
      · cases hrun
      · cases hrun
      · next s₁ hinsert =>
          cases hrun
          have hsteady : Steady s.tree.toTree n (0 + 1) s.cursor :=
            h.room.steady fun added _ => Nat.le_add_left _ _
          obtain ⟨hgood, ⟨b, hlist, hdone⟩, hleaf, hrest, -⟩ :=
            h.spilled (by omega) (by omega) hsteady hfit hnext hne hstock hinsert
          refine ⟨hgood, ?_⟩
          rw [Dtree.mapping, hlist, leavesMapping_append, leavesMapping_cons, hdone, hleaf, hrest,
            List.append_assoc]

end

end

end Tux3.MapRegion
