import Tux3.MapCall

/-!
# Runs of `map_region` and `tree_chop`

A file btree is read as a partial function. From an empty btree on, every call returns segments for
a first part of its region, and changes the function there only.
-/
namespace Tux3.TreeChop

open Btree Dleaf

/-- What the btree maps an index to. -/
def Dtree.read (t : Dtree) (index : ℕ) : Option ℕ := t.mapping.lookup index

section
variable {t : Dtree} {blocksize n index block : ℕ}

theorem indexBlocks_sorted (p : ℕ × Extent) :
    (indexBlocks p).Pairwise fun x y => x.1 < y.1 := by
  rw [indexBlocks, List.pairwise_map]
  exact List.pairwise_lt_range'

theorem indexBlocks_lt {p q : ℕ × Extent} (h : p.1 + p.2.count ≤ q.1) :
    ∀ x ∈ indexBlocks p, ∀ y ∈ indexBlocks q, x.1 < y.1 := by
  intro x hx y hy
  obtain ⟨i, hi, hxi, -⟩ := mem_indexBlocks.mp hx
  obtain ⟨j, hj, hyj, -⟩ := mem_indexBlocks.mp hy
  omega

theorem Dtree.WellFormed.mapping_sorted (h : t.WellFormed blocksize n) :
    t.mapping.Pairwise fun x y => x.1 < y.1 := by
  rw [Dtree.mapping, leavesMapping, List.pairwise_flatMap]
  refine ⟨fun x hx => ?_, ?_⟩
  · rw [Leaf.mapping, List.pairwise_flatMap]
    exact ⟨fun p _ => indexBlocks_sorted p, (h.ordered x hx).apart.imp indexBlocks_lt⟩
  · refine h.below.imp_of_mem fun {x y} _ hy hxy u hu v hv => ?_
    obtain ⟨p, hp, hu⟩ := List.mem_flatMap.mp hu
    obtain ⟨q, hq, hv⟩ := List.mem_flatMap.mp hv
    exact indexBlocks_lt (Nat.le_trans (hxy p hp) (h.above y hy q hq)) u hu v hv

theorem Dtree.WellFormed.read_iff (h : t.WellFormed blocksize n) :
    t.read index = some block ↔ (index, block) ∈ t.mapping := by
  rw [Dtree.read, List.lookup_eq_some_iff]
  constructor
  · rintro ⟨l, r, heq, -⟩
    rw [heq]
    exact List.mem_append_right l List.mem_cons_self
  · intro hin
    obtain ⟨l, r, heq⟩ := List.append_of_mem hin
    refine ⟨l, r, heq, fun x hx => ?_⟩
    have hsorted := h.mapping_sorted
    rw [heq] at hsorted
    have hlt := (List.pairwise_append.mp hsorted).2.2 x hx _ List.mem_cons_self
    exact bne_iff_ne.mpr (Nat.ne_of_gt hlt)

end

section
variable {blocksize n key rounds more : ℕ}

theorem chopRun_more {c : Chop × Control} {s : Chop} (hle : rounds ≤ more)
    (h : chopRun blocksize n key rounds c = some (s, .finished)) :
    chopRun blocksize n key more c = some (s, .finished) := by
  induction rounds generalizing more c with
  | zero =>
      cases h
      cases more with
      | zero => rfl
      | succ more => rfl
  | succ rounds ih =>
      obtain ⟨more, rfl⟩ := Nat.exists_eq_add_of_le' (Nat.lt_of_lt_of_le rounds.succ_pos hle)
      obtain ⟨s₀, control⟩ := c
      have hstep : control ≠ .finished →
          (chopStep blocksize n key (s₀, control)).bind (chopRun blocksize n key rounds) =
              some (s, .finished) →
            (chopStep blocksize n key (s₀, control)).bind (chopRun blocksize n key more) =
              some (s, .finished) := by
        intro _ hbind
        obtain ⟨c', hc', hrun⟩ := Option.bind_eq_some_iff.mp hbind
        exact Option.bind_eq_some_iff.mpr ⟨c', hc', ih (Nat.le_of_succ_le_succ hle) hrun⟩
      cases control with
      | finished => exact h
      | atLeaf path leafbuf => exact hstep (by simp) h
      | popping path => exact hstep (by simp) h

theorem treeChop_more {t : Dtree} {s : Chop} (hle : rounds ≤ more)
    (h : treeChop blocksize n key rounds t = some s) :
    treeChop blocksize n key more t = some s := by
  unfold treeChop at h ⊢
  split at h
  · rwa [if_pos ‹_›]
  · rw [if_neg ‹_›]
    split at h
    · cases h
    · split at h
      · rename_i s' hrun
        cases h
        rw [chopRun_more hle hrun]
      · cases h

end

end Tux3.TreeChop

namespace Tux3.MapRegion

open Btree Dleaf TreeChop

/-! ## Around a region -/

/-- The btree maps a region as the segments say. -/
def Agrees (t : Dtree) (start : ℕ) (segs : List Seg) : Prop :=
  ∀ x ∈ placed start segs, ∀ i < x.2.count,
    t.read (x.1 + i) = if x.2.state = .hole then none else some (x.2.block + i)

/-- A btree with what the segments say between two parts. -/
structure Around (t : Dtree) (blocksize n start : ℕ) (segs : List Seg)
    (left right : List (ℕ × ℕ)) : Prop where
  wellFormed : t.WellFormed blocksize n
  mapping : t.mapping = left ++ (segPairs start segs).flatMap indexBlocks ++ right
  left_lt : ∀ x ∈ left, x.1 < start
  right_ge : ∀ x ∈ right, start + total segs ≤ x.1

section
variable {t t' : Dtree} {blocksize n start index block : ℕ} {segs segs' : List Seg}
  {left right : List (ℕ × ℕ)}

theorem placed_same {x y : ℕ × Seg} (hx : x ∈ placed start segs) (hy : y ∈ placed start segs)
    (hxi : x.1 ≤ index ∧ index < x.1 + x.2.count) (hyi : y.1 ≤ index ∧ index < y.1 + y.2.count) :
    x = y := by
  by_contra hne
  have hall := List.pairwise_iff_getElem.mp (@placed_apart start segs)
  obtain ⟨i, hi, rfl⟩ := List.getElem_of_mem hx
  obtain ⟨j, hj, rfl⟩ := List.getElem_of_mem hy
  rcases Nat.lt_trichotomy i j with hlt | rfl | hlt
  · have hle := hall i j hi hj hlt
    omega
  · exact hne rfl
  · have hle := hall j i hj hi hlt
    omega

theorem mem_segBlocks : (index, block) ∈ (segPairs start segs).flatMap indexBlocks ↔
    ∃ x ∈ placed start segs, x.2.state ≠ .hole ∧
      ∃ i < x.2.count, index = x.1 + i ∧ block = x.2.block + i := by
  rw [List.mem_flatMap]
  constructor
  · rintro ⟨p, hp, hin⟩
    obtain ⟨x, hx, hstate, rfl⟩ := mem_segPairs.mp hp
    exact ⟨x, hx, hstate, mem_indexBlocks.mp hin⟩
  · rintro ⟨x, hx, hstate, hin⟩
    exact ⟨_, mem_segPairs.mpr ⟨x, hx, hstate, rfl⟩, mem_indexBlocks.mpr hin⟩

theorem Around.read_iff (h : Around t blocksize n start segs left right) :
    t.read index = some block ↔ (index, block) ∈ left ∨
      (∃ x ∈ placed start segs, x.2.state ≠ .hole ∧
        ∃ i < x.2.count, index = x.1 + i ∧ block = x.2.block + i) ∨ (index, block) ∈ right := by
  rw [h.wellFormed.read_iff, h.mapping, List.mem_append, List.mem_append, mem_segBlocks, or_assoc]

theorem Around.agrees (h : Around t blocksize n start segs left right) : Agrees t start segs := by
  intro x hx i hi
  obtain ⟨hlow, hhigh⟩ := placed_bounds hx
  split
  · rename_i hhole
    refine Option.eq_none_iff_forall_ne_some.mpr fun block hread => ?_
    rcases h.read_iff.mp hread with hin | ⟨y, hy, hstate, j, hj, heq, -⟩ | hin
    · have hlt := h.left_lt _ hin
      dsimp only at hlt
      omega
    · have hsame := @placed_same start (x.1 + i) segs x y hx hy ⟨by omega, by omega⟩
        ⟨by omega, by omega⟩
      exact hstate (hsame ▸ hhole)
    · have hge := h.right_ge _ hin
      dsimp only at hge
      omega
  · rename_i hstate
    exact h.read_iff.mpr (.inr (.inl ⟨x, hx, hstate, i, hi, rfl, rfl⟩))

theorem Around.read_outside (h : Around t blocksize n start segs left right)
    (hout : index < start ∨ start + total segs ≤ index) :
    t.read index = some block ↔ (index, block) ∈ left ∨ (index, block) ∈ right := by
  rw [h.read_iff]
  refine or_congr_right (or_iff_right ?_)
  rintro ⟨x, hx, -, i, hi, rfl, -⟩
  obtain ⟨hlow, hhigh⟩ := placed_bounds hx
  omega

theorem Around.outside (h : Around t blocksize n start segs left right)
    (h' : Around t' blocksize n start segs' left right) (htotal : total segs' = total segs)
    (hout : index < start ∨ start + total segs' ≤ index) : t'.read index = t.read index := by
  refine Option.ext fun block => ?_
  rw [h'.read_outside hout, h.read_outside (htotal ▸ hout)]

end

/-! ## Runs -/

/-- `calc_entries_per_node`. -/
def calcEntriesPerNode (blocksize : ℕ) : ℕ := (blocksize - 8) / 16

theorem blocksize_bounds {blockbits : ℕ} (h : 8 ≤ blockbits) :
    256 ≤ 2 ^ blockbits ∧ 4 ∣ 2 ^ blockbits ∧ 15 ≤ calcEntriesPerNode (2 ^ blockbits) := by
  have hle : 2 ^ 8 ≤ 2 ^ blockbits := Nat.pow_le_pow_right (by decide) h
  refine ⟨hle, Nat.pow_dvd_pow 2 (by omega : 2 ≤ blockbits), ?_⟩
  rw [calcEntriesPerNode]
  omega

section
variable {t : Dtree} {blocksize n root leaf start count maxSegs create : ℕ} {supply : Supply}
  {m : Mapped} {segs : List Seg}

theorem emptyBtree_leafList :
    (emptyBtree blocksize root leaf t).leafList = [(0, leaf)] := by
  simp [emptyBtree, Dtree.leafList, leaves, keyed]

theorem emptyBtree_blocks : (emptyBtree blocksize root leaf t).blocks = [root, leaf] := by
  simp [emptyBtree, Dtree.blocks, blocksOf]

theorem emptyBtree_mapping : (emptyBtree blocksize root leaf t).mapping = [] := by
  rw [Dtree.mapping, emptyBtree_leafList, leavesMapping_cons, emptyBtree]
  dsimp only
  rw [Function.update_self]
  rfl

theorem emptyBtree_good (hne : root ≠ leaf) (hn : 0 < n) (hblocksize : 8 ≤ blocksize) :
    (emptyBtree blocksize root leaf t).Good blocksize n := by
  have hleaf : ∀ x ∈ (emptyBtree blocksize root leaf t).leafList,
      (emptyBtree blocksize root leaf t).leaf x.2 = dleafInit blocksize := by
    rw [emptyBtree_leafList]
    intro x hx
    rw [List.mem_singleton.mp hx]
    exact Function.update_self _ _ _
  have hnone : ∀ x ∈ (emptyBtree blocksize root leaf t).leafList,
      ((emptyBtree blocksize root leaf t).leaf x.2).pairs = [] := fun x hx => by
    rw [hleaf x hx]
    rfl
  refine ⟨⟨⟨?_, ?_, ?_⟩, Nat.one_pos, ?_, fun x hx => hleaf x hx ▸ dleafInit_sound hblocksize,
    fun x hx => ?_, fun x hx p hp => ?_, ?_, ?_⟩, fun x hx p hp => ?_, fun x hx => ?_⟩
  · simpa [emptyBtree, Sized] using Nat.succ_le_of_lt hn
  · change (Dtree.blocks (emptyBtree blocksize root leaf t)).Nodup
    rw [emptyBtree_blocks]
    simpa using hne
  · change ((Dtree.leafList (emptyBtree blocksize root leaf t)).map Prod.fst).Pairwise _
    rw [emptyBtree_leafList]
    exact List.pairwise_singleton _ _
  · rw [emptyBtree_leafList]
    exact List.pairwise_singleton _ _
  · rw [hleaf x hx]
    exact ⟨.nil, .nil, fun p hp => absurd hp List.not_mem_nil⟩
  · rw [hnone x hx] at hp
    cases hp
  · rw [emptyBtree_leafList]
    exact List.pairwise_singleton _ _
  · rw [Dtree.dataBlocks_eq, emptyBtree_mapping, emptyBtree_blocks]
    simpa using hne
  · rw [hnone x hx] at hp
    cases hp
  · rw [hleaf x hx]
    exact dleafInit_spare

end

/-- The btrees that runs of `map_region` and `tree_chop` leave, from an empty one on. -/
inductive Reachable (blocksize : ℕ) : Dtree → Prop where
  | empty (t : Dtree) {root leaf : ℕ} (hroot : root ≠ 0) (hleaf : leaf ≠ 0) (hne : root ≠ leaf) :
      Reachable blocksize (emptyBtree blocksize root leaf t)
  | map {t : Dtree} {start count maxSegs create : ℕ} {supply : Supply} {m : Mapped}
      {segs : List Seg} (h : Reachable blocksize t) (hregion : Region start count maxSegs)
      (hcreate : create ≤ 2)
      (hcall : mapRegion blocksize (calcEntriesPerNode blocksize) t supply start count maxSegs
        create = some m) (hsegs : m.map = some segs)
      (hhanded : Handed t m.allocated supply.leaves) :
      Reachable blocksize m.tree
  | chop {t : Dtree} {key rounds : ℕ} {s : Chop} (h : Reachable blocksize t) (hkey : key < 2 ^ 56)
      (hchop : treeChop blocksize (calcEntriesPerNode blocksize) key rounds t = some s) :
      Reachable blocksize s.tree

/-! ## Calls -/

section
variable {blocksize n start count maxSegs create : ℕ} {t : Dtree} {supply : Supply} {m : Mapped}
  {segs : List Seg}

theorem hasRoot_of_good {ok : ℕ × Extent → Prop} (h : t.GoodFor ok blocksize n) :
    t.hasRoot = true := by
  rw [Dtree.hasRoot, Bool.or_eq_true]
  exact .inr (bne_iff_ne.mpr (Nat.ne_of_gt h.wellFormed.depth))

/-- What a call does: it finds its leaf and reads, or it fills the holes and writes. -/
theorem mapProbed_cases {ok : ℕ × Extent → Prop}
    (h : t.GoodFor ok blocksize n) (hclear : Clear t start) (hstart : start < 2 ^ 56)
    (hcount : 1 ≤ count) (hmax : 0 < maxSegs)
    (hcall : mapProbed blocksize n t supply start count maxSegs create = some m)
    (hsegs : m.map = some segs) :
    ∃ cursor b a low gs k l c,
      probeFrom t.node t.depth t.root start = some cursor ∧
      CutAt t blocksize cursor start (min (start + count) (nextKey t.node cursor.path)) maxSegs b a
        low gs k l c ∧
      (create = 0 ∧ segs = c.segs ∧ m = ⟨some segs, t, [], []⟩ ∨
        create ≠ 0 ∧
          Filled (filledState create) start (wanted create c.segs) segs m.allocated ∧
          ∃ s, repack blocksize n (CutPieces start ((pairsOf gs).drop k) c segs) (spot gs l)
            (spot gs k) supply.leaves t cursor = some (.done s) ∧ m.tree = s.tree) := by
  rw [mapProbed] at hcall
  cases hprobe : probeFrom t.node t.depth t.root start with
  | none =>
      rw [hprobe] at hcall
      cases hcall
  | some cursor =>
      obtain ⟨-, -, -, -, -, -, hnext, -⟩ := probed_leaf h hprobe
      have hlt : start < min (start + count) (nextKey t.node cursor.path) :=
        Nat.lt_min.mpr ⟨by omega, hnext ▸ lt_leafEnd (by omega)⟩
      obtain ⟨b, a, low, gs, k, l, c, hcut⟩ := cutAt_of_probe h hstart hclear hprobe hlt hmax
      rw [hprobe] at hcall
      dsimp only at hcall
      rw [hcut.mapLeaf_eq rfl hmax] at hcall
      refine ⟨cursor, b, a, low, gs, k, l, c, rfl, hcut, ?_⟩
      split at hcall
      · cases hcall
        cases hsegs
        exact .inl ⟨‹_›, rfl, rfl⟩
      · split at hcall
        · cases hcall
          cases hsegs
        · rename_i hcreate _ map allocated hfill
          obtain ⟨r, hrun, rfl⟩ := Option.map_eq_some_iff.mp hcall
          cases r with
          | failed tree => cases hsegs
          | done s =>
              cases hsegs
              exact .inr ⟨hcreate, fillHoles_spec hfill, s, hrun, rfl⟩

/-- A call in one range of `2 ^ 24` indexes. -/
theorem mapRegion_cases (h : t.Good blocksize n) (hregion : Region start count maxSegs)
    (hcall : mapRegion blocksize n t supply start count maxSegs create = some m)
    (hsegs : m.map = some segs) :
    ∃ cursor b a low gs k l c,
      probeFrom t.node t.depth t.root start = some cursor ∧
      CutAt t blocksize cursor start (min (start + count) (nextKey t.node cursor.path)) maxSegs b a
        low gs k l c ∧
      (create = 0 ∧ segs = c.segs ∧ m = ⟨some segs, t, [], []⟩ ∨
        create ≠ 0 ∧
          Filled (filledState create) start (wanted create c.segs) segs m.allocated ∧
          ∃ s, repack blocksize n (CutPieces start ((pairsOf gs).drop k) c segs) (spot gs l)
            (spot gs k) supply.leaves t cursor = some (.done s) ∧ m.tree = s.tree) := by
  have hcount := hregion.count_pos
  have hstop := hregion.stop
  rw [mapRegion, if_pos (hasRoot_of_good h.goodFor)] at hcall
  exact mapProbed_cases h.goodFor (clear_of_good h start) (by omega) hcount hregion.segs hcall hsegs

section
variable {cursor : Cursor} {limit low k l : ℕ} {a b allocated : List (ℕ × ℕ)} {gs : List Bunch}
  {c : Cut} {ok : ℕ × Extent → Prop}

theorem CutAt.around (h : CutAt t blocksize cursor start limit maxSegs b a low gs k l c)
    (hgood : t.GoodFor ok blocksize n) :
    Around t blocksize n start c.segs (leftOf t b gs k start) (rightOf t a c) :=
  ⟨hgood.wellFormed, h.mapping, h.left_lt hgood, fun x hx => h.spec.stop ▸ h.right_ge hgood x hx⟩

theorem Filled.no_hole {map : List Seg}
    (h : Filled (filledState create) start map segs allocated) : ∀ s ∈ segs, s.state ≠ .hole := by
  intro s hs hhole
  obtain ⟨x, hx, rfl⟩ := @placed_of_mem _ _ start hs
  rcases h.origin x hx with ⟨hstate, -⟩ | ⟨hstate, -⟩
  · exact hstate hhole
  · rw [hhole, filledState] at hstate
    split at hstate
    · cases hstate
    · cases hstate

theorem segPairs_all (h : ∀ s ∈ segs, s.state ≠ .hole) :
    segPairs start segs = (placed start segs).map fun x => (x.1, x.2.extent) := by
  rw [segPairs, List.filter_eq_self.mpr]
  exact fun x hx => decide_eq_true (h x.2 (placed_seg hx))

theorem CutAt.around_written (h : CutAt t blocksize cursor start limit maxSegs b a low gs k l c)
    (hn : 15 ≤ n) (hblocksize : 256 ≤ blocksize) (hfour : 4 ∣ blocksize)
    (hgood : t.GoodFor ok blocksize n) (hok : Inherited ok c.stop) (hmax : 0 < maxSegs)
    (htotal : total c.segs ≤ 64) (hstop : start + total c.segs ≤ 2 ^ 48)
    {leaves : List (ℕ × List ℕ)} (hhanded : Handed t allocated leaves)
    (hfilled : Filled (filledState create) start (wanted create c.segs) segs allocated)
    (hext : ∀ x ∈ placed start segs, ok (x.1, x.2.extent)) {s : PackState}
    (hrun : repack blocksize n (CutPieces start ((pairsOf gs).drop k) c segs) (spot gs l)
      (spot gs k) leaves t cursor = some (.done s)) :
    s.tree.GoodFor ok blocksize n ∧
      Around s.tree blocksize n start segs (leftOf t b gs k start) (rightOf t a c) := by
  obtain ⟨hgood', hmapping⟩ := h.written hn hblocksize hfour hgood hok hmax htotal hstop hhanded
    hfilled hext hrun
  have hsame := (h.filled hgood hmax hhanded hfilled).total
  rw [← segPairs_all hfilled.no_hole] at hmapping
  exact ⟨hgood', hgood'.wellFormed, hmapping, h.left_lt hgood,
    fun x hx => hsame ▸ h.spec.stop ▸ h.right_ge hgood x hx⟩

/-- In one range of `2 ^ 24` indexes the extents stay in such ranges. -/
theorem CutAt.region_written (h : CutAt t blocksize cursor start limit maxSegs b a low gs k l c)
    (hn : 15 ≤ n) (hblocksize : 256 ≤ blocksize) (hfour : 4 ∣ blocksize)
    (hgood : t.Good blocksize n) (hregion : Region start count maxSegs)
    (hlimit : limit ≤ start + count) {leaves : List (ℕ × List ℕ)}
    (hhanded : Handed t allocated leaves)
    (hfilled : Filled (filledState create) start (wanted create c.segs) segs allocated)
    {s : PackState}
    (hrun : repack blocksize n (CutPieces start ((pairsOf gs).drop k) c segs) (spot gs l)
      (spot gs k) leaves t cursor = some (.done s)) :
    s.tree.Good blocksize n ∧
      Around s.tree blocksize n start segs (leftOf t b gs k start) (rightOf t a c) := by
  have hmap := h.filled hgood.goodFor hregion.segs hhanded hfilled
  have hcount := hregion.count_le
  have hlast := hregion.stop
  have hstop := h.spec.stop
  have hle := h.spec.le
  have hsame := hmap.total
  obtain ⟨hgood', haround⟩ := h.around_written hn hblocksize hfour hgood.goodFor
    (inRange_inherited _) hregion.segs (by omega) (by omega) hhanded hfilled
    (hregion.inRange (by omega) hmap.counts) hrun
  exact ⟨hgood'.good, haround⟩

end

theorem mapRegion_good (hn : 15 ≤ n) (hblocksize : 256 ≤ blocksize) (hfour : 4 ∣ blocksize)
    (h : t.Good blocksize n) (hregion : Region start count maxSegs)
    (hcall : mapRegion blocksize n t supply start count maxSegs create = some m)
    (hsegs : m.map = some segs) (hhanded : Handed t m.allocated supply.leaves) :
    m.tree.Good blocksize n := by
  obtain ⟨cursor, b, a, low, gs, k, l, c, -, hcut, hcase⟩ := mapRegion_cases h hregion hcall hsegs
  rcases hcase with ⟨-, -, rfl⟩ | ⟨-, hfilled, s, hrun, htree⟩
  · exact h
  · rw [htree]
    exact (hcut.region_written hn hblocksize hfour h hregion (Nat.min_le_left _ _) hhanded hfilled
      hrun).1

theorem Reachable.good {blockbits : ℕ} (hbits : 8 ≤ blockbits) (h : Reachable (2 ^ blockbits) t) :
    t.Good (2 ^ blockbits) (calcEntriesPerNode (2 ^ blockbits)) := by
  obtain ⟨hblocksize, hfour, hn⟩ := blocksize_bounds hbits
  induction h with
  | empty t _ _ hne => exact emptyBtree_good hne (by omega) (by omega)
  | map _ hregion _ hcall hsegs hhanded ih =>
      exact mapRegion_good hn hblocksize hfour ih hregion hcall hsegs hhanded
  | chop _ hkey hchop ih =>
      rename_i rounds s _
      obtain ⟨s', rounds', hrun, hgood⟩ := ih.chop hkey
      have hmore := treeChop_more (Nat.le_max_left rounds rounds') hchop
      rw [hrun _ (Nat.le_max_right rounds rounds')] at hmore
      cases hmore
      exact hgood

end

/-- An empty btree in blocks 1 and 2. -/
def emptyAt : Dtree := emptyBtree 256 1 2 ⟨⟨fun _ => [], 0, 0⟩, fun _ => dleafInit 256⟩

end Tux3.MapRegion
