import Tux3.MapReads
import Tux3.MapFailure

/-!
# Calls that fail

A call of `map_region` that fails leaves the file as it was only when it fails at the first thing
that it asks for. What it allocated or freed before then is not taken back.
-/
namespace Tux3.MapRegion

open Btree Dleaf TreeChop

/-! ## A failed call -/

/-- What a file maps: nothing without a btree. -/
def contents (t : Dtree) : List (ℕ × ℕ) := if t.hasRoot = true then t.mapping else []

/-- A failed call that changes nothing: the file maps what it mapped, the blocks that were allocated
are mapped, no leaf is left outside of the btree, and no block that is mapped was freed. -/
structure Atomic (t : Dtree) (m : Mapped) : Prop where
  same : ∀ x, x ∈ contents m.tree ↔ x ∈ contents t
  used : ∀ e ∈ m.allocated, ∀ block ∈ callBlocks e, ∃ index, (index, block) ∈ contents m.tree
  linked : t.hasRoot = true → ∀ x ∈ t.leafList, x.2 ∈ m.tree.leafList.map Prod.snd
  kept : ∀ e ∈ m.freed, ∀ block ∈ callBlocks e, ∀ index, (index, block) ∉ contents m.tree

def extents (t : Dtree) : List (ℕ × Extent) := t.leafList.flatMap fun x => (t.leaf x.2).pairs

/-- The call fails at the first allocation: for the btree if there is none yet, or for data. A hole
is reached with a segment left for it, and a region that is redirected begins with a hole and has
nothing else. -/
def FailsFirst (t : Dtree) (supply : Supply) (start count maxSegs create : ℕ) : Prop :=
  if t.hasRoot = true then
    let limit := min (start + count) (leafEnd t start)
    supply.data = [] ∧
      if create = 2 then
        Free (extents t) start ∧
          (maxSegs = 1 ∨ ∀ i, start ≤ i → i < limit → Free (extents t) i)
      else
        ∃ i, start ≤ i ∧ i < limit ∧ Free (extents t) i ∧
          (extents t).countP (fun p => start < p.1 + p.2.count ∧ p.1 < i) < maxSegs
  else supply.root.length < 2 ∨ supply.data = []

section
variable {blocksize n start count maxSegs create : ℕ} {t : Dtree} {supply : Supply} {m : Mapped}

theorem walkSegs_none {leaf : Leaf} {limit left index : ℕ} {walk : Dwalk}
    (h : limit ≤ index ∨ left = 0) : (walkSegs leaf limit left index walk).1 = [] := by
  rcases h with hle | rfl
  · rw [walkSegs_stop hle]
  · rfl

/-- A failed call found its leaf, and failed to fill the holes or to pack. -/
theorem mapProbed_failed (h : t.Good blocksize n) (hstart : start < 2 ^ 56) (hcreate : create ≠ 0)
    (hcall : mapProbed blocksize n t supply start count maxSegs create = some m)
    (hfail : m.map = none) :
    ∃ cursor b a low gs k l c,
      CutAt t blocksize cursor start (min (start + count) (leafEnd t start)) maxSegs b a low gs k l
        c ∧ 0 < maxSegs ∧ m.freed = (if create = 2 then overwritten c.segs else []) ∧
      (∀ e ∈ m.allocated, 0 < e.2) ∧
      (fillHoles (filledState create) supply.data (wanted create c.segs) = (none, m.allocated) ∧
          m.tree = t ∨
        ∃ map, fillHoles (filledState create) supply.data (wanted create c.segs) =
            (some map, m.allocated) ∧
          repack blocksize n (CutPieces start ((pairsOf gs).drop k) c map) (spot gs l) (spot gs k)
            supply.leaves t cursor = some (.failed m.tree)) := by
  rw [mapProbed] at hcall
  cases hprobe : probeFrom t.node t.depth t.root start with
  | none =>
      rw [hprobe] at hcall
      cases hcall
  | some cursor =>
      obtain ⟨-, -, -, -, -, -, hend, -⟩ := probed_leaf h.goodFor hprobe
      rw [hprobe] at hcall
      dsimp only at hcall
      obtain ⟨hlt, hmax⟩ :
          start < min (start + count) (nextKey t.node cursor.path) ∧ 0 < maxSegs := by
        by_contra hnone
        rw [mapLeaf] at hcall
        dsimp only at hcall
        rw [walkSegs_none (by omega)] at hcall
        cases hcall
      obtain ⟨b, a, low, gs, k, l, c, hcut⟩ :=
        cutAt_of_probe h.goodFor hstart (clear_of_good h start) hprobe hlt hmax
      rw [hcut.mapLeaf_eq rfl hmax, if_neg hcreate] at hcall
      have hpos : ∀ e ∈ (fillHoles (filledState create) supply.data (wanted create c.segs)).2,
          0 < e.2 := by
        intro e he
        obtain ⟨s, hs, heq⟩ := fillHoles_counts rfl e he
        exact heq ▸ hcut.wanted_pos hmax s hs
      refine ⟨cursor, b, a, low, gs, k, l, c, hend ▸ hcut, hmax, ?_⟩
      split at hcall
      · next hfill =>
          cases hcall
          rw [hfill] at hpos
          exact ⟨rfl, hpos, .inl ⟨hfill, rfl⟩⟩
      · next map allocated hfill =>
          obtain ⟨r, hrun, rfl⟩ := Option.map_eq_some_iff.mp hcall
          rw [hfill] at hpos
          cases r with
          | done s => cases hfail
          | failed tree => exact ⟨rfl, hpos, .inr ⟨map, hfill, hrun⟩⟩

section
variable {cursor : Cursor} {limit low k l : ℕ} {a b : List (ℕ × ℕ)} {gs : List Bunch} {c : Cut}
  {ok : ℕ × Extent → Prop} (h : CutAt t blocksize cursor start limit maxSegs b a low gs k l c)
  (hgood : t.GoodFor ok blocksize n)
include h hgood

theorem CutAt.laid : Laid ((pairsOf gs).drop k) := by
  have hmem : (low, cursor.leaf) ∈ t.leafList := by
    rw [h.leafList]
    exact List.mem_append_right b List.mem_cons_self
  have hordered : (t.leaf cursor.leaf).Ordered := hgood.wellFormed.ordered _ hmem
  have hapart := hordered.apart
  have hcounts := hordered.counts
  rw [h.leaf_eq, pack_pairs] at hapart hcounts
  exact ⟨hapart.sublist (List.drop_sublist _ _),
    fun p hp => (hcounts p (List.mem_of_mem_drop hp)).1⟩

theorem CutAt.extents_eq : ∃ left right,
    extents t = left ++ (pairsOf gs).drop k ++ right ∧
      (∀ p ∈ left, p.1 + p.2.count ≤ start) ∧ ∀ p ∈ right, limit ≤ p.1 := by
  refine ⟨(b.flatMap fun x => (t.leaf x.2).pairs) ++ (pairsOf gs).take k,
    a.flatMap fun x => (t.leaf x.2).pairs, ?_, fun p hp => ?_, fun p hp => ?_⟩
  · rw [extents, h.leafList, List.flatMap_append, List.flatMap_cons, h.leaf_eq, pack_pairs,
      List.append_assoc (b.flatMap _), List.take_append_drop, List.append_assoc]
  · rcases List.mem_append.mp hp with hp | hp
    · obtain ⟨x, hx, hp⟩ := List.mem_flatMap.mp hp
      have hbelow := hgood.wellFormed.below
      rw [h.leafList] at hbelow
      have hend := (List.pairwise_append.mp hbelow).2.2 x hx (low, cursor.leaf)
        List.mem_cons_self p hp
      exact Nat.le_trans hend h.low_le
    · exact h.ends p hp
  · obtain ⟨x, hx, hp⟩ := List.mem_flatMap.mp hp
    have hmem : x ∈ t.leafList := by
      rw [h.leafList]
      exact List.mem_append_right b (List.mem_cons_of_mem _ hx)
    exact Nat.le_trans (h.limit_le x hx) (hgood.wellFormed.above x hmem p hp)

theorem CutAt.free_iff {i : ℕ} (hlow : start ≤ i) (hhigh : i < limit) :
    Free (extents t) i ↔ Free ((pairsOf gs).drop k) i := by
  obtain ⟨left, right, heq, hleft, hright⟩ := h.extents_eq hgood
  rw [heq]
  refine ⟨fun hfree p hp => hfree p (List.mem_append_left _ (List.mem_append_right _ hp)),
    fun hfree p hp hle => ?_⟩
  rcases List.mem_append.mp hp with hp | hp
  · rcases List.mem_append.mp hp with hp | hp
    · exact Nat.le_trans (hleft p hp) hlow
    · exact hfree p hp hle
  · have hge := hright p hp
    omega

theorem CutAt.before_eq {i : ℕ} (hhigh : i < limit) :
    (extents t).countP (fun p => start < p.1 + p.2.count ∧ p.1 < i) =
      ((pairsOf gs).drop k).countP fun p => p.1 < i := by
  obtain ⟨left, right, heq, hleft, hright⟩ := h.extents_eq hgood
  have hlaid := h.laid hgood
  have hfirst := h.first
  have hlast : ∀ p ∈ (pairsOf gs).drop k, start < p.1 + p.2.count := by
    generalize (pairsOf gs).drop k = l at hlaid hfirst
    cases l with
    | nil => exact fun p hp => absurd hp List.not_mem_nil
    | cons q l =>
        intro p hp
        have hq := hfirst q rfl
        rcases List.mem_cons.mp hp with rfl | hp
        · exact hq
        · have hle := (List.pairwise_cons.mp hlaid.apart).1 p hp
          omega
  have hzeroLeft : left.countP (fun p => start < p.1 + p.2.count ∧ p.1 < i) = 0 := by
    rw [List.countP_eq_zero]
    intro p hp
    have hend := hleft p hp
    rw [decide_eq_true_eq]
    omega
  have hzeroRight : right.countP (fun p => start < p.1 + p.2.count ∧ p.1 < i) = 0 := by
    rw [List.countP_eq_zero]
    intro p hp
    have hge := hright p hp
    rw [decide_eq_true_eq]
    omega
  rw [heq, List.countP_append, List.countP_append, hzeroLeft, hzeroRight, Nat.zero_add,
    Nat.add_zero]
  refine List.countP_congr fun p hp => ?_
  rw [decide_eq_true_eq, decide_eq_true_eq]
  exact and_iff_right (hlast p hp)

theorem CutAt.hole_iff : (∃ s ∈ c.segs, s.state = .hole) ↔
    ∃ i, start ≤ i ∧ i < limit ∧ Free (extents t) i ∧
      (extents t).countP (fun p => start < p.1 + p.2.count ∧ p.1 < i) < maxSegs := by
  rw [h.cut_eq, cut_hole (h.laid hgood) h.first]
  refine exists_congr fun i => and_congr_right fun hlow => and_congr_right fun hhigh => ?_
  rw [h.free_iff hgood hlow hhigh, h.before_eq hgood hhigh]

theorem CutAt.holes_iff (hmax : 0 < maxSegs) : (∀ s ∈ c.segs, s.state = .hole) ↔
    Free (extents t) start ∧
      (maxSegs = 1 ∨ ∀ i, start ≤ i → i < limit → Free (extents t) i) := by
  rw [h.cut_eq, cut_holes (h.laid hgood) h.first h.lt_limit hmax,
    h.free_iff hgood (Nat.le_refl _) h.lt_limit]
  refine and_congr_right fun _ => or_congr_right (forall_congr' fun i => ?_)
  exact forall_congr' fun hlow => forall_congr' fun hhigh => (h.free_iff hgood hlow hhigh).symm

theorem CutAt.mapped {s : Seg} (hs : s ∈ c.segs) (hstate : s.state ≠ .hole) :
    s.block ∈ callBlocks (s.block, s.count) ∧ ∃ index, (index, s.block) ∈ t.mapping := by
  obtain ⟨x, hx, rfl⟩ := @placed_of_mem _ _ start hs
  have hpair := mem_segPairs.mpr ⟨x, hx, hstate, rfl⟩
  have hpos := (h.seg_counts hgood hpair).1.1
  refine ⟨List.mem_range'_1.mpr ⟨Nat.le_refl _, Nat.lt_add_of_pos_right hpos⟩, x.1, ?_⟩
  rw [h.mapping]
  refine List.mem_append_left _ (List.mem_append_right _ ?_)
  exact List.mem_flatMap.mpr ⟨_, hpair, mem_indexBlocks.mpr ⟨0, hpos, rfl, rfl⟩⟩

end

theorem overwritten_nil {segs : List Seg} :
    overwritten segs = [] ↔ ∀ s ∈ segs, s.state = .hole := by
  rw [overwritten, List.map_eq_nil_iff, List.filter_eq_nil_iff]
  refine forall_congr' fun s => forall_congr' fun _ => ?_
  rw [decide_eq_true_eq, not_not]

theorem contents_sub {x : ℕ × ℕ} (h : x ∈ contents t) : x ∈ t.mapping := by
  rw [contents] at h
  split at h
  · exact h
  · exact absurd h List.not_mem_nil

theorem wanted_filled {state : SegState} {blocks : List ℕ} {segs map : List Seg}
    (h : fillHoles state blocks (wanted create segs) = (some map, [])) :
    create ≠ 2 ∧ map = segs ∧ ∀ s ∈ segs, s.state ≠ .hole := by
  obtain ⟨hmap, hnone⟩ := fillHoles_nothing h
  by_cases hcreate : create = 2
  · rw [wanted, if_pos hcreate] at hnone
    exact absurd rfl (hnone _ List.mem_cons_self)
  · rw [wanted, if_neg hcreate] at hmap hnone
    exact ⟨hcreate, hmap, hnone⟩

theorem Atomic.allocated_nil (h : Atomic t m)
    (hnew : ∀ e ∈ m.allocated, 0 < e.2 ∧ ∀ index, (index, e.1) ∉ contents t) :
    m.allocated = [] := by
  refine List.eq_nil_iff_forall_not_mem.mpr fun e he => ?_
  obtain ⟨hpos, hnone⟩ := hnew e he
  have hblock : e.1 ∈ callBlocks e :=
    List.mem_range'_1.mpr ⟨Nat.le_refl _, Nat.lt_add_of_pos_right hpos⟩
  obtain ⟨index, hin⟩ := h.used e he e.1 hblock
  exact hnone index ((h.same _).mp hin)

theorem Handed.unmapped {allocated : List (ℕ × ℕ)} {leaves : List (ℕ × List ℕ)}
    (h : Handed t allocated leaves) {e : ℕ × ℕ} (he : e ∈ allocated) (hpos : 0 < e.2)
    (index : ℕ) : (index, e.1) ∉ contents t := by
  intro hin
  have hdata : e.1 ∈ t.dataBlocks := by
    rw [Dtree.dataBlocks_eq]
    exact List.mem_map_of_mem (f := Prod.snd) (contents_sub hin)
  have hcall : e.1 ∈ allocated.flatMap callBlocks := List.mem_flatMap.mpr
    ⟨e, he, List.mem_range'_1.mpr ⟨Nat.le_refl _, Nat.lt_add_of_pos_right hpos⟩⟩
  exact (List.nodup_append.mp h.nodup).2.2 _ (List.mem_append_right _ hdata) _
    (List.mem_append_left _ hcall) rfl

section
variable {cursor : Cursor} {limit low k l : ℕ} {a b : List (ℕ × ℕ)} {gs : List Bunch} {c : Cut}

/-- Packing segments that were all mapped before: when it fails, some of what was mapped is lost,
or a leaf is. -/
theorem CutAt.lost (h : CutAt t blocksize cursor start limit maxSegs b a low gs k l c)
    (hgood : t.Good blocksize n) (hn : 15 ≤ n) (hblocksize : 256 ≤ blocksize)
    (hnode : n = calcEntriesPerNode blocksize) (hmax : 0 < maxSegs) (hcreate : create ≠ 2)
    (hsegs : ∀ s ∈ c.segs, s.state ≠ .hole) {leaves : List (ℕ × List ℕ)} {tree : Dtree}
    (hhanded : Handed t [] leaves)
    (hfilled : Filled (filledState create) start (wanted create c.segs) c.segs [])
    (hrun : repack blocksize n (CutPieces start ((pairsOf gs).drop k) c c.segs) (spot gs l)
      (spot gs k) leaves t cursor = some (.failed tree)) :
    (∃ x ∈ t.mapping, x.2 ∉ tree.mapping.map Prod.snd) ∨
      ∃ y ∈ t.leafList.map Prod.snd, y ∉ tree.leafList.map Prod.snd := by
  have hmap := h.filled hgood.goodFor hmax hhanded hfilled
  have hhold : ∀ x ∈ placed start c.segs, Holdable InRange (x.1, x.2.extent) := fun x hx =>
    h.seg_holdable hgood.goodFor (inRange_inherited _)
      (mem_segPairs.mpr ⟨x, hx, hsegs x.2 (placed_seg hx), rfl⟩)
  have hshort : (n + 1) / 2 + (c.segs.length + 2) / 15 + 2 ≤ n := by
    have hroom := h.fits.room
    have hlen : c.segs.length ≤ ((pairsOf gs).drop k).length := by
      rw [h.cut_eq]
      exact cut_length (h.cut_eq ▸ hsegs)
    rw [List.length_drop, pairsOf_length] at hlen
    rw [calcEntriesPerNode] at hnode
    omega
  have hr := h.repackable hgood.goodFor (inRange_inherited _) hmax hmap hhold hshort hhanded
    hfilled
  have hlost := hr.failed hgood.goodFor hn hblocksize hrun
  rw [← List.flatMap_map Piece.pair, h.pairs hmax rfl, h.rest] at hlost
  refine hlost.imp_left ?_
  rintro ⟨x, hx, hout⟩
  refine ⟨x, ?_, hout⟩
  rw [h.mapping, leftOf, rightOf, segPairs_all hsegs]
  simpa only [List.flatMap_append, List.append_assoc] using hx

end

/-- A call with a btree. -/
theorem mapProbed_atomic (hgood : t.Good blocksize n) (hn : 15 ≤ n) (hblocksize : 256 ≤ blocksize)
    (hnode : n = calcEntriesPerNode blocksize) (hroot : t.hasRoot = true) (hstart : start < 2 ^ 56)
    (hcreate : create ≠ 0)
    (hcall : mapProbed blocksize n t supply start count maxSegs create = some m)
    (hfail : m.map = none) (hhanded : Handed t m.allocated supply.leaves) :
    Atomic t m ↔ FailsFirst t supply start count maxSegs create := by
  obtain ⟨cursor, b, a, low, gs, k, l, c, hcut, hmax, hfreed, hpos, hcase⟩ :=
    mapProbed_failed hgood hstart hcreate hcall hfail
  have hcontents : contents t = t.mapping := if_pos hroot
  have hfirst : FailsFirst t supply start count maxSegs create ↔ supply.data = [] ∧
      if create = 2 then ∀ s ∈ c.segs, s.state = .hole else ∃ s ∈ c.segs, s.state = .hole := by
    rw [FailsFirst, if_pos hroot, hcut.hole_iff hgood.goodFor, hcut.holes_iff hgood.goodFor hmax]
  have hnew : ∀ e ∈ m.allocated, 0 < e.2 ∧ ∀ index, (index, e.1) ∉ contents t :=
    fun e he => ⟨hpos e he, hhanded.unmapped he (hpos e he)⟩
  rw [hfirst]
  rcases hcase with ⟨hfill, htree⟩ | ⟨map, hfill, hrun⟩
  · obtain ⟨hspent, hhole⟩ := fillHoles_spent hfill
    constructor
    · intro hatomic
      refine ⟨?_, ?_⟩
      · rw [← hspent, hatomic.allocated_nil hnew]
        rfl
      · split
        · next htwo =>
            intro s hs
            by_contra hne
            obtain ⟨hblock, index, hin⟩ := hcut.mapped hgood.goodFor hs hne
            refine hatomic.kept (s.block, s.count) ?_ s.block hblock index ?_
            · rw [hfreed, if_pos htwo, overwritten]
              exact List.mem_map.mpr ⟨s, List.mem_filter.mpr ⟨hs, decide_eq_true hne⟩, rfl⟩
            · rw [htree, hcontents]
              exact hin
        · next hone =>
            rw [wanted, if_neg hone] at hhole
            exact hhole
    · rintro ⟨hdata, hholes⟩
      have hnil : m.allocated = [] := by
        rw [← List.map_eq_nil_iff, hspent, hdata]
      have hkept : m.freed = [] := by
        rw [hfreed]
        split
        · next htwo =>
            rw [if_pos htwo] at hholes
            exact overwritten_nil.mpr hholes
        · rfl
      refine ⟨fun x => by rw [htree], ?_, fun _ x hx => ?_, ?_⟩
      · rw [hnil]
        exact fun e he => absurd he List.not_mem_nil
      · rw [htree]
        exact List.mem_map_of_mem hx
      · rw [hkept]
        exact fun e he => absurd he List.not_mem_nil
  · refine iff_of_false (fun hatomic => ?_) ?_
    · have hnil := hatomic.allocated_nil hnew
      rw [hnil] at hfill hhanded
      have hfilled := @fillHoles_spec start _ _ _ _ _ hfill
      obtain ⟨hone, rfl, hsegs⟩ := wanted_filled hfill
      rcases hcut.lost hgood hn hblocksize hnode hmax hone hsegs hhanded hfilled hrun with
        ⟨x, hx, hout⟩ | ⟨y, hy, hout⟩
      · have hin := (hatomic.same x).mpr (hcontents ▸ hx)
        exact hout (List.mem_map_of_mem (contents_sub hin))
      · obtain ⟨x, hx, rfl⟩ := List.mem_map.mp hy
        exact hout (hatomic.linked hroot x hx)
    · rintro ⟨hdata, hholes⟩
      rw [hdata] at hfill
      rw [fillHoles_dry hfill] at hfill
      obtain ⟨hone, -, hsegs⟩ := wanted_filled hfill
      rw [if_neg hone] at hholes
      obtain ⟨s, hs, hhole⟩ := hholes
      exact hsegs s hs hhole

/-- A call that makes the btree. -/
theorem emptyBtree_atomic {root leaf : ℕ} (hne : root ≠ leaf) (hn : 0 < n)
    (hblocksize : 8 ≤ blocksize) (hroot : t.hasRoot = false) (hstart : start < 2 ^ 56)
    (hcreate : create ≠ 0)
    (hcall : mapProbed blocksize n (emptyBtree blocksize root leaf t) supply start count maxSegs
      create = some m) (hfail : m.map = none) : Atomic t m ↔ supply.data = [] := by
  have hgood := @emptyBtree_good t blocksize n root leaf hne hn hblocksize
  obtain ⟨cursor, b, a, low, gs, k, l, c, hcut, hmax, hfreed, hpos, hcase⟩ :=
    mapProbed_failed hgood hstart hcreate hcall hfail
  have hcontents : contents t = [] := if_neg (by rw [hroot]; exact Bool.false_ne_true)
  have hextents : extents (emptyBtree blocksize root leaf t) = [] := by
    rw [extents, emptyBtree_leafList, List.flatMap_singleton, emptyBtree]
    dsimp only
    rw [Function.update_self]
    rfl
  have hfree : ∀ i, Free (extents (emptyBtree blocksize root leaf t)) i := by
    rw [hextents]
    exact fun i p hp => absurd hp List.not_mem_nil
  have hholes : ∀ s ∈ c.segs, s.state = .hole :=
    (hcut.holes_iff hgood.goodFor hmax).mpr ⟨hfree start, .inr fun i _ _ => hfree i⟩
  have hhole : ∃ s ∈ c.segs, s.state = .hole := by
    refine (hcut.hole_iff hgood.goodFor).mpr ⟨start, Nat.le_refl _, hcut.lt_limit, hfree start, ?_⟩
    rw [hextents]
    exact hmax
  have hnew : ∀ e ∈ m.allocated, 0 < e.2 ∧ ∀ index, (index, e.1) ∉ contents t := by
    rw [hcontents]
    exact fun e he => ⟨hpos e he, fun index => List.not_mem_nil⟩
  rcases hcase with ⟨hfill, htree⟩ | ⟨map, hfill, -⟩
  · obtain ⟨hspent, -⟩ := fillHoles_spent hfill
    constructor
    · intro hatomic
      rw [← hspent, hatomic.allocated_nil hnew]
      rfl
    · intro hdata
      have hnil : m.allocated = [] := by
        rw [← List.map_eq_nil_iff, hspent, hdata]
      have hkept : m.freed = [] := by
        rw [hfreed, overwritten_nil.mpr hholes, ite_self]
      have hnone : ∀ x, x ∉ contents m.tree := by
        intro x hx
        have hin := contents_sub hx
        rw [htree, emptyBtree_mapping] at hin
        exact List.not_mem_nil hin
      refine ⟨fun x => ?_, ?_, fun hroot' => ?_, ?_⟩
      · rw [hcontents]
        exact iff_of_false (hnone x) List.not_mem_nil
      · rw [hnil]
        exact fun e he => absurd he List.not_mem_nil
      · rw [hroot] at hroot'
        cases hroot'
      · rw [hkept]
        exact fun e he => absurd he List.not_mem_nil
  · have hsome : m.allocated ≠ [] := by
      intro hnil
      rw [hnil] at hfill
      obtain ⟨s, hs, hstate⟩ := hhole
      exact (wanted_filled hfill).2.2 s hs hstate
    refine iff_of_false (fun hatomic => hsome (hatomic.allocated_nil hnew)) fun hdata => ?_
    rw [hdata] at hfill
    exact hsome (fillHoles_dry hfill)

/-- A call that fails is atomic exactly when it fails at the first allocation. -/
theorem mapRegion_atomic {blockbits : ℕ} (hbits : 8 ≤ blockbits)
    (hgood : t.hasRoot = true → t.Good (2 ^ blockbits) (calcEntriesPerNode (2 ^ blockbits)))
    (hstart : start < 2 ^ 56) (hcreate : create = 1 ∨ create = 2)
    (hcall : mapRegion (2 ^ blockbits) (calcEntriesPerNode (2 ^ blockbits)) t supply start count
      maxSegs create = some m) (hfail : m.map = none)
    (hroots : supply.root.Nodup)
    (hhanded : t.hasRoot = true → Handed t m.allocated supply.leaves) :
    Atomic t m ↔ FailsFirst t supply start count maxSegs create := by
  obtain ⟨hblocksize, -, hn⟩ := blocksize_bounds hbits
  have hcreate : create ≠ 0 := by omega
  by_cases hroot : t.hasRoot = true
  · rw [mapRegion, if_pos hroot] at hcall
    exact mapProbed_atomic (hgood hroot) hn hblocksize rfl hroot hstart hcreate hcall hfail
      (hhanded hroot)
  · rw [mapRegion, if_neg hroot, if_neg hcreate] at hcall
    rw [FailsFirst, if_neg hroot]
    split at hcall
    · next root leaf rest heq =>
        have hne : root ≠ leaf := by
          rw [heq] at hroots
          exact fun hsame => (List.nodup_cons.mp hroots).1 (hsame ▸ List.mem_cons_self)
        rw [emptyBtree_atomic hne (by omega) (by omega) (Bool.not_eq_true _ ▸ hroot) hstart hcreate hcall
          hfail, heq]
        refine (or_iff_right ?_).symm
        simp only [List.length_cons]
        omega
    · next hshort =>
        cases hcall
        refine iff_of_true ⟨fun x => Iff.rfl, ?_, fun hroot' => absurd hroot' hroot, ?_⟩ (.inl ?_)
        · exact fun e he => absurd he List.not_mem_nil
        · exact fun e he => absurd he List.not_mem_nil
        · by_contra hlong
          cases hlist : supply.root with
          | nil =>
              rw [hlist, List.length_nil] at hlong
              omega
          | cons root rest =>
              cases rest with
              | nil =>
                  rw [hlist, List.length_singleton] at hlong
                  omega
              | cons leaf rest => exact hshort root leaf rest hlist

end

/-- A call with two holes, when the allocator has blocks for the first one only. -/
def shortCalls : Option (Mapped × Mapped) :=
  (mapRegion 256 15 emptyAt ⟨[], [100], []⟩ 3 2 8 1).bind fun m =>
    (mapRegion 256 15 m.tree ⟨[], [200], []⟩ 2 5 8 1).map fun m' => (m, m')

theorem shortCalls_first :
    shortCalls.map (fun x => (x.1.map, x.1.allocated)) =
      some (some [⟨100, 2, .new⟩], [(100, 2)]) := by decide

theorem shortCalls_second :
    shortCalls.map (fun x => (x.2.map, x.2.allocated, x.2.tree.mapping)) =
      some (none, [(200, 1)], [(3, 100), (4, 101)]) := by decide

theorem shortCalls_blocks :
    shortCalls.map (fun x => x.1.tree.blocks ++ x.1.tree.dataBlocks) = some [1, 2, 100, 101] := by
  decide

theorem shortCalls_reachable {m m' : Mapped} (hcalls : shortCalls = some (m, m')) :
    Reachable (2 ^ 8) m.tree := by
  have hfirst := shortCalls_first
  rw [hcalls, Option.map_some, Option.some.injEq] at hfirst
  obtain ⟨hsegs, hallocated⟩ := Prod.mk.inj hfirst
  obtain ⟨m₀, hcall, hcall'⟩ := Option.bind_eq_some_iff.mp hcalls
  obtain ⟨m₁, hcall', heq⟩ := Option.map_eq_some_iff.mp hcall'
  cases heq
  have hempty : Reachable (2 ^ 8) emptyAt := .empty _ (by decide) (by decide) (by decide)
  exact hempty.map ⟨by decide, by decide, by decide, by decide, by decide⟩ (by decide) hcall hsegs
    ⟨by rw [hallocated]; decide, by rw [hallocated]; decide⟩

/-- The block of the first hole stays allocated, and nothing maps it. -/
theorem mapRegion_leaks : ∃ m m', shortCalls = some (m, m') ∧ Reachable (2 ^ 8) m.tree ∧
    mapRegion (2 ^ 8) (calcEntriesPerNode (2 ^ 8)) m.tree ⟨[], [200], []⟩ 2 5 8 1 = some m' ∧
    Handed m.tree m'.allocated [] ∧ m'.map = none ∧ (200, 1) ∈ m'.allocated ∧
    (∀ index, (index, 200) ∉ contents m'.tree) ∧ ¬ Atomic m.tree m' := by
  obtain ⟨⟨m, m'⟩, hcalls, hsecond⟩ := Option.map_eq_some_iff.mp shortCalls_second
  have hblocks := shortCalls_blocks
  rw [hcalls, Option.map_some, Option.some.injEq] at hblocks
  simp only [Prod.mk.injEq] at hsecond
  obtain ⟨hfail, hallocated', hmapping⟩ := hsecond
  have hreach := shortCalls_reachable hcalls
  obtain ⟨m₀, hcall, hcall'⟩ := Option.bind_eq_some_iff.mp hcalls
  obtain ⟨m₁, hcall', heq⟩ := Option.map_eq_some_iff.mp hcall'
  cases heq
  dsimp only at hblocks
  have hin : (200, 1) ∈ m'.allocated := by
    rw [hallocated']
    exact List.mem_cons_self
  have hnone : ∀ index, (index, 200) ∉ contents m'.tree := by
    intro index hin
    have hin := contents_sub hin
    rw [hmapping] at hin
    simp at hin
  refine ⟨m, m', hcalls, hreach, hcall', ⟨?_, ?_⟩, hfail, hin, hnone, fun hatomic => ?_⟩
  · rw [hblocks, hallocated']
    decide
  · rw [hallocated']
    decide
  · obtain ⟨index, hmapped⟩ := hatomic.used _ hin 200 (by decide)
    exact hnone index hmapped

/-- The same call when the allocator has nothing left. -/
def dryCall : Option (Mapped × Mapped) :=
  shortCalls.bind fun x =>
    (mapRegion (2 ^ 8) (calcEntriesPerNode (2 ^ 8)) x.1.tree ⟨[], [], []⟩ 2 5 8 1).map fun m =>
      (x.1, m)

theorem dryCall_fails :
    dryCall.map (fun x => (x.2.map, x.2.allocated)) = some (none, []) := by decide

theorem dryCall_before :
    dryCall.map (fun x => (x.1.tree.mapping, (extents x.1.tree).map Prod.fst)) =
      some ([(3, 100), (4, 101)], [3]) := by decide

theorem dryCall_leafEnd :
    dryCall.map (fun x => leafEnd x.1.tree 2) = some (2 ^ 64 - 1) := by decide

theorem mapRegion_atomic_dry : ∃ t m, t.mapping = [(3, 100), (4, 101)] ∧
    mapRegion (2 ^ 8) (calcEntriesPerNode (2 ^ 8)) t ⟨[], [], []⟩ 2 5 8 1 = some m ∧
      m.map = none ∧ Atomic t m := by
  obtain ⟨⟨m, m'⟩, hdry, hfails⟩ := Option.map_eq_some_iff.mp dryCall_fails
  have hbefore := dryCall_before
  have hend := dryCall_leafEnd
  rw [hdry, Option.map_some, Option.some.injEq] at hbefore hend
  obtain ⟨hfail, hallocated⟩ := Prod.mk.inj hfails
  obtain ⟨hmapping, hextents⟩ := Prod.mk.inj hbefore
  obtain ⟨⟨m₀, m₁⟩, hcalls, hcall⟩ := Option.bind_eq_some_iff.mp hdry
  obtain ⟨m₂, hcall, heq⟩ := Option.map_eq_some_iff.mp hcall
  cases heq
  have hgood := (shortCalls_reachable hcalls).good (by decide)
  have hhanded : Handed m₀.tree m'.allocated [] := by
    rw [hallocated]
    exact ⟨by simpa [leafStock] using hgood.wellFormed.nodup, by simp [leafStock]⟩
  refine ⟨m₀.tree, m', hmapping, hcall, hfail, (mapRegion_atomic (by decide) (fun _ => hgood)
    (by decide) (.inl rfl) hcall hfail (by decide) fun _ => hhanded).mpr ?_⟩
  rw [FailsFirst, if_pos (hasRoot_of_good hgood.goodFor)]
  refine ⟨rfl, ?_⟩
  -- index 2 is before the extent
  rw [if_neg (by decide)]
  refine ⟨2, by decide, by rw [hend]; decide, fun p hp hle => ?_, ?_⟩
  · have hin := List.mem_map_of_mem (f := Prod.fst) hp
    rw [hextents, List.mem_singleton] at hin
    omega
  · have hlen := congrArg List.length hextents
    rw [List.length_map, List.length_singleton] at hlen
    exact Nat.lt_of_le_of_lt (hlen ▸ List.countP_le_length) (by decide)

end Tux3.MapRegion
