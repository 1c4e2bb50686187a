import Tux3.MapExact
import Tux3.MapFill

/-!
# Calls of `map_region`

The leaf of a probe is cut at the region. Around the region a call maps what was mapped before, and
in it what the segments say.
-/
namespace Tux3.MapRegion

open Btree Dleaf TreeChop

/-- The arguments of a call: some blocks, not in two ranges of `2 ^ 24` indexes. -/
structure Region (start count maxSegs : ℕ) : Prop where
  count_pos : 1 ≤ count
  count_le : count ≤ 64
  segs : 1 ≤ maxSegs
  stop : start + count ≤ 2 ^ 48
  range : (start + count - 1) / 2 ^ 24 = start / 2 ^ 24

/-- The leaf of a probe, cut at a region. -/
structure CutAt (t : Dtree) (blocksize : ℕ) (cursor : Cursor) (start limit maxSegs : ℕ)
    (b a : List (ℕ × ℕ)) (low : ℕ) (gs : List Bunch) (k m : ℕ) (c : Cut) : Prop where
  leafList : t.leafList = b ++ (low, cursor.leaf) :: a
  path : OnPath t.node t.depth t.root cursor.path cursor.leaf
  leaf_eq : t.leaf cursor.leaf = pack blocksize gs
  fits : Fits blocksize gs
  low_le : low ≤ start
  lt_limit : start < limit
  limit_le : ∀ y ∈ a, limit ≤ y.1
  probe : (dwalkProbe (pack blocksize gs) start).1 = spot gs k
  k_le : k ≤ m
  m_le : m ≤ size gs
  ends : ∀ q ∈ (pairsOf gs).take k, q.1 + q.2.count ≤ start
  first : ∀ p ∈ ((pairsOf gs).drop k).head?, start < p.1 + p.2.count
  cut_eq : c = cut limit maxSegs start ((pairsOf gs).drop k)
  spec : CutSpec limit start ((pairsOf gs).drop k) c
  segs : let r := walkSegs (pack blocksize gs) limit maxSegs start (spot gs k)
    trim (below start ((pairsOf gs).drop k)) (r.2.1 - min r.2.1 limit) r.1 = c.segs ∧
      r.2.1 - min r.2.1 limit = c.above ∧ r.2.2 = spot gs m
  rest : (pairsOf gs).drop m = c.rest

/-- No extent of a lower range of `2 ^ 24` indexes reaches over an index; `dwalk_probe` would not
find it. -/
def Clear (t : Dtree) (index : ℕ) : Prop :=
  ∀ x ∈ t.leafList, ∀ p ∈ (t.leaf x.2).pairs, p.1 / 2 ^ 24 < index / 2 ^ 24 →
    p.1 + p.2.count ≤ index

section
variable {blocksize n start count maxSegs : ℕ} {t : Dtree} {cursor : Cursor}
  {ok : ℕ × Extent → Prop}

theorem clear_of_good (h : t.Good blocksize n) (index : ℕ) : Clear t index := by
  intro x hx p hp hlt
  have hrange := h.range x hx p hp
  have hpos := ((h.wellFormed.ordered x hx).counts p hp).1
  omega

/-- Where the leaf of an index ends: the separator behind it, or `-1`. -/
def leafEnd (t : Dtree) (index : ℕ) : ℕ :=
  ((t.leafList.find? fun x => decide (index < x.1)).map Prod.fst).getD (2 ^ 64 - 1)

theorem leafEnd_le (h : t.WellFormed blocksize n) {x : ℕ × ℕ} (hx : x ∈ t.leafList)
    (hlt : start < x.1) : leafEnd t start ≤ x.1 := by
  obtain ⟨b, a, hsplit⟩ := List.append_of_mem hx
  have hrising := h.rising
  rw [hsplit, List.map_append, List.map_cons] at hrising
  rw [leafEnd, hsplit, List.find?_append, List.find?_cons_of_pos (by simpa using hlt)]
  cases hb : b.find? fun x => decide (start < x.1) with
  | none => exact Nat.le_refl _
  | some y =>
      exact Nat.le_of_lt ((List.pairwise_append.mp hrising).2.2 y.1
        (List.mem_map_of_mem (List.mem_of_find?_eq_some hb)) x.1 List.mem_cons_self)

theorem lt_leafEnd (hstart : start < 2 ^ 64 - 1) : start < leafEnd t start := by
  rw [leafEnd]
  cases hx : t.leafList.find? fun x => decide (start < x.1) with
  | none => exact hstart
  | some x =>
      have hlt := List.find?_some hx
      exact of_decide_eq_true hlt

theorem probed_leaf (h : t.GoodFor ok blocksize n)
    (hprobe : probeFrom t.node t.depth t.root start = some cursor) :
    ∃ b a low, t.leafList = b ++ (low, cursor.leaf) :: a ∧
      OnPath t.node t.depth t.root cursor.path cursor.leaf ∧ low ≤ start ∧
      nextKey t.node cursor.path = leafEnd t start ∧ ∀ y ∈ a, start < y.1 := by
  have hw := h.wellFormed
  obtain ⟨c, hprobe', hpath, hlow, hafter⟩ := probe_spec hw.index.sized hw.index.sorted
    (Nat.zero_le start)
  rw [hprobe] at hprobe'
  cases hprobe'
  have hlist := leaves_path hpath 0
  refine ⟨_, _, _, hlist, hpath, hlow, ?_, hafter⟩
  have hrising := hw.rising
  change (List.map Prod.fst (leaves t.node t.depth 0 t.root)).Pairwise _ at hrising
  rw [hlist, List.map_append, List.map_cons] at hrising
  rw [nextKey, nextKeyp_eq hw.index.sized hpath, leafEnd]
  change _ = ((List.find? _ (leaves t.node t.depth 0 t.root)).map Prod.fst).getD _
  rw [hlist, List.find?_append, List.find?_eq_none.mpr, Option.none_or,
    List.find?_cons_of_neg (by simpa using hlow)]
  · cases hnext : after t.node t.depth cursor.path with
    | nil => rfl
    | cons y ys =>
        rw [List.find?_cons_of_pos (by simpa using hafter y (hnext ▸ List.mem_cons_self))]
        rfl
  · intro x hx
    have hlt := (List.pairwise_append.mp hrising).2.2 x.1 (List.mem_map_of_mem hx) _
      List.mem_cons_self
    rw [decide_eq_true_eq]
    omega

theorem cutAt_of_probe (h : t.GoodFor ok blocksize n) (hkey : start < 2 ^ 56)
    (hclear : Clear t start)
    (hprobe : probeFrom t.node t.depth t.root start = some cursor)
    (hlt : start < min (start + count) (nextKey t.node cursor.path)) (hmax : 0 < maxSegs) :
    ∃ b a low gs k m c, CutAt t blocksize cursor start
      (min (start + count) (nextKey t.node cursor.path)) maxSegs b a low gs k m c := by
  obtain ⟨b, a, low, hlist, hpath, hlow, hnext, hafter⟩ := probed_leaf h hprobe
  have hmem : (low, cursor.leaf) ∈ t.leafList := by
    rw [hlist]
    exact List.mem_append_right b List.mem_cons_self
  have hordered := h.wellFormed.ordered _ hmem
  have hclear := hclear _ hmem
  obtain ⟨gs, hfits, hleaf⟩ := (h.wellFormed.sound _ hmem).packed
  dsimp only at hordered hclear hleaf
  rw [hleaf] at hordered hclear
  obtain ⟨k, hk, hwalk, hends, hat, -⟩ := probe_splits hkey hfits hordered hclear
  have hlaid : Laid (pairsOf gs) := by
    have hapart := hordered.apart
    have hcounts := hordered.counts
    rw [pack_pairs] at hapart hcounts
    exact ⟨hapart, fun p hp => (hcounts p hp).1⟩
  have hhead : ∀ p ∈ ((pairsOf gs).drop k).head?, start < p.1 + p.2.count := by
    rw [List.head?_drop]
    exact hat
  have hstop : ∀ y ∈ a, nextKey t.node cursor.path ≤ y.1 := fun y hy =>
    hnext ▸ leafEnd_le h.wellFormed (hlist ▸ List.mem_append_right b (List.mem_cons_of_mem _ hy))
      (hafter y hy)
  have hcut := @walkSegs_cut blocksize (min (start + count) (nextKey t.node cursor.path)) maxSegs
    start k gs hfits.good hlaid hk (Nat.le_of_lt hlt) hhead
  dsimp only at hcut
  obtain ⟨hsegs, hstop', habove, m, hkm, hm, hwalk', hrest⟩ := hcut
  have hdrop : Laid ((pairsOf gs).drop k) :=
    ⟨hlaid.apart.sublist (List.drop_sublist _ _),
      fun p hp => hlaid.counts p (List.mem_of_mem_drop hp)⟩
  exact ⟨b, a, low, gs, k, m, _, hlist, hpath, hleaf, hfits, hlow, hlt,
    fun y hy => Nat.le_trans (Nat.min_le_right _ _) (hstop y hy), congrArg Prod.fst hwalk, hkm, hm,
    hends, hhead, rfl, cut_spec hdrop hhead (Nat.le_of_lt hlt) (.inr ⟨hmax, hlt⟩),
    ⟨hsegs, habove, hwalk'⟩, hrest⟩

/-! ## The pieces of a call -/

theorem cut_ne_nil {limit left index : ℕ} {l : List (ℕ × Extent)} (hlt : index < limit)
    (hleft : 0 < left) : (cut limit left index l).segs ≠ [] := by
  intro hnil
  have heq := cut_nil hnil
  cases left with
  | zero => exact Nat.lt_irrefl 0 hleft
  | succ left =>
      cases l with
      | nil =>
          rw [cut, if_pos hlt] at hnil
          cases hnil
      | cons p l =>
          rw [cut, if_pos hlt] at hnil
          split at hnil
          · cases hnil
          · split at hnil
            · cases hnil
            · cases hnil

variable {limit low k m : ℕ} {a b : List (ℕ × ℕ)} {gs : List Bunch} {c : Cut}

theorem segStart_eq (hgood : ∀ g ∈ gs, g.Good) (hk : k ≤ size gs) :
    start - (if !dwalkEnd (spot gs k) &&
        decide (dwalkIndex (pack blocksize gs) (spot gs k) < start) then
      dwalkIndex (pack blocksize gs) (spot gs k) else start) =
        below start ((pairsOf gs).drop k) := by
  rcases Nat.lt_or_eq_of_le hk with hlt | rfl
  · rw [spot_end (Nat.le_of_lt hlt) hgood, decide_eq_false (Nat.ne_of_lt hlt),
      @drop_spot blocksize k gs hlt, below, List.head?_cons, Option.map_some, Option.getD_some]
    dsimp only
    by_cases hbefore : dwalkIndex (pack blocksize gs) (spot gs k) < start
    · rw [decide_eq_true hbefore]
      rfl
    · rw [decide_eq_false hbefore]
      exact (Nat.sub_self start).trans (Nat.sub_eq_zero_of_le (Nat.not_lt.mp hbefore)).symm
  · rw [spot_end (Nat.le_refl _) hgood, decide_eq_true rfl,
      List.drop_of_length_le (Nat.le_of_eq pairsOf_length)]
    exact Nat.sub_self start

/-- The holes of a call: all of the region when it is redirected. -/
def wanted (create : ℕ) (segs : List Seg) : List Seg :=
  if create = 2 then [⟨0, total segs, .hole⟩] else segs

/-- The state of the segments that get blocks. -/
def filledState (create : ℕ) : SegState := if create = 2 then .mapped else .new

/-- The pieces around some segments. -/
def CutPieces (start : ℕ) (l : List (ℕ × Extent)) (c : Cut) (map : List Seg) : List Piece :=
  pieces start (below start l) ((c.segs.head?.map Seg.block).getD 0 - below start l) c.above
    (lastEnd c.segs) map

/-- A call at the leaf of a probe. -/
theorem CutAt.mapLeaf_eq (h : CutAt t blocksize cursor start limit maxSegs b a low gs k m c)
    (hlimit : limit = min (start + count) (nextKey t.node cursor.path)) (hmax : 0 < maxSegs)
    (supply : Supply) (create : ℕ) :
    mapLeaf blocksize n t cursor supply start count maxSegs create =
      if create = 0 then some ⟨some c.segs, t, [], []⟩
      else
        match fillHoles (filledState create) supply.data (wanted create c.segs) with
        | (none, allocated) =>
            some ⟨none, t, allocated, if create = 2 then overwritten c.segs else []⟩
        | (some map, allocated) =>
            (repack blocksize n (CutPieces start ((pairsOf gs).drop k) c map) (spot gs m)
                (spot gs k) supply.leaves t cursor).map fun
              | .done s => ⟨some map, s.tree, allocated,
                  if create = 2 then overwritten c.segs else []⟩
              | .failed tree => ⟨none, tree, allocated,
                  if create = 2 then overwritten c.segs else []⟩ := by
  obtain ⟨hsegs, habove, hwalk⟩ := h.segs
  have hne : c.segs ≠ [] := h.cut_eq ▸ cut_ne_nil h.lt_limit hmax
  have hstart := @segStart_eq blocksize start k gs h.fits.good (Nat.le_trans h.k_le h.m_le)
  rw [mapLeaf]
  dsimp only
  rw [h.leaf_eq, h.probe, hstart, ← hlimit, habove, hwalk]
  rw [habove] at hsegs
  rw [hsegs, if_neg hne]
  rfl

theorem cut_head {limit left index : ℕ} {l : List (ℕ × Extent)} {p : ℕ × Extent}
    (hlt : index < limit) (hleft : 0 < left) (hle : p.1 ≤ index) :
    (cut limit left index (p :: l)).segs.head?.map Seg.block =
      some (p.2.block + (index - p.1)) := by
  cases left with
  | zero => exact absurd hleft (Nat.lt_irrefl 0)
  | succ left =>
      rw [cut, if_pos hlt, if_neg (Nat.not_lt.mpr hle)]
      split
      · rfl
      · rfl

section
variable (h : CutAt t blocksize cursor start limit maxSegs b a low gs k m c) {map : List Seg}
  (hmax : 0 < maxSegs) (htotal : total map = total c.segs)
include h hmax htotal

/-- The pieces are the part below, the segments and the part above. -/
theorem CutAt.pairs :
    (CutPieces start ((pairsOf gs).drop k) c map).map Piece.pair =
      belowList start ((pairsOf gs).drop k) ++
        (placed start map).map (fun x => (x.1, x.2.extent)) ++ c.aboveList := by
  have hcut := h.cut_eq
  have hstop := h.spec.stop
  rw [CutPieces, pieces, List.map_append, List.map_append, htotal, ← hstop, segPieces_eq,
    List.map_map]
  refine congrArg₂ _ (congrArg₂ _ ?_ rfl) ?_
  · generalize (pairsOf gs).drop k = l at hcut ⊢
    cases l with
    | nil => rfl
    | cons p l =>
        rw [belowList, below, List.head?_cons, Option.map_some, Option.getD_some,
          Option.toList_some]
        rcases Nat.lt_or_ge p.1 start with hlt | hge
        · have hhead := cut_head (l := l) h.lt_limit hmax (Nat.le_of_lt hlt)
          rw [← hcut] at hhead
          rw [if_neg (by omega), List.filter_cons_of_pos (by simpa using hlt), hhead,
            Option.getD_some, Nat.add_sub_cancel, List.map_singleton, Piece.pair]
          dsimp only
          rw [Nat.sub_sub_self (Nat.le_of_lt hlt)]
          rfl
        · rw [if_pos (Nat.sub_eq_zero_of_le hge), List.filter_cons_of_neg (by simpa using hge)]
          rfl
  · rw [Cut.aboveList]
    split
    · rfl
    · rfl

end

/-- Only the part below is packed at another index than the one of a new leaf. -/
theorem cutPieces_keys {l : List (ℕ × Extent)} {map : List Seg} :
    (∀ p ∈ (CutPieces start l c map).tail, p.key = p.index) ∧
      ((∀ p ∈ (CutPieces start l c map).head?, p.key = p.index) ∨ l ≠ []) := by
  have hrest : ∀ p ∈ segPieces start map ++
      (if c.above = 0 then []
        else [⟨start + total map, start + total map, ⟨lastEnd c.segs, c.above⟩⟩]),
      p.key = p.index := by
    intro p hp
    rcases List.mem_append.mp hp with hp | hp
    · rw [segPieces_eq] at hp
      obtain ⟨x, -, rfl⟩ := List.mem_map.mp hp
      rfl
    · split at hp
      · cases hp
      · rw [List.mem_singleton.mp hp]
  rw [CutPieces, pieces, List.append_assoc]
  by_cases hbelow : below start l = 0
  · rw [if_pos hbelow, List.nil_append]
    exact ⟨fun p hp => hrest p (List.mem_of_mem_tail hp),
      .inl fun p hp => hrest p (List.mem_of_mem_head? hp)⟩
  · rw [if_neg hbelow]
    refine ⟨hrest, .inr ?_⟩
    rintro rfl
    exact hbelow rfl

/-- The property of an extent is one of its parts up to an index, which are below `2 ^ 48` too. -/
def Inherited (ok : ℕ × Extent → Prop) (stop : ℕ) : Prop :=
  ∀ p q, PartOf p q → q.1 ≤ stop → ok p → p.1 < 2 ^ 48 → ok q ∧ q.1 < 2 ^ 48

theorem inRange_inherited (stop : ℕ) : Inherited InRange stop := by
  rintro p q ⟨hlow, hhigh, -, hcount⟩ - h hindex
  unfold InRange at *
  omega

theorem true_inherited {stop : ℕ} (hstop : stop < 2 ^ 48) : Inherited (fun _ => True) stop :=
  fun _ _ _ hle _ _ => ⟨trivial, Nat.lt_of_le_of_lt hle hstop⟩

/-- An extent that a leaf can hold. -/
structure Holdable (ok : ℕ × Extent → Prop) (p : ℕ × Extent) : Prop where
  counts : 1 ≤ p.2.count ∧ p.2.count ≤ 64
  block : p.2.block ≠ 0
  fits : ok p
  index : p.1 < 2 ^ 48

theorem Holdable.part_counts {p q : ℕ × Extent} (h : Holdable ok p) (hpart : PartOf p q) :
    (1 ≤ q.2.count ∧ q.2.count ≤ 64) ∧ q.2.block ≠ 0 := by
  obtain ⟨hlow, hhigh, hblock, hcount⟩ := hpart
  have hcounts := h.counts
  have hne := h.block
  exact ⟨⟨hcount, by omega⟩, by omega⟩

theorem Holdable.part {stop : ℕ} {p q : ℕ × Extent} (h : Holdable ok p) (hok : Inherited ok stop)
    (hpart : PartOf p q) (hle : q.1 ≤ stop) : Holdable ok q := by
  obtain ⟨hcounts, hblock⟩ := h.part_counts hpart
  obtain ⟨hfits, hindex⟩ := hok p q hpart hle h.fits h.index
  exact ⟨hcounts, hblock, hfits, hindex⟩

theorem packable_of_holdable {ps : List Piece} {next : ℕ}
    (hapart : (ps.map Piece.pair).Pairwise fun p q => p.1 + p.2.count ≤ q.1)
    (hall : ∀ p ∈ ps.map Piece.pair,
      Holdable ok p ∧ next ≤ p.1 ∧ ∀ y ∈ a, p.1 + p.2.count ≤ y.1) :
    Packable ok a next ps := by
  have hall' : ∀ p ∈ ps, Holdable ok p.pair ∧ next ≤ p.index ∧
      ∀ y ∈ a, p.index + p.extent.count ≤ y.1 := fun p hp => hall _ (List.mem_map_of_mem hp)
  exact ⟨List.pairwise_map.mp hapart, fun p hp => (hall' p hp).2.1,
    fun p hp => (hall' p hp).1.counts, fun p hp => (hall' p hp).1.block,
    fun p hp => (hall' p hp).1.fits, fun p hp => (hall' p hp).1.index,
    fun p hp => (hall' p hp).2.2⟩

theorem pairs_holdable (h : t.GoodFor ok blocksize n) {x : ℕ × ℕ} (hx : x ∈ t.leafList)
    {p : ℕ × Extent} (hp : p ∈ (t.leaf x.2).pairs) : Holdable ok p := by
  obtain ⟨gs, hfits, heq⟩ := (h.wellFormed.sound x hx).packed
  have hin := hp
  rw [heq, pack_pairs, pairsOf, List.mem_flatMap] at hin
  obtain ⟨g, hg, hin⟩ := hin
  obtain ⟨y, hy, hpair⟩ := List.mem_map.mp hin
  have hgood := hfits.good g hg
  refine ⟨(h.wellFormed.ordered x hx).counts p hp, ?_, h.extents x hx p hp, ?_⟩
  · rw [← hpair]
    exact hgood.blocks y hy
  · have hhi := hgood.keyhi_lt
    have hlo := hgood.keylo_lt y hy
    rw [← hpair, getIndex]
    dsimp only
    omega

theorem mem_belowList {index : ℕ} {l : List (ℕ × Extent)} {q : ℕ × Extent}
    (h : q ∈ belowList index l) :
    ∃ p ∈ l.head?, p.1 < index ∧ q = (p.1, ⟨p.2.block, index - p.1⟩) := by
  rw [belowList, List.mem_map] at h
  obtain ⟨p, hp, rfl⟩ := h
  obtain ⟨hp, hlt⟩ := List.mem_filter.mp hp
  exact ⟨p, Option.mem_toList.mp hp, of_decide_eq_true hlt, rfl⟩

theorem belowList_pairwise {R : ℕ × Extent → ℕ × Extent → Prop} {index : ℕ}
    {l : List (ℕ × Extent)} : (belowList index l).Pairwise R := by
  rw [belowList, List.pairwise_map]
  refine List.Pairwise.filter _ ?_
  cases l.head? with
  | none => exact .nil
  | some p => exact List.pairwise_singleton _ p

theorem aboveList_pairwise {R : ℕ × Extent → ℕ × Extent → Prop} : c.aboveList.Pairwise R := by
  rw [Cut.aboveList]
  split
  · exact .nil
  · exact List.pairwise_singleton _ _

theorem mem_aboveList {q : ℕ × Extent} (h : q ∈ c.aboveList) :
    q = (c.stop, ⟨lastEnd c.segs, c.above⟩) := by
  rw [Cut.aboveList] at h
  split at h
  · cases h
  · exact List.mem_singleton.mp h

/-- What the segments of a call say: blocks for all of the region. -/
structure Mapping (start : ℕ) (c : Cut) (map : List Seg) : Prop where
  total : total map = total c.segs
  counts : ∀ s ∈ map, 0 < s.count
  blocks : ∀ s ∈ map, s.block ≠ 0

/-- The pieces of segments that a leaf can hold. -/
theorem CutAt.packable (h : CutAt t blocksize cursor start limit maxSegs b a low gs k m c)
    (hgood : t.GoodFor ok blocksize n) (hok : Inherited ok c.stop) (hmax : 0 < maxSegs)
    {map : List Seg} (htotal : total map = total c.segs)
    (hhold : ∀ x ∈ placed start map, Holdable ok (x.1, x.2.extent)) :
    Packable ok a (start - below start ((pairsOf gs).drop k))
      (CutPieces start ((pairsOf gs).drop k) c map) := by
  have hpairs := h.pairs hmax htotal
  have hstop := h.spec.stop
  have hle := h.spec.le
  have hmem : (low, cursor.leaf) ∈ t.leafList := by
    rw [h.leafList]
    exact List.mem_append_right b List.mem_cons_self
  have hleaf : ∀ p ∈ (pairsOf gs).drop k, p ∈ (t.leaf cursor.leaf).pairs := by
    rw [h.leaf_eq, pack_pairs]
    exact fun p hp => List.mem_of_mem_drop hp
  have hbehind : ∀ p ∈ (t.leaf cursor.leaf).pairs, ∀ y ∈ a, p.1 + p.2.count ≤ y.1 := by
    have hbelow := hgood.wellFormed.below
    rw [h.leafList] at hbelow
    exact fun p hp y hy =>
      (List.pairwise_cons.mp (List.pairwise_append.mp hbelow).2.1).1 y hy p hp
  -- the parts of extents of the leaf
  have hpart : ∀ p ∈ (pairsOf gs).drop k, ∀ q, PartOf p q → q.1 ≤ c.stop → Holdable ok q ∧
      ∀ y ∈ a, q.1 + q.2.count ≤ y.1 := fun p hp q hq hle =>
    ⟨(pairs_holdable hgood hmem (hleaf p hp)).part hok hq hle,
      fun y hy => Nat.le_trans hq.high (hbehind p (hleaf p hp) y hy)⟩
  have hbelow : ∀ q ∈ belowList start ((pairsOf gs).drop k), Holdable ok q ∧
      (∀ y ∈ a, q.1 + q.2.count ≤ y.1) ∧ q.1 = start - below start ((pairsOf gs).drop k) ∧
      q.1 + q.2.count = start := by
    intro q hq
    obtain ⟨p, hp, hlt, rfl⟩ := mem_belowList hq
    have hfirst := h.first p hp
    have hp' : (pairsOf gs).drop k = p :: ((pairsOf gs).drop k).tail :=
      (List.cons_head?_tail hp).symm
    obtain ⟨hhold, hend⟩ := hpart p (List.mem_of_mem_head? hp) (p.1, ⟨p.2.block, start - p.1⟩)
      ⟨Nat.le_refl _, by dsimp only; omega, by rw [Nat.sub_self, Nat.add_zero],
        by dsimp only; omega⟩ (by dsimp only; omega)
    refine ⟨hhold, hend, ?_, by dsimp only; omega⟩
    rw [hp', below, List.head?_cons, Option.map_some, Option.getD_some]
    dsimp only
    omega
  have hsegs : ∀ x ∈ placed start map, Holdable ok (x.1, x.2.extent) ∧
      (∀ y ∈ a, x.1 + x.2.count ≤ y.1) ∧ start ≤ x.1 ∧ x.1 + x.2.count ≤ c.stop := by
    intro x hx
    obtain ⟨hge, hend⟩ := placed_bounds hx
    rw [htotal, ← hstop] at hend
    exact ⟨hhold x hx, fun y hy => Nat.le_trans hend (Nat.le_trans hle (h.limit_le y hy)), hge,
      hend⟩
  have habove : ∀ q ∈ c.aboveList, Holdable ok q ∧ (∀ y ∈ a, q.1 + q.2.count ≤ y.1) ∧
      q.1 = c.stop := by
    intro q hq
    obtain ⟨p, hp, hpq⟩ := h.spec.partOf q
      (List.mem_append_left _ (List.mem_append_right _ hq))
    obtain ⟨hhold, hend⟩ := hpart p hp q hpq (Nat.le_of_eq (by rw [mem_aboveList hq]))
    exact ⟨hhold, hend, by rw [mem_aboveList hq]⟩
  refine packable_of_holdable ?_ ?_
  · rw [hpairs, List.pairwise_append, List.pairwise_append, List.pairwise_map]
    refine ⟨⟨belowList_pairwise, placed_apart, fun p hp q hq => ?_⟩, aboveList_pairwise,
      fun p hp q hq => ?_⟩
    · obtain ⟨x, hx, rfl⟩ := List.mem_map.mp hq
      rw [(hbelow p hp).2.2.2]
      exact (hsegs x hx).2.2.1
    · rw [(habove q hq).2.2]
      rcases List.mem_append.mp hp with hp | hp
      · rw [(hbelow p hp).2.2.2]
        omega
      · obtain ⟨x, hx, rfl⟩ := List.mem_map.mp hp
        exact (hsegs x hx).2.2.2
  · rw [hpairs]
    intro p hp
    rcases List.mem_append.mp hp with hp | hp
    · rcases List.mem_append.mp hp with hp | hp
      · obtain ⟨hhold, hend, hstart, -⟩ := hbelow p hp
        exact ⟨hhold, Nat.le_of_eq hstart.symm, hend⟩
      · obtain ⟨x, hx, rfl⟩ := List.mem_map.mp hp
        obtain ⟨hhold, hend, hge, -⟩ := hsegs x hx
        exact ⟨hhold, Nat.le_trans (Nat.sub_le _ _) hge, hend⟩
    · obtain ⟨hhold, hend, hstop'⟩ := habove p hp
      exact ⟨hhold, by omega, hend⟩

theorem Mapping.holdable {map : List Seg} (h : Mapping start c map)
    (htotal : MapRegion.total c.segs ≤ 64)
    (hstop : start + MapRegion.total c.segs ≤ 2 ^ 48)
    (hok : ∀ x ∈ placed start map, ok (x.1, x.2.extent)) :
    ∀ x ∈ placed start map, Holdable ok (x.1, x.2.extent) := by
  intro x hx
  obtain ⟨hge, hend⟩ := placed_bounds hx
  have hpos := h.counts x.2 (placed_seg hx)
  rw [h.total] at hend
  refine ⟨⟨hpos, ?_⟩, h.blocks x.2 (placed_seg hx), hok x hx, ?_⟩
  · rw [Seg.extent]
    dsimp only
    omega
  · dsimp only
    omega

theorem Region.inRange {map : List Seg} (h : Region start count maxSegs)
    (htotal : total map ≤ count) (hcounts : ∀ s ∈ map, 0 < s.count) :
    ∀ x ∈ placed start map, InRange (x.1, x.2.extent) := by
  intro x hx
  obtain ⟨hge, hend⟩ := placed_bounds hx
  have hpos := hcounts x.2 (placed_seg hx)
  have hrange := h.range
  rw [InRange, Seg.extent]
  dsimp only
  omega

/-! ## What a call maps -/

/-- What is mapped before the region, and behind it. -/
def leftOf (t : Dtree) (b : List (ℕ × ℕ)) (gs : List Bunch) (k start : ℕ) : List (ℕ × ℕ) :=
  leavesMapping t.leaf b ++ ((pairsOf gs).take k).flatMap indexBlocks ++
    (belowList start ((pairsOf gs).drop k)).flatMap indexBlocks

def rightOf (t : Dtree) (a : List (ℕ × ℕ)) (c : Cut) : List (ℕ × ℕ) :=
  c.aboveList.flatMap indexBlocks ++ c.rest.flatMap indexBlocks ++ leavesMapping t.leaf a

theorem CutAt.mapping (h : CutAt t blocksize cursor start limit maxSegs b a low gs k m c) :
    t.mapping = leftOf t b gs k start ++ (segPairs start c.segs).flatMap indexBlocks ++
      rightOf t a c := by
  have hleaf : (t.leaf cursor.leaf).mapping = ((pairsOf gs).take k).flatMap indexBlocks ++
      ((pairsOf gs).drop k).flatMap indexBlocks := by
    rw [Leaf.mapping, h.leaf_eq, pack_pairs, ← List.flatMap_append, List.take_append_drop]
  rw [Dtree.mapping, h.leafList, leavesMapping_append, leavesMapping_cons, hleaf, h.spec.mapping,
    Cut.parts, leftOf, rightOf]
  simp only [List.flatMap_append, List.append_assoc]

theorem mem_flatMap_indexBlocks {l : List (ℕ × Extent)} {x : ℕ × ℕ}
    (h : x ∈ l.flatMap indexBlocks) : ∃ p ∈ l, p.1 ≤ x.1 ∧ x.1 < p.1 + p.2.count := by
  obtain ⟨p, hp, hx⟩ := List.mem_flatMap.mp h
  obtain ⟨i, hi, hindex, -⟩ := mem_indexBlocks.mp hx
  exact ⟨p, hp, by omega, by omega⟩

theorem mem_leavesMapping {l : List (ℕ × ℕ)} {x : ℕ × ℕ} (h : x ∈ leavesMapping t.leaf l) :
    ∃ y ∈ l, ∃ p ∈ (t.leaf y.2).pairs, p.1 ≤ x.1 ∧ x.1 < p.1 + p.2.count := by
  obtain ⟨y, hy, hx⟩ := List.mem_flatMap.mp h
  exact ⟨y, hy, mem_flatMap_indexBlocks hx⟩

theorem CutAt.left_lt (h : CutAt t blocksize cursor start limit maxSegs b a low gs k m c)
    (hgood : t.GoodFor ok blocksize n) : ∀ x ∈ leftOf t b gs k start, x.1 < start := by
  intro x hx
  rcases List.mem_append.mp hx with hx | hx
  · rcases List.mem_append.mp hx with hx | hx
    · obtain ⟨y, hy, p, hp, -, hlt⟩ := mem_leavesMapping hx
      have hbelow := hgood.wellFormed.below
      rw [h.leafList] at hbelow
      have hend := (List.pairwise_append.mp hbelow).2.2 y hy (low, cursor.leaf)
        List.mem_cons_self p hp
      exact Nat.lt_of_lt_of_le hlt (Nat.le_trans hend h.low_le)
    · obtain ⟨p, hp, -, hlt⟩ := mem_flatMap_indexBlocks hx
      exact Nat.lt_of_lt_of_le hlt (h.ends p hp)
  · obtain ⟨q, hq, -, hlt⟩ := mem_flatMap_indexBlocks hx
    obtain ⟨p, -, hbefore, rfl⟩ := mem_belowList hq
    dsimp only at hlt
    omega

theorem CutAt.right_ge (h : CutAt t blocksize cursor start limit maxSegs b a low gs k m c)
    (hgood : t.GoodFor ok blocksize n) : ∀ x ∈ rightOf t a c, c.stop ≤ x.1 := by
  intro x hx
  rcases List.mem_append.mp hx with hx | hx
  · rcases List.mem_append.mp hx with hx | hx
    · obtain ⟨q, hq, hle, -⟩ := mem_flatMap_indexBlocks hx
      rw [mem_aboveList hq] at hle
      exact hle
    · obtain ⟨q, hq, hle, -⟩ := mem_flatMap_indexBlocks hx
      have hrest := h.spec.rest q hq
      omega
  · obtain ⟨y, hy, p, hp, hle, -⟩ := mem_leavesMapping hx
    have hmem : y ∈ t.leafList := by
      rw [h.leafList]
      exact List.mem_append_right b (List.mem_cons_of_mem _ hy)
    have habove := hgood.wellFormed.above y hmem p hp
    have hlimit := h.limit_le y hy
    have hstop := h.spec.le
    omega

/-- The blocks that the allocator hands out for a call are not zero and not in use. -/
structure Handed (t : Dtree) (allocated : List (ℕ × ℕ)) (leaves : List (ℕ × List ℕ)) : Prop where
  nodup : ((t.blocks ++ t.dataBlocks) ++
    (allocated.flatMap callBlocks ++ leafStock leaves)).Nodup
  nonzero : ∀ x ∈ allocated.flatMap callBlocks ++ leafStock leaves, x ≠ 0

theorem placed_of_mem {map : List Seg} {s : Seg} {index : ℕ} (h : s ∈ map) :
    ∃ x ∈ placed index map, x.2 = s := by
  induction map generalizing index with
  | nil => cases h
  | cons s' map ih =>
      rcases List.mem_cons.mp h with rfl | h
      · exact ⟨(index, s), List.mem_cons_self, rfl⟩
      · obtain ⟨x, hx, heq⟩ := @ih (index + s'.count) h
        exact ⟨x, List.mem_cons_of_mem _ hx, heq⟩

theorem total_wanted (create : ℕ) (segs : List Seg) : total (wanted create segs) = total segs := by
  rw [wanted]
  split
  · exact Nat.add_zero _
  · rfl

theorem total_congr {map map' : List Seg} (h : map'.map Seg.count = map.map Seg.count) :
    total map' = total map := congrArg List.sum h

variable {create : ℕ} {map : List Seg} {allocated : List (ℕ × ℕ)} {leaves : List (ℕ × List ℕ)}

theorem CutAt.wanted_pos (h : CutAt t blocksize cursor start limit maxSegs b a low gs k m c)
    (hmax : 0 < maxSegs) : ∀ s ∈ wanted create c.segs, 0 < s.count := by
  have hne : c.segs ≠ [] := h.cut_eq ▸ cut_ne_nil h.lt_limit hmax
  intro s hs
  rw [wanted] at hs
  split at hs
  · rw [List.mem_singleton.mp hs]
    obtain ⟨s', segs, heq⟩ := List.exists_cons_of_ne_nil hne
    have hpos := h.spec.counts s' (heq ▸ List.mem_cons_self)
    dsimp only
    rw [heq, total_cons]
    omega
  · exact h.spec.counts s hs

theorem CutAt.seg_part (h : CutAt t blocksize cursor start limit maxSegs b a low gs k m c)
    (hgood : t.GoodFor ok blocksize n) {q : ℕ × Extent} (hq : q ∈ segPairs start c.segs) :
    ∃ p, Holdable ok p ∧ PartOf p q ∧ q.1 ≤ c.stop := by
  have hmem : (low, cursor.leaf) ∈ t.leafList := by
    rw [h.leafList]
    exact List.mem_append_right b List.mem_cons_self
  obtain ⟨p, hp, hpart⟩ := h.spec.partOf _ (List.mem_append_left _ (List.mem_append_left _ hq))
  have hleaf : p ∈ (t.leaf cursor.leaf).pairs := by
    rw [h.leaf_eq, pack_pairs]
    exact List.mem_of_mem_drop hp
  refine ⟨p, pairs_holdable hgood hmem hleaf, hpart, ?_⟩
  obtain ⟨x, hx, -, rfl⟩ := mem_segPairs.mp hq
  have hend := (placed_bounds hx).2
  have hstop := h.spec.stop
  dsimp only
  omega

theorem CutAt.seg_holdable (h : CutAt t blocksize cursor start limit maxSegs b a low gs k m c)
    (hgood : t.GoodFor ok blocksize n) (hok : Inherited ok c.stop) {q : ℕ × Extent}
    (hq : q ∈ segPairs start c.segs) : Holdable ok q := by
  obtain ⟨p, hhold, hpart, hle⟩ := h.seg_part hgood hq
  exact hhold.part hok hpart hle

theorem CutAt.seg_counts (h : CutAt t blocksize cursor start limit maxSegs b a low gs k m c)
    (hgood : t.GoodFor ok blocksize n) {q : ℕ × Extent} (hq : q ∈ segPairs start c.segs) :
    (1 ≤ q.2.count ∧ q.2.count ≤ 64) ∧ q.2.block ≠ 0 := by
  obtain ⟨p, hhold, hpart, -⟩ := h.seg_part hgood hq
  exact hhold.part_counts hpart

/-- The segments that a call returns. -/
theorem CutAt.filled (h : CutAt t blocksize cursor start limit maxSegs b a low gs k m c)
    (hgood : t.GoodFor ok blocksize n) (hmax : 0 < maxSegs) (hhanded : Handed t allocated leaves)
    (hfilled : Filled (filledState create) start (wanted create c.segs) map allocated) :
    Mapping start c map := by
  have hcounts : ∀ s ∈ map, 0 < s.count := by
    intro s hs
    have hin : s.count ∈ map.map Seg.count := List.mem_map_of_mem hs
    rw [hfilled.counts] at hin
    obtain ⟨s', hs', heq⟩ := List.mem_map.mp hin
    rw [← heq]
    exact h.wanted_pos hmax s' hs'
  refine ⟨(total_congr hfilled.counts).trans (total_wanted create c.segs), hcounts, fun s hs => ?_⟩
  obtain ⟨x, hx, rfl⟩ := @placed_of_mem _ _ start hs
  rcases hfilled.origin x hx with ⟨hstate, hold⟩ | ⟨-, hin, -⟩
  · have hpair : (x.1, x.2.extent) ∈ segPairs start c.segs := by
      rw [wanted] at hold
      split at hold
      · rw [placed_cons] at hold
        rcases List.mem_cons.mp hold with rfl | hold
        · exact absurd rfl hstate
        · cases hold
      · exact mem_segPairs.mpr ⟨x, hold, hstate, rfl⟩
    exact (h.seg_counts hgood hpair).2
  · refine hhanded.nonzero x.2.block (List.mem_append_left _ (List.mem_flatMap.mpr ⟨_, hin, ?_⟩))
    exact List.mem_range'_1.mpr ⟨Nat.le_refl _, Nat.lt_add_of_pos_right (hcounts _ hs)⟩

/-- The blocks of the pieces and of what stays are apart. -/
theorem CutAt.distinct (h : CutAt t blocksize cursor start limit maxSegs b a low gs k m c)
    (hmax : 0 < maxSegs) (hhanded : Handed t allocated leaves) (hmap : Mapping start c map)
    (hfilled : Filled (filledState create) start (wanted create c.segs) map allocated) :
    ((t.blocks ++ (leavesMapping t.leaf b ++ ((pairsOf gs).take k).flatMap indexBlocks ++
        leavesMapping t.leaf a).map Prod.snd) ++
      ((CutPieces start ((pairsOf gs).drop k) c map).flatMap (fun p => extentBlocks p.pair) ++
        ((((pairsOf gs).drop m).flatMap indexBlocks).map Prod.snd ++ leafStock leaves))).Nodup := by
  have hblocks : ∀ l : List (ℕ × Extent), (l.flatMap indexBlocks).map Prod.snd =
      l.flatMap extentBlocks := by
    intro l
    rw [List.map_flatMap]
    exact List.flatMap_congr fun p _ => indexBlocks_blocks p
  have hpieces : (CutPieces start ((pairsOf gs).drop k) c map).flatMap
      (fun p => extentBlocks p.pair) =
      (belowList start ((pairsOf gs).drop k)).flatMap extentBlocks ++
        ((placed start map).flatMap fun x => extentBlocks (x.1, x.2.extent)) ++
        c.aboveList.flatMap extentBlocks := by
    rw [← List.flatMap_map Piece.pair, h.pairs hmax hmap.total, List.flatMap_append,
      List.flatMap_append, List.flatMap_map]
  -- a region that is redirected loses its blocks
  obtain ⟨gone, hgone⟩ : ∃ gone, ((segPairs start c.segs).flatMap extentBlocks).Perm
      ((segPairs start (wanted create c.segs)).flatMap extentBlocks ++ gone) := by
    rw [wanted]
    split
    · exact ⟨_, .refl _⟩
    · exact ⟨[], by rw [List.append_nil]⟩
  have hnodup := hhanded.nodup
  rw [Dtree.dataBlocks_eq, h.mapping, leftOf, rightOf] at hnodup
  rw [h.rest]
  refine @List.Nodup.of_append_left _ _ gone ?_
  refine (List.Perm.nodup_iff ?_).mp hnodup
  rw [hpieces]
  refine List.perm_iff_count.mpr fun x => ?_
  have hcount := hfilled.blocks.count_eq x
  have hcount' := hgone.count_eq x
  simp only [List.map_append, List.count_append, hblocks] at hcount hcount' ⊢
  omega

theorem placed_length {index : ℕ} {map : List Seg} : (placed index map).length = map.length := by
  induction map generalizing index with
  | nil => rfl
  | cons s map ih => rw [placed_cons, List.length_cons, List.length_cons, ih]

theorem belowList_length {index : ℕ} {l : List (ℕ × Extent)} : (belowList index l).length ≤ 1 := by
  rw [belowList, List.length_map]
  refine Nat.le_trans (List.length_filter_le _ _) ?_
  cases l.head? with
  | none => exact Nat.zero_le 1
  | some p => exact Nat.le_refl 1

theorem aboveList_length : c.aboveList.length ≤ 1 := by
  rw [Cut.aboveList]
  split
  · exact Nat.zero_le 1
  · exact Nat.le_refl 1

theorem CutAt.start_le (h : CutAt t blocksize cursor start limit maxSegs b a low gs k m c)
    (hgood : t.GoodFor ok blocksize n) :
    low ≤ start - below start ((pairsOf gs).drop k) ∧
      ∀ q ∈ (pairsOf gs).take k, q.1 + q.2.count ≤ start - below start ((pairsOf gs).drop k) := by
  have hmem : (low, cursor.leaf) ∈ t.leafList := by
    rw [h.leafList]
    exact List.mem_append_right b List.mem_cons_self
  have hleaf : (t.leaf cursor.leaf).pairs = (pairsOf gs).take k ++ (pairsOf gs).drop k := by
    rw [h.leaf_eq, pack_pairs, List.take_append_drop]
  have hlow := h.low_le
  have hends := h.ends
  have hapart := (hgood.wellFormed.ordered _ hmem).apart
  have habove := hgood.wellFormed.above _ hmem
  dsimp only at hapart habove
  rw [hleaf] at hapart habove
  cases hdrop : (pairsOf gs).drop k with
  | nil => exact ⟨hlow, hends⟩
  | cons p l =>
      rw [hdrop] at hapart habove
      rw [below, List.head?_cons, Option.map_some, Option.getD_some]
      have hp := habove p (List.mem_append_right _ List.mem_cons_self)
      refine ⟨by omega, fun q hq => ?_⟩
      have hend := hends q hq
      have hle := (List.pairwise_append.mp hapart).2.2 q hq p List.mem_cons_self
      omega

theorem CutAt.pieces_stop (h : CutAt t blocksize cursor start limit maxSegs b a low gs k m c)
    (hmax : 0 < maxSegs) (hmap : Mapping start c map) :
    (∀ p ∈ CutPieces start ((pairsOf gs).drop k) c map,
      p.index + p.extent.count ≤ c.stop + c.above) ∧
      CutPieces start ((pairsOf gs).drop k) c map ≠ [] ∧
      (CutPieces start ((pairsOf gs).drop k) c map).length ≤ map.length + 2 := by
  have hpairs := h.pairs hmax hmap.total
  have hstop := h.spec.stop
  have hne : c.segs ≠ [] := h.cut_eq ▸ cut_ne_nil h.lt_limit hmax
  refine ⟨fun p hp => ?_, fun hnil => ?_, ?_⟩
  · have hin : p.pair ∈ (CutPieces start ((pairsOf gs).drop k) c map).map Piece.pair :=
      List.mem_map_of_mem hp
    change p.pair.1 + p.pair.2.count ≤ _
    rw [hpairs] at hin
    rcases List.mem_append.mp hin with hin | hin
    · rcases List.mem_append.mp hin with hin | hin
      · obtain ⟨q, -, hlt, heq⟩ := mem_belowList hin
        rw [heq]
        dsimp only
        omega
      · obtain ⟨x, hx, heq⟩ := List.mem_map.mp hin
        obtain ⟨-, hend⟩ := placed_bounds hx
        rw [hmap.total, ← hstop] at hend
        rw [← heq, Seg.extent]
        exact Nat.le_trans hend (Nat.le_add_right _ _)
    · have heq := mem_aboveList hin
      exact Nat.le_of_eq (congrArg (fun q => q.1 + q.2.count) heq)
  · rw [hnil] at hpairs
    have hlen := congrArg List.length hpairs
    simp only [List.length_append, List.length_map, List.map_nil, List.length_nil] at hlen
    obtain ⟨s', segs, heq⟩ := List.exists_cons_of_ne_nil hne
    have hpos := h.spec.counts s' (heq ▸ List.mem_cons_self)
    have htotal := hmap.total
    rw [heq, total_cons] at htotal
    cases map with
    | nil =>
        change 0 = _ at htotal
        omega
    | cons s' map =>
        rw [placed_cons, List.length_cons] at hlen
        omega
  · have hlen := congrArg List.length hpairs
    have hbelow := @belowList_length start ((pairsOf gs).drop k)
    have habove := @aboveList_length c
    simp only [List.length_append, List.length_map, placed_length] at hlen
    omega

theorem CutAt.repackable (h : CutAt t blocksize cursor start limit maxSegs b a low gs k m c)
    (hgood : t.GoodFor ok blocksize n) (hok : Inherited ok c.stop) (hmax : 0 < maxSegs)
    (hmap : Mapping start c map) (hhold : ∀ x ∈ placed start map, Holdable ok (x.1, x.2.extent))
    (hshort : (n + 1) / 2 + (map.length + 2) / 15 + 2 ≤ n) (hhanded : Handed t allocated leaves)
    (hfilled : Filled (filledState create) start (wanted create c.segs) map allocated) :
    Repackable ok blocksize n t cursor b a low gs k m (start - below start ((pairsOf gs).drop k))
      (CutPieces start ((pairsOf gs).drop k) c map) leaves := by
  obtain ⟨hlow, hends⟩ := h.start_le hgood
  obtain ⟨hstops, hne, hlen⟩ := h.pieces_stop hmax hmap
  obtain ⟨hkeys, hfirst⟩ := @cutPieces_keys start c ((pairsOf gs).drop k) map
  exact ⟨h.leafList, h.path, h.leaf_eq, h.fits, h.k_le, h.m_le, hne, by omega,
    h.packable hgood hok hmax hmap.total hhold, hlow, hends,
    fun p hp q hq => Nat.le_trans (hstops p hp) (h.spec.rest q (h.rest ▸ hq)), hkeys,
    hfirst.imp_right fun hdrop => by
      by_contra hge
      exact hdrop (List.drop_of_length_le (pairsOf_length ▸ Nat.not_lt.mp hge)),
    h.distinct hmax hhanded hmap hfilled⟩

/-- A call that writes: around the region everything is mapped as before. -/
theorem CutAt.written (h : CutAt t blocksize cursor start limit maxSegs b a low gs k m c)
    (hn : 15 ≤ n) (hblocksize : 256 ≤ blocksize) (hfour : 4 ∣ blocksize)
    (hgood : t.GoodFor ok blocksize n) (hok : Inherited ok c.stop) (hmax : 0 < maxSegs)
    (htotal : total c.segs ≤ 64) (hstop : start + total c.segs ≤ 2 ^ 48)
    (hhanded : Handed t allocated leaves)
    (hfilled : Filled (filledState create) start (wanted create c.segs) map allocated)
    (hext : ∀ x ∈ placed start map, ok (x.1, x.2.extent)) {s : PackState}
    (hrun : repack blocksize n (CutPieces start ((pairsOf gs).drop k) c map) (spot gs m) (spot gs k)
      leaves t cursor = some (.done s)) :
    s.tree.GoodFor ok blocksize n ∧
      s.tree.mapping = leftOf t b gs k start ++
        ((placed start map).map fun x => (x.1, x.2.extent)).flatMap indexBlocks ++
          rightOf t a c := by
  have hmap := h.filled hgood hmax hhanded hfilled
  have hshort := length_le_total hmap.counts
  have hsame := hmap.total
  have hr := h.repackable hgood hok hmax hmap (hmap.holdable htotal hstop hext) (by omega) hhanded
    hfilled
  obtain ⟨hgood', hmapping⟩ := repack_mapping hr hgood hn hblocksize hfour hrun
  refine ⟨hgood', ?_⟩
  rw [hmapping, ← List.flatMap_map Piece.pair, h.pairs hmax hmap.total, h.rest, leftOf, rightOf]
  simp only [List.flatMap_append, List.append_assoc]

end

end Tux3.MapRegion
