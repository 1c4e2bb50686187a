import Tux3.MapRegion
import Tux3.TreeChopBlocks

/-!
# The segments of a region

The loop of `map_region` over the extents of a leaf cuts the list of its pairs at the region. What
the pairs map is then split into the parts below, in and above the region.
-/
namespace Tux3.MapRegion

open Btree Dleaf TreeChop

/-- The segments with their first index. -/
def placed : ℕ → List Seg → List (ℕ × Seg)
  | _, [] => []
  | index, s :: map => (index, s) :: placed (index + s.count) map

def Seg.extent (s : Seg) : Extent := ⟨s.block, s.count⟩

/-- The extents of the segments that are not holes. -/
def segPairs (index : ℕ) (map : List Seg) : List (ℕ × Extent) :=
  ((placed index map).filter fun x => x.2.state ≠ .hole).map fun x => (x.1, x.2.extent)

/-- The cut of a list of extents at a region. -/
structure Cut where
  segs : List Seg
  stop : ℕ
  above : ℕ
  rest : List (ℕ × Extent)

def Cut.cons (s : Seg) (c : Cut) : Cut := { c with segs := s :: c.segs }

/-- What the loop over the extents and the trim after it do. -/
def cut (limit : ℕ) : ℕ → ℕ → List (ℕ × Extent) → Cut
  | 0, index, l => ⟨[], index, 0, l⟩
  | left + 1, index, l =>
      if index < limit then
        match l with
        | [] => (cut limit left limit []).cons ⟨0, limit - index, .hole⟩
        | p :: rest =>
            if index < p.1 then
              (cut limit left (min p.1 limit) (p :: rest)).cons ⟨0, min p.1 limit - index, .hole⟩
            else if limit < p.1 + p.2.count then
              ⟨[⟨p.2.block + (index - p.1), limit - index, .mapped⟩], limit,
                p.1 + p.2.count - limit, rest⟩
            else
              (cut limit left (p.1 + p.2.count) rest).cons
                ⟨p.2.block + (index - p.1), p.1 + p.2.count - index, .mapped⟩
      else ⟨[], index, 0, l⟩

/-- Extents with blocks, none over the next one. -/
structure Laid (l : List (ℕ × Extent)) : Prop where
  apart : l.Pairwise fun p q => p.1 + p.2.count ≤ q.1
  counts : ∀ p ∈ l, 1 ≤ p.2.count

/-- The part of the first extent below an index. -/
def below (index : ℕ) (l : List (ℕ × Extent)) : ℕ := (l.head?.map fun p => index - p.1).getD 0

section
variable {blocksize limit left index k : ℕ} {gs : List Bunch} {l : List (ℕ × Extent)}
  {p : ℕ × Extent} {s : Seg} {map : List Seg}

theorem Laid.tail (h : Laid (p :: l)) : Laid l :=
  ⟨(List.pairwise_cons.mp h.apart).2, fun q hq => h.counts q (List.mem_cons_of_mem p hq)⟩

theorem Laid.next (h : Laid (p :: l)) : ∀ q ∈ l.head?, p.1 + p.2.count < q.1 + q.2.count := by
  intro q hq
  have hin := List.mem_of_mem_head? hq
  have hle := (List.pairwise_cons.mp h.apart).1 q hin
  have hpos := h.tail.counts q hin
  omega

theorem Laid.below_tail (h : Laid (p :: l)) : below (p.1 + p.2.count) l = 0 := by
  cases l with
  | nil => rfl
  | cons q l =>
      have hle := (List.pairwise_cons.mp h.apart).1 q List.mem_cons_self
      exact Nat.sub_eq_zero_of_le hle

/-! ## The loop -/

theorem trim_cons {above : ℕ} (hne : map ≠ []) (n : ℕ) :
    trim n above (s :: map) =
      { s with block := s.block + n, count := s.count - n } :: trim 0 above map := by
  obtain ⟨s', map, rfl⟩ := List.exists_cons_of_ne_nil hne
  simp only [trim, List.modify_zero_cons, List.length_cons, Nat.add_sub_cancel, Nat.add_zero,
    Nat.sub_zero, List.modify_succ_cons]

theorem trim_single {above : ℕ} (n : ℕ) :
    trim n above [s] = [{ s with block := s.block + n, count := s.count - n - above }] := rfl

theorem walkSegs_nil {leaf : Leaf} {walk : Dwalk}
    (h : (walkSegs leaf limit left index walk).1 = []) :
    walkSegs leaf limit left index walk = ([], index, walk) := by
  cases left with
  | zero => rfl
  | succ left =>
      rw [walkSegs] at h ⊢
      generalize (if dwalkEnd walk = true then limit else dwalkIndex leaf walk) = exIndex at h
      by_cases hlt : index < limit
      · rw [if_pos hlt] at h
        dsimp only at h
        split at h
        · cases h
        · cases h
      · rw [if_neg hlt]

theorem walkSegs_stop {leaf : Leaf} {walk : Dwalk} (h : limit ≤ index) :
    walkSegs leaf limit left index walk = ([], index, walk) := by
  cases left with
  | zero => rfl
  | succ left => rw [walkSegs, if_neg (Nat.not_lt.mpr h)]

theorem cut_stop (h : limit ≤ index) : cut limit left index l = ⟨[], index, 0, l⟩ := by
  cases left with
  | zero => rfl
  | succ left =>
      cases l with
      | nil => rw [cut, if_neg (Nat.not_lt.mpr h)]
      | cons p l => rw [cut, if_neg (Nat.not_lt.mpr h)]

theorem walkSegs_end (hgood : ∀ g ∈ gs, g.Good) (hlt : index < limit) :
    walkSegs (pack blocksize gs) limit (left + 1) index (spot gs (size gs)) =
      (⟨0, limit - index, .hole⟩ ::
          (walkSegs (pack blocksize gs) limit left limit (spot gs (size gs))).1,
        (walkSegs (pack blocksize gs) limit left limit (spot gs (size gs))).2) := by
  have hend : dwalkEnd (spot gs (size gs)) = true := by
    rw [spot_end (Nat.le_refl _) hgood, decide_eq_true rfl]
  rw [walkSegs]
  simp only [hend, if_true, hlt, Nat.min_self]

theorem walkSegs_at (hgood : ∀ g ∈ gs, g.Good) (hlt : index < limit)
    (hp : (pairsOf gs)[k]? = some p) :
    walkSegs (pack blocksize gs) limit (left + 1) index (spot gs k) =
      if index < p.1 then
        (⟨0, min p.1 limit - index, .hole⟩ ::
            (walkSegs (pack blocksize gs) limit left (min p.1 limit) (spot gs k)).1,
          (walkSegs (pack blocksize gs) limit left (min p.1 limit) (spot gs k)).2)
      else
        (⟨p.2.block, p.2.count, .mapped⟩ ::
            (walkSegs (pack blocksize gs) limit left (p.1 + p.2.count) (spot gs (k + 1))).1,
          (walkSegs (pack blocksize gs) limit left (p.1 + p.2.count) (spot gs (k + 1))).2) := by
  obtain ⟨hk, -⟩ := List.getElem?_eq_some_iff.mp hp
  rw [pairsOf_length] at hk
  have hend : dwalkEnd (spot gs k) = false := by
    rw [spot_end (Nat.le_of_lt hk) hgood, decide_eq_false (Nat.ne_of_lt hk)]
  rw [@spot_reads blocksize _ _ hk, Option.some_inj] at hp
  subst hp
  rw [walkSegs, if_pos hlt]
  simp only [hend, Bool.false_eq_true, if_false, next_spot hgood hk]

theorem trim_step {leaf : Leaf} {walk : Dwalk} (hindex : index ≤ limit) (n : ℕ) :
    let r := walkSegs leaf limit left index walk
    trim n (r.2.1 - min r.2.1 limit) (s :: r.1) =
      { s with block := s.block + n, count := s.count - n } ::
        trim 0 (r.2.1 - min r.2.1 limit) r.1 := by
  intro r
  by_cases hnil : r.1 = []
  · have hr : r.2.1 = index := congrArg (fun x => x.2.1) (walkSegs_nil hnil)
    rw [hnil, hr, Nat.min_eq_left hindex, Nat.sub_self, trim_single, Nat.sub_zero]
    rfl
  · exact trim_cons hnil n

/-- The loop and the trim cut the pairs from the walk on. -/
theorem walkSegs_cut (hgood : ∀ g ∈ gs, g.Good) (hlaid : Laid (pairsOf gs)) (hk : k ≤ size gs)
    (hindex : index ≤ limit)
    (hat : ∀ p ∈ ((pairsOf gs).drop k).head?, index < p.1 + p.2.count) :
    let r := walkSegs (pack blocksize gs) limit left index (spot gs k)
    let c := cut limit left index ((pairsOf gs).drop k)
    trim (below index ((pairsOf gs).drop k)) (r.2.1 - min r.2.1 limit) r.1 = c.segs ∧
      min r.2.1 limit = c.stop ∧ r.2.1 - min r.2.1 limit = c.above ∧
      ∃ m, k ≤ m ∧ m ≤ size gs ∧ r.2.2 = spot gs m ∧ (pairsOf gs).drop m = c.rest := by
  induction left generalizing index k with
  | zero =>
      refine ⟨rfl, Nat.min_eq_left hindex, ?_, k, Nat.le_refl k, hk, rfl, rfl⟩
      rw [walkSegs, Nat.min_eq_left hindex, Nat.sub_self, cut]
  | succ left ih =>
      rcases Nat.lt_or_ge index limit with hlt | hge
      · rcases Nat.lt_or_eq_of_le hk with hlt' | rfl
        · have hlen : k < (pairsOf gs).length := pairsOf_length ▸ hlt'
          have hdrop := List.drop_eq_getElem_cons hlen
          have hp := List.getElem?_eq_getElem hlen
          generalize (pairsOf gs)[k] = p at hdrop hp
          have hrest : Laid (p :: (pairsOf gs).drop (k + 1)) :=
            hdrop ▸ ⟨hlaid.apart.sublist (List.drop_sublist _ _),
              fun q hq => hlaid.counts q (List.mem_of_mem_drop hq)⟩
          have hend : index < p.1 + p.2.count := hat p (by rw [hdrop]; rfl)
          rw [walkSegs_at hgood hlt hp, hdrop, cut, if_pos hlt]
          by_cases hgap : index < p.1
          · have hle : min p.1 limit ≤ limit := Nat.min_le_right _ _
            obtain ⟨hsegs, hstop, habove, hm⟩ := @ih (min p.1 limit) k hk hle fun q hq => by
              rw [hdrop] at hq
              cases hq
              exact Nat.lt_of_le_of_lt (Nat.min_le_left _ _)
                (Nat.lt_add_of_pos_right (hrest.counts p List.mem_cons_self))
            rw [hdrop] at hsegs hstop habove hm
            have hzero : below (min p.1 limit) (p :: (pairsOf gs).drop (k + 1)) = 0 :=
              Nat.sub_eq_zero_of_le (Nat.min_le_left _ _)
            have hnone : below index (p :: (pairsOf gs).drop (k + 1)) = 0 :=
              Nat.sub_eq_zero_of_le (Nat.le_of_lt hgap)
            rw [hzero] at hsegs
            simp only [if_pos hgap]
            refine ⟨?_, hstop, habove, hm⟩
            rw [hnone, Cut.cons, ← hsegs]
            exact trim_step hle 0
          · simp only [if_neg hgap]
            have hbelow : below index (p :: (pairsOf gs).drop (k + 1)) = index - p.1 := rfl
            by_cases hcross : limit < p.1 + p.2.count
            · have hle := Nat.le_of_lt hcross
              rw [walkSegs_stop hle, if_pos hcross, hbelow]
              dsimp only
              rw [trim_single, Nat.min_eq_right hle]
              refine ⟨?_, rfl, rfl, k + 1, Nat.le_succ k, hlt', rfl, rfl⟩
              dsimp only
              rw [show p.2.count - (index - p.1) - (p.1 + p.2.count - limit) = limit - index by
                omega]
            · have hle := Nat.not_lt.mp hcross
              obtain ⟨hsegs, hstop, habove, m, hkm, hm⟩ :=
                @ih (p.1 + p.2.count) (k + 1) hlt' hle hrest.next
              rw [hrest.below_tail] at hsegs
              rw [if_neg hcross, hbelow]
              refine ⟨?_, hstop, habove, m, Nat.le_of_succ_le hkm, hm⟩
              have hcount : p.1 + p.2.count - index = p.2.count - (index - p.1) := by omega
              rw [Cut.cons, ← hsegs, hcount]
              exact trim_step hle _
        · have hnil : (pairsOf gs).drop (size gs) = [] :=
            List.drop_of_length_le (Nat.le_of_eq pairsOf_length)
          have hnone : ∀ q ∈ ((pairsOf gs).drop (size gs)).head?, limit < q.1 + q.2.count := by
            rw [hnil]
            exact fun q hq => nomatch hq
          obtain ⟨hsegs, hstop, habove, hm⟩ := ih hk (Nat.le_refl limit) hnone
          rw [walkSegs_end hgood hlt, hnil, cut, if_pos hlt]
          rw [hnil] at hsegs hstop habove hm
          refine ⟨?_, hstop, habove, hm⟩
          rw [Cut.cons, ← hsegs]
          exact trim_step (Nat.le_refl limit) 0
      · rw [walkSegs_stop hge, cut_stop hge]
        have hzero : index - min index limit = 0 := by omega
        exact ⟨rfl, Nat.min_eq_left hindex, hzero,
          k, Nat.le_refl k, hk, rfl, rfl⟩

/-! ## The parts -/

/-- The end of the last segment on the disk. -/
def lastEnd (map : List Seg) : ℕ := (map.getLast?.map fun s => s.block + s.count).getD 0

/-- What is left of the last extent. -/
def Cut.aboveList (c : Cut) : List (ℕ × Extent) :=
  if c.above = 0 then [] else [(c.stop, ⟨lastEnd c.segs, c.above⟩)]

/-- The pairs from an index on, as they are cut. -/
def Cut.parts (c : Cut) (index : ℕ) : List (ℕ × Extent) :=
  segPairs index c.segs ++ c.aboveList ++ c.rest

/-- An extent is a part of another. -/
structure PartOf (p q : ℕ × Extent) : Prop where
  low : p.1 ≤ q.1
  high : q.1 + q.2.count ≤ p.1 + p.2.count
  block : q.2.block = p.2.block + (q.1 - p.1)
  count : 1 ≤ q.2.count

theorem placed_cons : placed index (s :: map) = (index, s) :: placed (index + s.count) map := rfl

theorem total_cons : total (s :: map) = s.count + total map := rfl

theorem segPairs_hole (h : s.state = .hole) :
    segPairs index (s :: map) = segPairs (index + s.count) map := by
  rw [segPairs, placed_cons, List.filter_cons_of_neg (by simpa using h)]
  rfl

theorem segPairs_extent (h : s.state ≠ .hole) :
    segPairs index (s :: map) = (index, s.extent) :: segPairs (index + s.count) map := by
  rw [segPairs, placed_cons, List.filter_cons_of_pos (by simpa using h)]
  rfl

theorem cut_nil (h : (cut limit left index l).segs = []) :
    cut limit left index l = ⟨[], index, 0, l⟩ := by
  cases left with
  | zero => rfl
  | succ left =>
      cases l with
      | nil =>
          rw [cut] at h ⊢
          split at h
          · cases h
          · next hlt => rw [if_neg hlt]
      | cons p l =>
          rw [cut] at h ⊢
          by_cases hlt : index < limit
          · rw [if_pos hlt] at h
            split at h
            · cases h
            · split at h
              · cases h
              · cases h
          · rw [if_neg hlt]

theorem Cut.aboveList_cons {c : Cut} (h : c.segs = [] → c.above = 0) :
    (c.cons s).aboveList = c.aboveList := by
  rw [Cut.aboveList, Cut.aboveList, Cut.cons]
  dsimp only
  by_cases hzero : c.above = 0
  · rw [if_pos hzero, if_pos hzero]
  · rw [if_neg hzero, if_neg hzero, lastEnd, lastEnd]
    obtain ⟨s', map, heq⟩ := List.exists_cons_of_ne_nil (mt h hzero)
    rw [heq, List.getLast?_cons_cons]

/-- The part of the first extent below an index. -/
def belowList (index : ℕ) (l : List (ℕ × Extent)) : List (ℕ × Extent) :=
  (l.head?.toList.filter fun p => p.1 < index).map fun p => (p.1, ⟨p.2.block, index - p.1⟩)

/-- What a cut of a list at a region is. -/
structure CutSpec (limit index : ℕ) (l : List (ℕ × Extent)) (c : Cut) : Prop where
  stop : c.stop = index + total c.segs
  le : c.stop ≤ limit
  counts : ∀ s ∈ c.segs, 0 < s.count
  states : ∀ s ∈ c.segs, s.state ≠ .new
  none : c.segs = [] → c.above = 0
  mapping : l.flatMap indexBlocks =
    (belowList index l).flatMap indexBlocks ++ (c.parts index).flatMap indexBlocks
  partOf : ∀ q ∈ c.parts index, ∃ p ∈ l, PartOf p q
  rest : ∀ q ∈ c.rest, c.stop + c.above ≤ q.1
  suffix : c.rest <:+ l

section
variable {c : Cut}

theorem indexBlocks_split (a b m n : ℕ) :
    indexBlocks (a, ⟨b, m + n⟩) = indexBlocks (a, ⟨b, m⟩) ++ indexBlocks (a + m, ⟨b + m, n⟩) := by
  rw [indexBlocks, indexBlocks, indexBlocks]
  dsimp only
  rw [← List.range'_append_1, List.map_append]
  refine congrArg _ (List.map_congr_left fun i hi => ?_)
  rw [List.mem_range'_1] at hi
  rw [show b + (i - a) = b + m + (i - (a + m)) by omega]

theorem belowList_nil (h : ∀ p ∈ l.head?, index ≤ p.1) : belowList index l = [] := by
  cases l with
  | nil => rfl
  | cons p l =>
      rw [belowList, List.head?_cons, Option.toList_some, List.filter_cons_of_neg]
      · rfl
      · exact fun hlt => Nat.not_lt.mpr (h p rfl) (of_decide_eq_true hlt)

theorem PartOf.refl (h : 1 ≤ p.2.count) : PartOf p p :=
  ⟨Nat.le_refl _, Nat.le_refl _, by rw [Nat.sub_self, Nat.add_zero], h⟩

/-- A hole before the others. -/
theorem CutSpec.hole {index' : ℕ} (h : CutSpec limit index' l c) (hlt : index < index')
    (hhead : ∀ p ∈ l.head?, index' ≤ p.1) :
    CutSpec limit index l (c.cons ⟨0, index' - index, .hole⟩) := by
  have hparts : (c.cons ⟨0, index' - index, .hole⟩).parts index = c.parts index' := by
    rw [Cut.parts, Cut.parts, Cut.aboveList_cons h.none, Cut.cons]
    dsimp only
    rw [segPairs_hole rfl]
    dsimp only
    rw [Nat.add_sub_cancel' (Nat.le_of_lt hlt)]
  refine ⟨?_, h.le, fun s hs => ?_, fun s hs => ?_, fun hnil => (nomatch hnil), ?_, ?_, h.rest,
    h.suffix⟩
  · rw [Cut.cons, total_cons, h.stop]
    dsimp only
    omega
  · rcases List.mem_cons.mp hs with rfl | hs
    · exact Nat.sub_pos_of_lt hlt
    · exact h.counts s hs
  · rcases List.mem_cons.mp hs with rfl | hs
    · exact nofun
    · exact h.states s hs
  · rw [hparts, belowList_nil fun p hp => Nat.le_trans (Nat.le_of_lt hlt) (hhead p hp), h.mapping,
      belowList_nil hhead]
  · rw [hparts]
    exact h.partOf

theorem indexBlocks_below (hle : p.1 ≤ index) (hlt : index < p.1 + p.2.count) :
    indexBlocks p = (belowList index (p :: l)).flatMap indexBlocks ++
      indexBlocks (index, ⟨p.2.block + (index - p.1), p.1 + p.2.count - index⟩) := by
  obtain ⟨a, b, n⟩ := p
  dsimp only at *
  rcases Nat.lt_or_eq_of_le hle with hlt' | rfl
  · have hlist : belowList index ((a, ⟨b, n⟩) :: l) = [(a, ⟨b, index - a⟩)] := by
      rw [belowList, List.head?_cons, Option.toList_some, List.filter_cons_of_pos (by simpa)]
      rfl
    rw [hlist, List.flatMap_singleton]
    have hsplit := indexBlocks_split a b (index - a) (a + n - index)
    rw [show index - a + (a + n - index) = n by omega, show a + (index - a) = index by omega]
      at hsplit
    exact hsplit
  · rw [belowList_nil fun q hq => by cases hq; exact Nat.le_refl _, Nat.sub_self, Nat.add_zero,
      Nat.add_sub_cancel_left]
    rfl

/-- An extent before the others. -/
theorem CutSpec.extent (h : CutSpec limit (p.1 + p.2.count) l c) (hlaid : Laid (p :: l))
    (hle : p.1 ≤ index) (hlt : index < p.1 + p.2.count) :
    CutSpec limit index (p :: l)
      (c.cons ⟨p.2.block + (index - p.1), p.1 + p.2.count - index, .mapped⟩) := by
  have hindex : index + (p.1 + p.2.count - index) = p.1 + p.2.count :=
    Nat.add_sub_cancel' (Nat.le_of_lt hlt)
  have hparts : (c.cons ⟨p.2.block + (index - p.1), p.1 + p.2.count - index, .mapped⟩).parts index =
      (index, ⟨p.2.block + (index - p.1), p.1 + p.2.count - index⟩) ::
        c.parts (p.1 + p.2.count) := by
    rw [Cut.parts, Cut.parts, Cut.aboveList_cons h.none, Cut.cons]
    dsimp only
    rw [segPairs_extent (show SegState.mapped ≠ .hole by decide)]
    dsimp only
    rw [hindex]
    rfl
  have hhead : ∀ q ∈ l.head?, p.1 + p.2.count ≤ q.1 := fun q hq =>
    (List.pairwise_cons.mp hlaid.apart).1 q (List.mem_of_mem_head? hq)
  refine ⟨?_, h.le, fun s hs => ?_, fun s hs => ?_, fun hnil => (nomatch hnil), ?_, ?_, h.rest,
    h.suffix.trans (List.suffix_cons p l)⟩
  · rw [Cut.cons, total_cons, h.stop]
    dsimp only
    omega
  · rcases List.mem_cons.mp hs with rfl | hs
    · exact Nat.sub_pos_of_lt hlt
    · exact h.counts s hs
  · rcases List.mem_cons.mp hs with rfl | hs
    · exact nofun
    · exact h.states s hs
  · rw [hparts, List.flatMap_cons, List.flatMap_cons, h.mapping, belowList_nil hhead,
      indexBlocks_below hle hlt, List.append_assoc]
    rfl
  · rw [hparts]
    intro q hq
    rcases List.mem_cons.mp hq with rfl | hq
    · exact ⟨p, List.mem_cons_self, hle, Nat.le_of_eq hindex, rfl, Nat.sub_pos_of_lt hlt⟩
    · obtain ⟨p', hp', hpart⟩ := h.partOf q hq
      exact ⟨p', List.mem_cons_of_mem p hp', hpart⟩

/-- An extent over the end of the region. -/
theorem CutSpec.cross (hlaid : Laid (p :: l)) (hle : p.1 ≤ index) (hlt : index < limit)
    (hcross : limit < p.1 + p.2.count) :
    CutSpec limit index (p :: l)
      ⟨[⟨p.2.block + (index - p.1), limit - index, .mapped⟩], limit, p.1 + p.2.count - limit,
        l⟩ := by
  have hparts : Cut.parts ⟨[⟨p.2.block + (index - p.1), limit - index, .mapped⟩], limit,
      p.1 + p.2.count - limit, l⟩ index =
      (index, ⟨p.2.block + (index - p.1), limit - index⟩) ::
        (limit, ⟨p.2.block + (limit - p.1), p.1 + p.2.count - limit⟩) :: l := by
    rw [Cut.parts, Cut.aboveList, if_neg (Nat.ne_of_gt (Nat.sub_pos_of_lt hcross)),
      segPairs_extent (show SegState.mapped ≠ .hole by decide)]
    dsimp only
    rw [lastEnd, List.getLast?_singleton, Option.map_some, Option.getD_some,
      show p.2.block + (index - p.1) + (limit - index) = p.2.block + (limit - p.1) by omega]
    rfl
  have hend : p.1 + p.2.count - index = limit - index + (p.1 + p.2.count - limit) := by omega
  refine ⟨?_, Nat.le_refl _, fun s hs => ?_, fun s hs => ?_, fun hnil => (nomatch hnil), ?_, ?_,
    fun q hq => ?_, List.suffix_cons p l⟩
  · rw [total_cons]
    exact (Nat.add_sub_cancel' (Nat.le_of_lt hlt)).symm
  · rw [List.mem_singleton.mp hs]
    exact Nat.sub_pos_of_lt hlt
  · rw [List.mem_singleton.mp hs]
    exact nofun
  · rw [hparts, List.flatMap_cons, List.flatMap_cons, List.flatMap_cons,
      indexBlocks_below (l := l) hle (Nat.lt_trans hlt hcross), hend, indexBlocks_split,
      Nat.add_sub_cancel' (Nat.le_of_lt hlt),
      show p.2.block + (index - p.1) + (limit - index) = p.2.block + (limit - p.1) by omega,
      List.append_assoc, List.append_assoc]
  · rw [hparts]
    intro q hq
    rcases List.mem_cons.mp hq with rfl | hq
    · refine ⟨p, List.mem_cons_self, hle, ?_, rfl, Nat.sub_pos_of_lt hlt⟩
      dsimp only
      omega
    · rcases List.mem_cons.mp hq with rfl | hq
      · refine ⟨p, List.mem_cons_self, Nat.le_trans hle (Nat.le_of_lt hlt), ?_, rfl,
          Nat.sub_pos_of_lt hcross⟩
        exact Nat.le_of_eq (Nat.add_sub_cancel' (Nat.le_of_lt hcross))
      · exact ⟨q, List.mem_cons_of_mem p hq, .refl (hlaid.tail.counts q hq)⟩
  · have hapart := (List.pairwise_cons.mp hlaid.apart).1 q hq
    dsimp only
    omega

theorem CutSpec.done (hlaid : Laid l) (hindex : index ≤ limit)
    (hhead : ∀ p ∈ l.head?, index ≤ p.1) : CutSpec limit index l ⟨[], index, 0, l⟩ := by
  refine ⟨rfl, hindex, fun s hs => (nomatch hs), fun s hs => (nomatch hs), fun _ => rfl, ?_,
    fun q hq => ⟨q, hq, .refl (hlaid.counts q hq)⟩, fun q hq => ?_, List.suffix_refl l⟩
  · rw [belowList_nil hhead]
    rfl
  · cases l with
    | nil => cases hq
    | cons p l =>
        have hp := hhead p rfl
        rcases List.mem_cons.mp hq with rfl | hq
        · exact hp
        · exact Nat.le_trans hp (Nat.le_trans (Nat.le_add_right _ _)
            ((List.pairwise_cons.mp hlaid.apart).1 q hq))

/-- The cut of extents in order. -/
theorem cut_spec (hlaid : Laid l) (hat : ∀ p ∈ l.head?, index < p.1 + p.2.count)
    (hindex : index ≤ limit) (hfirst : (∀ p ∈ l.head?, index ≤ p.1) ∨ 0 < left ∧ index < limit) :
    CutSpec limit index l (cut limit left index l) := by
  induction left generalizing index l with
  | zero => exact .done hlaid hindex (hfirst.resolve_right fun h => Nat.lt_irrefl 0 h.1)
  | succ left ih =>
      rcases Nat.lt_or_ge index limit with hlt | hge
      · cases l with
        | nil =>
            rw [cut, if_pos hlt]
            exact (ih hlaid (fun p hp => (nomatch hp)) (Nat.le_refl limit)
              (.inl fun p hp => (nomatch hp))).hole hlt fun p hp => (nomatch hp)
        | cons p l =>
            have hend := hat p rfl
            rw [cut, if_pos hlt]
            by_cases hgap : index < p.1
            · rw [if_pos hgap]
              have hle : ∀ q ∈ (p :: l).head?, min p.1 limit ≤ q.1 := fun q hq => by
                cases hq
                exact Nat.min_le_left _ _
              refine (ih hlaid (fun q hq => ?_) (Nat.min_le_right _ _) (.inl hle)).hole
                (Nat.lt_min.mpr ⟨hgap, hlt⟩) hle
              exact Nat.lt_of_le_of_lt (hle q hq)
                (Nat.lt_add_of_pos_right (hlaid.counts q (List.mem_of_mem_head? hq)))
            · rw [if_neg hgap]
              have hle := Nat.not_lt.mp hgap
              split
              · next hcross => exact .cross hlaid hle hlt hcross
              · next hwhole =>
                  exact (ih hlaid.tail hlaid.next (Nat.not_lt.mp hwhole) (.inl fun q hq =>
                    (List.pairwise_cons.mp hlaid.apart).1 q
                      (List.mem_of_mem_head? hq))).extent hlaid hle hend
      · have hstop := @cut_stop limit (left + 1) index l hge
        rw [hstop]
        exact .done hlaid hindex (hfirst.resolve_right fun h => Nat.not_lt.mpr hge h.2)

end

end

/-! ## Holes of a region -/

section
variable {limit left index : ℕ} {l : List (ℕ × Extent)}

/-- No extent has the index. -/
def Free (l : List (ℕ × Extent)) (i : ℕ) : Prop := ∀ p ∈ l, p.1 ≤ i → p.1 + p.2.count ≤ i

theorem free_cons {p : ℕ × Extent} {i : ℕ} :
    Free (p :: l) i ↔ (p.1 ≤ i → p.1 + p.2.count ≤ i) ∧ Free l i := List.forall_mem_cons

theorem Laid.free {p : ℕ × Extent} {i : ℕ} (h : Laid (p :: l)) (hlt : i < p.1) :
    Free (p :: l) i ∧ (p :: l).countP (fun q => q.1 < i) = 0 := by
  have hafter : ∀ q ∈ p :: l, i < q.1 := by
    intro q hq
    rcases List.mem_cons.mp hq with rfl | hq
    · exact hlt
    · have hle := (List.pairwise_cons.mp h.apart).1 q hq
      omega
  refine ⟨fun q hq hle => absurd (hafter q hq) (Nat.not_lt.mpr hle), ?_⟩
  rw [List.countP_eq_zero]
  intro q hq
  have hlt := hafter q hq
  rw [decide_eq_true_eq]
  omega

/-- A hole is among the segments if there are fewer extents before it than segments. -/
theorem cut_hole (hlaid : Laid l) (hat : ∀ p ∈ l.head?, index < p.1 + p.2.count) :
    (∃ s ∈ (cut limit left index l).segs, s.state = .hole) ↔
      ∃ i, index ≤ i ∧ i < limit ∧ Free l i ∧ l.countP (fun p => p.1 < i) < left := by
  induction left generalizing index l with
  | zero =>
      constructor
      · rintro ⟨s, hs, -⟩
        cases hs
      · rintro ⟨i, -, -, -, hcount⟩
        exact absurd hcount (Nat.not_lt_zero _)
  | succ left ih =>
      by_cases hlt : index < limit
      · cases l with
        | nil =>
            rw [cut, if_pos hlt]
            refine iff_of_true ⟨_, List.mem_cons_self, rfl⟩ ⟨index, Nat.le_refl _, hlt, ?_, ?_⟩
            · exact fun p hp => absurd hp List.not_mem_nil
            · exact Nat.succ_pos left
        | cons p l =>
            rw [cut, if_pos hlt]
            by_cases hgap : index < p.1
            · rw [if_pos hgap]
              obtain ⟨hfree, hnone⟩ := hlaid.free hgap
              refine iff_of_true ⟨_, List.mem_cons_self, rfl⟩ ⟨index, Nat.le_refl _, hlt, hfree, ?_⟩
              rw [hnone]
              exact Nat.succ_pos left
            · rw [if_neg hgap]
              by_cases hcross : limit < p.1 + p.2.count
              · rw [if_pos hcross]
                refine iff_of_false ?_ ?_
                · rintro ⟨s, hs, hhole⟩
                  rw [List.mem_singleton.mp hs] at hhole
                  cases hhole
                · rintro ⟨i, hge, hlt', hfree, -⟩
                  have hend := (free_cons.mp hfree).1 (by omega)
                  omega
              · rw [if_neg hcross]
                have hend := hat p rfl
                have hnext := hlaid.next
                have hcons : (∃ s ∈ ((cut limit left (p.1 + p.2.count) l).cons
                    ⟨p.2.block + (index - p.1), p.1 + p.2.count - index, .mapped⟩).segs,
                      s.state = .hole) ↔
                    ∃ s ∈ (cut limit left (p.1 + p.2.count) l).segs, s.state = .hole := by
                  rw [Cut.cons]
                  dsimp only
                  rw [List.exists_mem_cons_iff]
                  exact or_iff_right (show SegState.mapped ≠ .hole by decide)
                rw [hcons, ih hlaid.tail hnext]
                have hbefore : ∀ i, p.1 + p.2.count ≤ i →
                    (p :: l).countP (fun q => q.1 < i) = l.countP (fun q => q.1 < i) + 1 := by
                  intro i hge
                  exact List.countP_cons_of_pos (by rw [decide_eq_true_eq]; omega)
                constructor
                · rintro ⟨i, hge, hlt', hfree, hcount⟩
                  refine ⟨i, by omega, hlt', free_cons.mpr ⟨fun _ => hge, hfree⟩, ?_⟩
                  rw [hbefore i hge]
                  omega
                · rintro ⟨i, hge, hlt', hfree, hcount⟩
                  obtain ⟨hp, hfree⟩ := free_cons.mp hfree
                  have hge' := hp (by omega)
                  rw [hbefore i hge'] at hcount
                  exact ⟨i, hge', hlt', hfree, by omega⟩
      · rw [cut_stop (Nat.not_lt.mp hlt)]
        refine iff_of_false ?_ ?_
        · rintro ⟨s, hs, -⟩
          cases hs
        · rintro ⟨i, hge, hlt', -⟩
          omega

/-- All segments are holes if the first one is, and the only one. -/
theorem cut_holes (hlaid : Laid l) (hat : ∀ p ∈ l.head?, index < p.1 + p.2.count)
    (hlt : index < limit) (hleft : 0 < left) :
    (∀ s ∈ (cut limit left index l).segs, s.state = .hole) ↔
      Free l index ∧ (left = 1 ∨ ∀ i, index ≤ i → i < limit → Free l i) := by
  obtain ⟨left, rfl⟩ := Nat.exists_eq_succ_of_ne_zero (Nat.ne_of_gt hleft)
  cases l with
  | nil =>
      rw [cut, if_pos hlt, cut_stop (Nat.le_refl _)]
      have hfree : ∀ i, Free [] i := fun i p hp => absurd hp List.not_mem_nil
      refine iff_of_true (fun s hs => ?_) ⟨hfree index, .inr fun i _ _ => hfree i⟩
      rw [List.mem_singleton.mp hs]
  | cons p l =>
      rw [cut, if_pos hlt]
      have hend := hat p rfl
      by_cases hgap : index < p.1
      · rw [if_pos hgap]
        refine (List.forall_mem_cons.trans ?_)
        rw [and_iff_right rfl, and_iff_right (hlaid.free hgap).1]
        rcases Nat.lt_or_ge p.1 limit with hin | hout
        · rw [Nat.min_eq_left (Nat.le_of_lt hin)]
          have hpos := hlaid.counts p List.mem_cons_self
          cases left with
          | zero => exact iff_of_true (fun s hs => absurd hs List.not_mem_nil) (.inl rfl)
          | succ left =>
              refine iff_of_false (fun hall => ?_) ?_
              · rw [cut, if_pos hin, if_neg (Nat.lt_irrefl _)] at hall
                split at hall
                · have hstate := hall _ List.mem_cons_self
                  cases hstate
                · have hstate := hall _ List.mem_cons_self
                  cases hstate
              · rintro (hone | hall)
                · omega
                · have hp := (free_cons.mp (hall p.1 (by omega) hin)).1 (Nat.le_refl _)
                  omega
        · rw [Nat.min_eq_right hout, cut_stop (Nat.le_refl _)]
          refine iff_of_true (fun s hs => absurd hs List.not_mem_nil) (.inr fun i _ hi => ?_)
          exact (hlaid.free (Nat.lt_of_lt_of_le hi hout)).1
      · rw [if_neg hgap]
        refine iff_of_false (fun hall => ?_) fun hfree => ?_
        · split at hall
          · have hstate := hall _ List.mem_cons_self
            cases hstate
          · have hstate := hall _ List.mem_cons_self
            cases hstate
        · have hp := (free_cons.mp hfree.1).1 (Nat.not_lt.mp hgap)
          omega

/-- Without holes every segment takes an extent. -/
theorem cut_length (h : ∀ s ∈ (cut limit left index l).segs, s.state ≠ .hole) :
    (cut limit left index l).segs.length ≤ l.length := by
  induction left generalizing index l with
  | zero => exact Nat.zero_le _
  | succ left ih =>
      by_cases hlt : index < limit
      · cases l with
        | nil =>
            rw [cut, if_pos hlt] at h
            exact absurd rfl (h _ List.mem_cons_self)
        | cons p l =>
            rw [cut, if_pos hlt] at h ⊢
            by_cases hgap : index < p.1
            · rw [if_pos hgap] at h
              exact absurd rfl (h _ List.mem_cons_self)
            · rw [if_neg hgap] at h ⊢
              split
              · exact Nat.succ_le_succ (Nat.zero_le _)
              · next hcross =>
                  rw [if_neg hcross] at h
                  exact Nat.succ_le_succ (ih fun s hs => h s (List.mem_cons_of_mem _ hs))
      · rw [cut_stop (Nat.not_lt.mp hlt)]
        exact Nat.zero_le _

end

end Tux3.MapRegion
