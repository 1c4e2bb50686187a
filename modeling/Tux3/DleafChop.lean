import Tux3.DleafCut

/-!
# Truncating a file index leaf

`dleaf_chop` keeps the indexes below the key and frees the blocks of the others. An extent over the
key is cut.
-/
namespace Tux3.Dleaf

/-- What stays of an extent below a key. -/
def keptBelow (key : ℕ) (p : ℕ × Extent) : Option (ℕ × Extent) :=
  if p.1 < key then some (p.1, ⟨p.2.block, min p.2.count (key - p.1)⟩) else none

/-- The blocks of an extent at a key or above. -/
def freedFrom (key : ℕ) (p : ℕ × Extent) : Option (ℕ × ℕ) :=
  if p.1 + p.2.count ≤ key then none
  else some (p.2.block + (key - p.1), p.2.count - (key - p.1))

/-- No extent lies in two ranges of `2 ^ 24` indexes. -/
def Leaf.Unstraddled (leaf : Leaf) : Prop :=
  ∀ p ∈ leaf.pairs, (p.1 + p.2.count - 1) / 2 ^ 24 = p.1 / 2 ^ 24

/-- No extent of a lower range reaches over a key. -/
def Leaf.ClearAt (leaf : Leaf) (key : ℕ) : Prop :=
  ∀ p ∈ leaf.pairs, p.1 / 2 ^ 24 < key / 2 ^ 24 → p.1 + p.2.count ≤ key

theorem Leaf.Unstraddled.clearAt {leaf : Leaf} (h : leaf.Unstraddled) (hordered : leaf.Ordered)
    (key : ℕ) : leaf.ClearAt key := by
  intro p hp hlt
  have hsame := h p hp
  have hcount := (hordered.counts p hp).1
  omega

section
variable {blocksize key : ℕ} {gs a b : List Bunch} {g : Bunch} {j k : ℕ}

/-- `dwalk_next` returns 0 behind the last extent. -/
theorem next_more (hgood : ∀ g ∈ gs, g.Good) (hk : k < size gs) :
    (dwalkNext (pack blocksize gs) (spot gs k)).2 = decide (k + 1 < size gs) := by
  obtain ⟨b, g, a, j, rfl, rfl, hj⟩ := exists_at hk
  have hmin : min (j + 1) g.items.length = j + 1 := Nat.min_eq_left hj
  have hend : dwalkEnd (here b g a j) = false := by
    apply decide_eq_false
    simp only [here, hmin]
    omega
  rw [spot_split (.inl hj), dwalkNext, hend, if_neg Bool.false_ne_true, here, hmin]
  dsimp only
  rw [if_pos (Nat.add_assoc _ _ _)]
  have hsize : size (b ++ g :: a) = size b + (g.items.length + size a) := by
    rw [size_append, size]
  by_cases hlast : j + 1 = g.items.length
  · cases a with
    | nil =>
        rw [if_pos ⟨by rw [hlast], rfl⟩, hsize, size]
        exact (decide_eq_false (by omega)).symm
    | cons g' a =>
        have hg' : 0 < g'.items.length :=
          List.length_pos_of_ne_nil (hgood g' (by simp)).ne_nil
        have hgstop : b.length + 1 ≠ b.length + 1 + (g' :: a).length := by
          rw [List.length_cons]
          omega
        rw [if_neg (fun h => hgstop h.2), hsize, size]
        exact (decide_eq_true (by omega)).symm
  · rw [if_neg (fun h => hlast (by omega)), hsize]
    exact (decide_eq_true (by omega)).symm

theorem freeExtents_spot (hgood : ∀ g ∈ gs, g.Good) {left : ℕ} (hk : k < size gs)
    (hleft : size gs ≤ k + left) :
    freeExtents (pack blocksize gs) left (spot gs k) =
      some (((pairsOf gs).drop k).map fun p => (p.2.block, p.2.count)) := by
  induction left generalizing k with
  | zero => omega
  | succ left ih =>
      have hlen : k < (pairsOf gs).length := by rwa [pairsOf_length]
      have hread := @spot_reads blocksize gs k hk
      rw [List.getElem?_eq_getElem hlen, Option.some_inj] at hread
      rw [freeExtents]
      rw [next_more hgood hk, next_spot hgood hk, List.drop_eq_getElem_cons hlen, List.map_cons,
        hread]
      by_cases hmore : k + 1 < size gs
      · rw [decide_eq_true hmore, if_pos rfl, ih hmore (by omega)]
        rfl
      · have hlast : (pairsOf gs).drop (k + 1) = [] :=
          List.drop_eq_nil_of_le (by rw [pairsOf_length]; omega)
        rw [decide_eq_false hmore, if_neg Bool.false_ne_true, hlast]
        rfl

theorem chopFrom_spot (h : Fits blocksize gs) (hk : k < size gs) (freed : List (ℕ × ℕ)) :
    ∃ leaf, chopFrom blocksize (pack blocksize gs) (spot gs k) freed =
        some (leaf, freed ++ ((pairsOf gs).drop k).map fun p => (p.2.block, p.2.count)) ∧
      leaf.Sound blocksize ∧ leaf.pairs = (pairsOf gs).take k := by
  obtain ⟨leaf, walk, hchop, hpairs, hsound, -, -⟩ := chop_partition h (Nat.le_of_lt hk)
  have htable : (pack blocksize gs).table.length = size gs := packTable_length
  refine ⟨leaf, ?_, hsound, hpairs⟩
  rw [chopFrom, htable, freeExtents_spot h.good hk (Nat.le_add_left _ _), hchop]
  exact if_pos hsound.check

/-! ## Cutting an extent -/

section
variable {keyhi : ℕ} {l r : List (ℕ × Extent)} {x : ℕ × Extent} {extent : Extent}

theorem Bunch.Good.update (hg : Bunch.Good ⟨keyhi, l ++ x :: r⟩) (hblock : extent.block ≠ 0) :
    Bunch.Good ⟨keyhi, l ++ (x.1, extent) :: r⟩ where
  ne_nil := List.append_ne_nil_of_right_ne_nil l (List.cons_ne_nil _ _)
  le_max := by
    have hmax := hg.le_max
    rw [List.length_append, List.length_cons] at hmax ⊢
    exact hmax
  sorted := by
    have hsorted := hg.sorted
    dsimp only at hsorted ⊢
    rw [List.map_append, List.map_cons] at hsorted ⊢
    exact hsorted
  blocks := by
    intro y hy
    rcases List.mem_append.mp hy with hy | hy
    · exact hg.blocks y (List.mem_append_left _ hy)
    · rcases List.mem_cons.mp hy with rfl | hy
      · exact hblock
      · exact hg.blocks y (List.mem_append_right _ (List.mem_cons_of_mem _ hy))
  keyhi_lt := hg.keyhi_lt
  keylo_lt := by
    intro y hy
    rcases List.mem_append.mp hy with hy | hy
    · exact hg.keylo_lt y (List.mem_append_left _ hy)
    · rcases List.mem_cons.mp hy with rfl | hy
      · exact hg.keylo_lt x (List.mem_append_right _ List.mem_cons_self)
      · exact hg.keylo_lt y (List.mem_append_right _ (List.mem_cons_of_mem _ hy))

theorem Fits.update (h : Fits blocksize (b ++ ⟨keyhi, l ++ x :: r⟩ :: a))
    (hblock : extent.block ≠ 0) : Fits blocksize (b ++ ⟨keyhi, l ++ (x.1, extent) :: r⟩ :: a) where
  good := by
    intro y hy
    rcases List.mem_append.mp hy with hy | hy
    · exact h.good y (List.mem_append_left _ hy)
    · rcases List.mem_cons.mp hy with rfl | hy
      · exact (h.good ⟨keyhi, l ++ x :: r⟩ (by simp)).update hblock
      · exact h.good y (by simp [hy])
  sorted := by
    have hsorted := h.sorted
    rw [List.map_append, List.map_cons] at hsorted ⊢
    exact hsorted
  room := by
    have hroom := h.room
    simp only [size_append, size, List.length_append, List.length_cons] at hroom ⊢
    exact hroom

theorem update_pack (walk : Dwalk) (hwalk : walk.extent = size b + l.length) :
    dwalkUpdate (pack blocksize (b ++ ⟨keyhi, l ++ x :: r⟩ :: a)) walk extent =
      pack blocksize (b ++ ⟨keyhi, l ++ (x.1, extent) :: r⟩ :: a) := by
  have hsize : size (b ++ ⟨keyhi, l ++ x :: r⟩ :: a) =
      size (b ++ ⟨keyhi, l ++ (x.1, extent) :: r⟩ :: a) := by
    simp only [size_append, size, List.length_append, List.length_cons]
  rw [dwalkUpdate, pack, pack, Leaf.mk.injEq, hsize, hwalk]
  refine ⟨?_, ?_, ?_, rfl, ?_⟩
  · simp only [packGroups_append, packGroups_cons, List.length_append, List.length_cons]
  · simp only [packEntries_append, packEntries_cons, packFrom_append, packFrom]
  · dsimp only
    have hlen : size b + l.length = (packTable b ++ l.map Prod.snd).length := by
      rw [List.length_append, packTable_length, List.length_map]
    simp only [packTable_append, packTable_cons, List.map_append, List.map_cons]
    rw [List.append_assoc, ← List.append_assoc, hlen, List.set_append_right _ _ (Nat.le_refl _),
      Nat.sub_self]
    simp only [List.cons_append, List.set_cons_zero, List.append_assoc]
  · simp only [List.length_append, List.length_cons]

end

theorem pairsOf_around {keyhi : ℕ} {l r : List (ℕ × Extent)} {x : ℕ × Extent} :
    pairsOf (b ++ ⟨keyhi, l ++ x :: r⟩ :: a) =
      (pairsOf b ++ l.map fun y => (getIndex keyhi y.1, y.2)) ++
        (getIndex keyhi x.1, x.2) :: (r.map (fun y => (getIndex keyhi y.1, y.2)) ++ pairsOf a) := by
  rw [pairsOf_append, pairsOf_cons, Bunch.pairs, List.map_append, List.map_cons]
  simp only [List.append_assoc, List.cons_append]

/-! ## What stays and what is freed -/

section
variable {l : List (ℕ × Extent)} (hcounts : ∀ p ∈ l, 1 ≤ p.2.count)
include hcounts

theorem filterMap_below (h : ∀ p ∈ l, p.1 + p.2.count ≤ key) :
    l.filterMap (keptBelow key) = l ∧ l.filterMap (freedFrom key) = [] := by
  constructor
  · refine (List.filterMap_congr fun p hp => ?_).trans List.filterMap_some
    have hcount := hcounts p hp
    have hle := h p hp
    rw [keptBelow, if_pos (by omega), Nat.min_eq_left (by omega)]
  · rw [List.filterMap_eq_nil_iff]
    intro p hp
    rw [freedFrom, if_pos (h p hp)]

theorem filterMap_above (h : ∀ p ∈ l, key ≤ p.1) :
    l.filterMap (keptBelow key) = [] ∧
      l.filterMap (freedFrom key) = l.map fun p => (p.2.block, p.2.count) := by
  constructor
  · rw [List.filterMap_eq_nil_iff]
    intro p hp
    rw [keptBelow, if_neg (Nat.not_lt.mpr (h p hp))]
  · rw [← List.filterMap_eq_map]
    refine List.filterMap_congr fun p hp => ?_
    have hcount := hcounts p hp
    have hle := h p hp
    have hzero : key - p.1 = 0 := by omega
    rw [freedFrom, if_neg (by omega), hzero, Nat.add_zero, Nat.sub_zero]
    rfl

end

/-! ## The chop -/

/-- The probe splits the extents: those before it end below the key, the one at it ends above the
key, and the later ones start there. -/
theorem probe_splits (hkey : key < 2 ^ 56) (h : Fits blocksize gs)
    (hordered : (pack blocksize gs).Ordered) (hclear : (pack blocksize gs).ClearAt key) :
    ∃ k ≤ size gs, dwalkProbe (pack blocksize gs) key = (spot gs k, decide (k < size gs)) ∧
      (∀ p ∈ (pairsOf gs).take k, p.1 + p.2.count ≤ key) ∧
      (∀ x ∈ (pairsOf gs)[k]?, key < x.1 + x.2.count) ∧
      ∀ p ∈ (pairsOf gs).drop (k + 1), key ≤ p.1 := by
  have hapart := hordered.apart
  have hcounts := fun p hp => (hordered.counts p hp).1
  rw [pack_pairs] at hapart hcounts
  rw [Leaf.ClearAt, pack_pairs] at hclear
  have hprobe := @dwalkProbe_reaches blocksize key gs hkey h.good h.sorted hapart
  generalize hk : (pairsOf gs).findIdx (fun p => decide (Reaches key p)) = k at hprobe
  -- an extent that ends above the key starts in the range of the key or above
  have hreaches : ∀ p ∈ pairsOf gs, key < p.1 + p.2.count → Reaches key p := by
    intro p hp hlt
    have hclear := hclear p hp
    refine ⟨?_, hlt⟩
    by_contra hless
    exact absurd (hclear (Nat.lt_of_not_le hless)) (Nat.not_le.mpr hlt)
  have hat : ∀ x ∈ (pairsOf gs)[k]?, key < x.1 + x.2.count := by
    intro x hx
    have hreach := @List.findIdx_of_getElem?_eq_some _ (fun p => decide (Reaches key p)) x
      (pairsOf gs) (by rw [hk]; exact hx)
    exact (of_decide_eq_true hreach).2
  refine ⟨k, hk ▸ pairsOf_length ▸ List.findIdx_le_length, hprobe, ?_, hat, ?_⟩
  · intro p hp
    obtain ⟨i, hi, rfl⟩ := List.getElem_of_mem hp
    rw [List.length_take] at hi
    rw [List.getElem_take]
    have hik : i < (pairsOf gs).findIdx (fun p => decide (Reaches key p)) := by omega
    have hnot := of_decide_eq_false (List.not_of_lt_findIdx hik)
    exact Nat.le_of_not_lt fun hlt => hnot (hreaches _ (List.getElem_mem _) hlt)
  · intro p hp
    have hlt : k < (pairsOf gs).length := by
      by_contra hge
      rw [List.drop_eq_nil_of_le (by omega)] at hp
      cases hp
    rw [← List.take_append_drop k (pairsOf gs), List.drop_eq_getElem_cons hlt] at hapart
    have hpair := (List.pairwise_cons.mp (List.pairwise_append.mp hapart).2.1).1 p hp
    have hover := hat _ (List.getElem?_eq_getElem hlt)
    omega

theorem chop_whole (h : Fits blocksize gs) (hk : k < size gs)
    (hprobe : dwalkProbe (pack blocksize gs) key = (spot gs k, true))
    (hindex : key ≤ dwalkIndex (pack blocksize gs) (spot gs k)) :
    ∃ leaf, dleafChop blocksize (pack blocksize gs) key =
        some (leaf, ((pairsOf gs).drop k).map fun p => (p.2.block, p.2.count)) ∧
      leaf.Sound blocksize ∧ leaf.pairs = (pairsOf gs).take k := by
  have hfound : ¬(true : Bool) = false := by decide
  obtain ⟨leaf, hchop, hsound, hpairs⟩ := chopFrom_spot h hk []
  refine ⟨leaf, ?_, hsound, hpairs⟩
  rw [dleafChop, hprobe]
  dsimp only
  rw [if_neg hfound, if_neg (Nat.not_lt.mpr hindex), hchop]
  rfl

/-- An extent over the key is cut, and all later ones go. -/
theorem chop_cut {keyhi : ℕ} {l r : List (ℕ × Extent)} {x : ℕ × Extent}
    {P R : List (ℕ × Extent)} (h : Fits blocksize (b ++ ⟨keyhi, l ++ x :: r⟩ :: a))
    (hP : P = pairsOf b ++ l.map fun y => (getIndex keyhi y.1, y.2))
    (hR : R = r.map (fun y => (getIndex keyhi y.1, y.2)) ++ pairsOf a)
    (hprobe : dwalkProbe (pack blocksize (b ++ ⟨keyhi, l ++ x :: r⟩ :: a)) key =
      (spot (b ++ ⟨keyhi, l ++ x :: r⟩ :: a) (size b + l.length), true))
    (hcut : getIndex keyhi x.1 < key) (hover : key < getIndex keyhi x.1 + x.2.count)
    (hcount : x.2.count ≤ 64) :
    ∃ leaf, dleafChop blocksize (pack blocksize (b ++ ⟨keyhi, l ++ x :: r⟩ :: a)) key =
        some (leaf, (x.2.block + (key - getIndex keyhi x.1),
          x.2.count - (key - getIndex keyhi x.1)) :: R.map fun p => (p.2.block, p.2.count)) ∧
      leaf.Sound blocksize ∧
      leaf.pairs = P ++ [(getIndex keyhi x.1, ⟨x.2.block, key - getIndex keyhi x.1⟩)] := by
  have hfound : ¬(true : Bool) = false := by decide
  -- the count of the part that stays is that of an extent
  have hkeep : u32 (key - getIndex keyhi x.1) = key - getIndex keyhi x.1 := u32_of_lt (by omega)
  have hrest : u32 (2 ^ 32 + x.2.count - (key - getIndex keyhi x.1)) =
      x.2.count - (key - getIndex keyhi x.1) := by
    rw [u32]
    omega
  have hmade : ¬(key - getIndex keyhi x.1 = 0 ∨ 64 < key - getIndex keyhi x.1) := by omega
  have hj : l.length < (l ++ x :: r).length := by
    rw [List.length_append, List.length_cons]
    omega
  have hlen : P.length = size b + l.length := by
    rw [hP, List.length_append, pairsOf_length, List.length_map]
  have hlt : size b + l.length < size (b ++ ⟨keyhi, l ++ x :: r⟩ :: a) := by
    rw [size_append, size]
    exact Nat.add_lt_add_left (Nat.lt_of_lt_of_le hj (Nat.le_add_right _ _)) _
  -- the walk reads the extent
  have hread := @spot_reads blocksize _ _ hlt
  rw [pairsOf_around, ← hP, ← hR, ← hlen, List.getElem?_append_right (Nat.le_refl _),
    Nat.sub_self, List.getElem?_cons_zero, Option.some_inj, Prod.mk.injEq, hlen,
    spot_extent (Nat.le_of_lt hlt)] at hread
  obtain ⟨hindex, hextent⟩ := hread
  -- the leaf with the cut extent
  have hblock : x.2.block ≠ 0 := (h.good ⟨keyhi, l ++ x :: r⟩ (by simp)).blocks x (by simp)
  set extent : Extent := ⟨x.2.block, key - getIndex keyhi x.1⟩ with hextentdef
  have hfits := @Fits.update _ _ _ _ _ _ _ extent h hblock
  have hupdate := @update_pack blocksize a b keyhi l r x extent _ (spot_extent (Nat.le_of_lt hlt))
  have haround := @pairsOf_around a b keyhi l r (x.1, extent)
  rw [← hP, ← hR, List.append_cons P] at haround
  have hlen' : (P ++ [(getIndex keyhi x.1, extent)]).length = size b + l.length + 1 := by
    rw [List.length_append, hlen]
    rfl
  have hwalk : spot (b ++ ⟨keyhi, l ++ x :: r⟩ :: a) (size b + l.length) =
      spot (b ++ ⟨keyhi, l ++ (x.1, extent) :: r⟩ :: a) (size b + l.length) := by
    rw [spot_split (.inl hj), spot_split (.inl (by simp)), here, here]
    simp only [List.length_append, List.length_cons]
  have hlt' : size b + l.length < size (b ++ ⟨keyhi, l ++ (x.1, extent) :: r⟩ :: a) := by
    simp only [size_append, size, List.length_append, List.length_cons] at hlt ⊢
    exact hlt
  rw [dleafChop, hprobe]
  dsimp only
  rw [if_neg hfound, ← hindex, if_pos hcut, spot_extent (Nat.le_of_lt hlt), ← hextent, hkeep, hrest,
    if_neg hmade, ← hextentdef, hupdate, hwalk, @next_more blocksize _ _ hfits.good hlt',
    @next_spot blocksize _ _ hfits.good hlt']
  by_cases hmore : size b + l.length + 1 < size (b ++ ⟨keyhi, l ++ (x.1, extent) :: r⟩ :: a)
  · obtain ⟨leaf, hchop, hsound, hpairs⟩ := chopFrom_spot hfits hmore
      [(x.2.block + (key - getIndex keyhi x.1), x.2.count - (key - getIndex keyhi x.1))]
    rw [haround, List.drop_left' hlen'] at hchop
    rw [haround, List.take_left' hlen'] at hpairs
    rw [decide_eq_true hmore, if_pos rfl, hchop]
    exact ⟨leaf, rfl, hsound, hpairs⟩
  · have hnil : R = [] := by
      apply List.eq_nil_of_length_eq_zero
      have hlength := congrArg List.length haround
      rw [pairsOf_length, List.length_append] at hlength
      dsimp only at hlength
      omega
    rw [decide_eq_false hmore, if_neg Bool.false_ne_true, if_pos hfits.check, hnil]
    refine ⟨_, rfl, hfits.sound, ?_⟩
    rw [pack_pairs, haround, hnil, List.append_nil]

/-- `dleaf_chop` on a leaf with extents in order. -/
theorem dleafChop_packed (hkey : key < 2 ^ 56) (h : Fits blocksize gs)
    (hordered : (pack blocksize gs).Ordered) (hclear : (pack blocksize gs).ClearAt key) :
    ∃ leaf, dleafChop blocksize (pack blocksize gs) key =
        some (leaf, (pairsOf gs).filterMap (freedFrom key)) ∧
      leaf.Sound blocksize ∧ leaf.pairs = (pairsOf gs).filterMap (keptBelow key) := by
  obtain ⟨k, hle, hprobe, hbefore, hat, hlater⟩ := probe_splits hkey h hordered hclear
  have hcounts : ∀ p ∈ pairsOf gs, 1 ≤ p.2.count := fun p hp =>
    (hordered.counts p (pack_pairs ▸ hp)).1
  obtain ⟨hkept, hfreed⟩ := filterMap_below
    (fun p hp => hcounts p (List.mem_of_mem_take hp)) hbefore
  obtain ⟨hkeptR, hfreedR⟩ := filterMap_above
    (fun p hp => hcounts p (List.mem_of_mem_drop hp)) hlater
  rcases Nat.lt_or_eq_of_le hle with hlt | rfl
  · rw [decide_eq_true hlt] at hprobe
    have hlen : k < (pairsOf gs).length := pairsOf_length ▸ hlt
    have hread := @spot_reads blocksize gs k hlt
    rw [List.getElem?_eq_getElem hlen, Option.some_inj] at hread
    have hends := Nat.not_le.mpr (hat _ (List.getElem?_eq_getElem hlen))
    have hmax : (pairsOf gs)[k].2.count ≤ 64 :=
      (hordered.counts (pairsOf gs)[k] (by rw [pack_pairs]; exact List.getElem_mem hlen)).2
    have hsplit : pairsOf gs =
        (pairsOf gs).take k ++ (pairsOf gs)[k] :: (pairsOf gs).drop (k + 1) := by
      rw [← List.drop_eq_getElem_cons hlen, List.take_append_drop]
    have hkeeps : (pairsOf gs).filterMap (keptBelow key) =
        (pairsOf gs).take k ++ (keptBelow key (pairsOf gs)[k]).toList := by
      conv_lhs => rw [hsplit]
      rw [List.filterMap_append, List.filterMap_cons, hkept, hkeptR]
      cases keptBelow key (pairsOf gs)[k] <;> rfl
    have hfrees : (pairsOf gs).filterMap (freedFrom key) =
        (freedFrom key (pairsOf gs)[k]).toList ++
          ((pairsOf gs).drop (k + 1)).map fun p => (p.2.block, p.2.count) := by
      conv_lhs => rw [hsplit]
      rw [List.filterMap_append, List.filterMap_cons, hfreed, hfreedR]
      cases freedFrom key (pairsOf gs)[k] <;> rfl
    rw [hkeeps, hfrees, freedFrom, if_neg hends, keptBelow]
    by_cases hcut : (pairsOf gs)[k].1 < key
    · rw [if_pos hcut, Nat.min_eq_right (by omega)]
      obtain ⟨b, g, a, j, rfl, rfl, hj⟩ := exists_at hlt
      obtain ⟨keyhi, l, x, r, rfl, rfl⟩ : ∃ keyhi l x r, g = ⟨keyhi, l ++ x :: r⟩ ∧
          j = l.length :=
        ⟨g.keyhi, g.items.take j, g.items[j], g.items.drop (j + 1), by
          rw [← List.drop_eq_getElem_cons hj, List.take_append_drop], by
          rw [List.length_take, Nat.min_eq_left (Nat.le_of_lt hj)]⟩
      have haround := @pairsOf_around a b keyhi l r x
      generalize hP : (pairsOf b ++ l.map fun y => (getIndex keyhi y.1, y.2)) = P at haround
      generalize hR : r.map (fun y => (getIndex keyhi y.1, y.2)) ++ pairsOf a = R at haround
      have hlenP : P.length = size b + l.length := by
        rw [← hP, List.length_append, pairsOf_length, List.length_map]
      have htake : (pairsOf (b ++ ⟨keyhi, l ++ x :: r⟩ :: a)).take (size b + l.length) = P := by
        rw [haround, List.take_left' hlenP]
      have hdrop : (pairsOf (b ++ ⟨keyhi, l ++ x :: r⟩ :: a)).drop (size b + l.length) =
          (getIndex keyhi x.1, x.2) :: R := by
        rw [haround, List.drop_left' hlenP]
      have hcons := hdrop
      rw [List.drop_eq_getElem_cons hlen] at hcons
      obtain ⟨hget, hrest⟩ := List.cons.inj hcons
      rw [hget] at hcut ⊢
      rw [hget] at hends hmax
      obtain ⟨leaf, hchop, hsound, hpairs⟩ := chop_cut h hP.symm hR.symm hprobe hcut
        (Nat.not_le.mp hends) hmax
      rw [htake, hrest]
      exact ⟨leaf, hchop, hsound, hpairs⟩
    · have hzero : key - (pairsOf gs)[k].1 = 0 := by omega
      obtain ⟨leaf, hchop, hsound, hpairs⟩ := chop_whole h hlt hprobe
        (Nat.le_trans (Nat.not_lt.mp hcut) (Nat.le_of_eq (congrArg Prod.fst hread)))
      rw [if_neg hcut, hzero, Nat.add_zero, Nat.sub_zero]
      refine ⟨leaf, ?_, hsound, hpairs.trans (List.append_nil _).symm⟩
      rw [hchop, List.drop_eq_getElem_cons hlen, List.map_cons]
      rfl
  · -- every extent ends at or below the key
    rw [List.take_of_length_le (Nat.le_of_eq pairsOf_length)] at hkept hfreed
    rw [decide_eq_false (Nat.lt_irrefl _)] at hprobe
    refine ⟨pack blocksize gs, ?_, h.sound, ?_⟩
    · rw [dleafChop, hprobe, hfreed]
      rfl
    · rw [pack_pairs, hkept]

end

theorem dleafChop_sound {blocksize key : ℕ} {leaf : Leaf} (hkey : key < 2 ^ 56)
    (h : leaf.Sound blocksize) (hordered : leaf.Ordered) (hclear : leaf.ClearAt key) :
    ∃ leaf', dleafChop blocksize leaf key = some (leaf', leaf.pairs.filterMap (freedFrom key)) ∧
      leaf'.Sound blocksize ∧ leaf'.pairs = leaf.pairs.filterMap (keptBelow key) := by
  obtain ⟨gs, hfits, rfl⟩ := h.packed
  rw [pack_pairs]
  exact dleafChop_packed hkey hfits hordered hclear

/-- A leaf without extents is as `dleaf_init` leaves it. -/
theorem Leaf.Sound.eq_init {blocksize : ℕ} {leaf : Leaf} (h : leaf.Sound blocksize)
    (hpairs : leaf.pairs = []) : leaf = dleafInit blocksize := by
  obtain ⟨gs, hfits, rfl⟩ := h.packed
  rw [pack_pairs] at hpairs
  cases gs with
  | nil => rfl
  | cons g gs =>
      have hne := (hfits.good g List.mem_cons_self).ne_nil
      have hlen := congrArg List.length hpairs
      rw [pairsOf_length, size, List.length_nil] at hlen
      have hpos := List.length_pos_of_ne_nil hne
      omega

theorem keptBelow_le {key : ℕ} {p q : ℕ × Extent} (h : keptBelow key p = some q) :
    q.1 = p.1 ∧ q.2.count ≤ p.2.count ∧ (1 ≤ p.2.count → 1 ≤ q.2.count) := by
  rw [keptBelow] at h
  split at h
  · next hkey =>
      obtain rfl := Option.some.inj h
      exact ⟨rfl, Nat.min_le_left _ _, fun hcount => Nat.le_min.mpr ⟨hcount, by omega⟩⟩
  · cases h

theorem Leaf.Ordered.kept {leaf leaf' : Leaf} (h : leaf.Ordered) {key : ℕ}
    (hpairs : leaf'.pairs = leaf.pairs.filterMap (keptBelow key)) : leaf'.Ordered where
  increasing := by
    rw [hpairs, List.pairwise_map]
    refine (List.pairwise_map.mp h.increasing).filterMap _ fun p p' hlt q hq q' hq' => ?_
    rw [(keptBelow_le hq).1, (keptBelow_le hq').1]
    exact hlt
  apart := by
    rw [hpairs]
    refine h.apart.filterMap _ fun p p' hle q hq q' hq' => ?_
    obtain ⟨hindex, hcount, -⟩ := keptBelow_le hq
    rw [hindex, (keptBelow_le hq').1]
    omega
  counts := by
    intro q hq
    rw [hpairs] at hq
    obtain ⟨p, hp, hq⟩ := List.mem_filterMap.mp hq
    obtain ⟨-, hcount, hpos⟩ := keptBelow_le hq
    obtain ⟨hone, hmax⟩ := h.counts p hp
    exact ⟨hpos hone, Nat.le_trans hcount hmax⟩

/-! ## The mapping -/

/-- The indexes of an extent, each with its block. -/
def indexBlocks (p : ℕ × Extent) : List (ℕ × ℕ) :=
  (List.range' p.1 p.2.count).map fun index => (index, p.2.block + (index - p.1))

/-- The indexes that a leaf maps, in order, each with its block. -/
def Leaf.mapping (leaf : Leaf) : List (ℕ × ℕ) := leaf.pairs.flatMap indexBlocks

theorem filter_append_left {α : Type} {l r : List α} {p : α → Bool} (hl : ∀ x ∈ l, p x = true)
    (hr : ∀ x ∈ r, ¬p x = true) : (l ++ r).filter p = l := by
  rw [List.filter_append, List.filter_eq_self.mpr hl, List.filter_eq_nil_iff.mpr hr,
    List.append_nil]

theorem filter_append_right {α : Type} {l r : List α} {p : α → Bool} (hl : ∀ x ∈ l, ¬p x = true)
    (hr : ∀ x ∈ r, p x = true) : (l ++ r).filter p = r := by
  rw [List.filter_append, List.filter_eq_nil_iff.mpr hl, List.filter_eq_self.mpr hr,
    List.nil_append]

/-- A key divides an extent into the part that stays and the part that is freed. -/
theorem indexBlocks_divides (key : ℕ) (p : ℕ × Extent) :
    (indexBlocks p).filter (fun m => m.1 < key) = (keptBelow key p).toList.flatMap indexBlocks ∧
      ((indexBlocks p).filter fun m => key ≤ m.1).map Prod.snd =
        (freedFrom key p).toList.flatMap fun c => List.range' c.1 c.2 := by
  obtain ⟨index, ⟨block, count⟩⟩ := p
  obtain ⟨k, hk, hkey, heither⟩ : ∃ k ≤ count, k ≤ key - index ∧ (k = count ∨ k = key - index) :=
    ⟨min count (key - index), Nat.min_le_left _ _, Nat.min_le_right _ _, by omega⟩
  have hsplit : indexBlocks (index, ⟨block, count⟩) =
      (List.range' index k).map (fun x => (x, block + (x - index))) ++
        (List.range' (index + k) (count - k)).map fun x => (x, block + (x - index)) := by
    rw [← List.map_append, List.range'_append_1, Nat.add_sub_cancel' hk]
    rfl
  have hlow : ∀ m ∈ (List.range' index k).map fun x => (x, block + (x - index)), m.1 < key := by
    intro m hm
    obtain ⟨x, hx, rfl⟩ := List.mem_map.mp hm
    obtain ⟨hge, hlt⟩ := List.mem_range'_1.mp hx
    dsimp only
    omega
  have hhigh : ∀ m ∈ (List.range' (index + k) (count - k)).map fun x => (x, block + (x - index)),
      key ≤ m.1 := by
    intro m hm
    obtain ⟨x, hx, rfl⟩ := List.mem_map.mp hm
    obtain ⟨hge, hlt⟩ := List.mem_range'_1.mp hx
    dsimp only
    omega
  constructor
  · rw [hsplit, filter_append_left (fun m hm => decide_eq_true (hlow m hm)) fun m hm =>
      mt of_decide_eq_true (Nat.not_lt.mpr (hhigh m hm)), keptBelow]
    split
    · next hlt =>
        dsimp only at hlt ⊢
        rw [show min count (key - index) = k by omega, Option.toList_some, List.flatMap_singleton]
        rfl
    · next hge =>
        rw [show k = 0 by dsimp only at hge; omega]
        rfl
  · have hblocks : (List.range' (index + k) (count - k)).map (fun x => block + (x - index)) =
        List.range' (block + k) (count - k) := by
      rw [List.range'_eq_map_range, List.range'_eq_map_range, List.map_map]
      refine List.map_congr_left fun i _ => ?_
      change block + (index + k + i - index) = block + k + i
      omega
    rw [hsplit, filter_append_right (fun m hm => mt of_decide_eq_true (Nat.not_le.mpr (hlow m hm)))
      fun m hm => decide_eq_true (hhigh m hm), List.map_map, freedFrom]
    change (List.range' (index + k) (count - k)).map (fun x => block + (x - index)) = _
    rw [hblocks]
    split
    · next hle =>
        dsimp only at hle
        rw [show count - k = 0 by omega]
        rfl
    · next hlt =>
        dsimp only at hlt ⊢
        rw [show key - index = k by omega, Option.toList_some, List.flatMap_singleton]

/-- The return value of `dleaf_chop` says whether anything is mapped at the key or above. -/
theorem dleafChopReturn_eq {blocksize key : ℕ} {leaf : Leaf} (hkey : key < 2 ^ 56)
    (h : leaf.Sound blocksize) (hordered : leaf.Ordered) (hclear : leaf.ClearAt key) :
    dleafChopReturn leaf key = if ∃ m ∈ leaf.mapping, key ≤ m.1 then 1 else 0 := by
  obtain ⟨gs, hfits, rfl⟩ := h.packed
  obtain ⟨k, hle, hprobe, hbefore, hat, -⟩ := probe_splits hkey hfits hordered hclear
  have hcounts := fun p hp => (hordered.counts p hp).1
  rw [pack_pairs] at hcounts
  rw [dleafChopReturn, hprobe, Leaf.mapping, pack_pairs]
  rcases Nat.lt_or_eq_of_le hle with hlt | rfl
  · have hlen : k < (pairsOf gs).length := pairsOf_length ▸ hlt
    have hover := hat _ (List.getElem?_eq_getElem hlen)
    have hcount := hcounts _ (List.getElem_mem hlen)
    rw [decide_eq_true hlt, if_neg (Ne.symm Bool.false_ne_true), if_pos]
    refine ⟨((pairsOf gs)[k].1 + (pairsOf gs)[k].2.count - 1, _), List.mem_flatMap.mpr
      ⟨_, List.getElem_mem hlen, List.mem_map.mpr ⟨_, List.mem_range'_1.mpr ⟨?_, ?_⟩, rfl⟩⟩, ?_⟩
    · omega
    · omega
    · exact Nat.le_sub_one_of_lt hover
  · rw [decide_eq_false (Nat.lt_irrefl _), if_pos rfl, if_neg]
    rintro ⟨m, hm, hkey⟩
    obtain ⟨p, hp, hm⟩ := List.mem_flatMap.mp hm
    obtain ⟨index, hindex, rfl⟩ := List.mem_map.mp hm
    obtain ⟨-, hlt⟩ := List.mem_range'_1.mp hindex
    rw [List.take_of_length_le (Nat.le_of_eq pairsOf_length)] at hbefore
    exact Nat.not_le.mpr hlt (Nat.le_trans (hbefore p hp) hkey)

/-- Below key `2 ^ 56`, `dleaf_chop` leaves the mapping below the key, frees the blocks that were
mapped from the key on, each once, and says whether there were any. -/
theorem dleafChop_exact {blocksize key : ℕ} {leaf : Leaf} (h : leaf.Sound blocksize)
    (hordered : leaf.Ordered) (hrange : leaf.Unstraddled) (hkey : key < 2 ^ 56) :
    ∃ leaf' freed, dleafChop blocksize leaf key = some (leaf', freed) ∧
      leaf'.Sound blocksize ∧ leaf'.Ordered ∧ leaf'.Unstraddled ∧
      leaf'.pairs = leaf.pairs.filterMap (keptBelow key) ∧
      leaf'.mapping = leaf.mapping.filter (fun m => m.1 < key) ∧
      (freed.flatMap fun c => List.range' c.1 c.2) =
        (leaf.mapping.filter fun m => key ≤ m.1).map Prod.snd ∧
      (∀ c ∈ freed, 0 < c.2) ∧
      dleafChopReturn leaf key = if ∃ m ∈ leaf.mapping, key ≤ m.1 then 1 else 0 := by
  have hclear := hrange.clearAt hordered key
  obtain ⟨leaf', hchop, hsound, hpairs⟩ := dleafChop_sound hkey h hordered hclear
  refine ⟨leaf', _, hchop, hsound, hordered.kept hpairs, ?_, hpairs, ?_, ?_, ?_,
    dleafChopReturn_eq hkey h hordered hclear⟩
  · intro q hq
    rw [hpairs] at hq
    obtain ⟨p, hp, hq⟩ := List.mem_filterMap.mp hq
    obtain ⟨hindex, hcount, hpos⟩ := keptBelow_le hq
    have hone := hpos (hordered.counts p hp).1
    have hsame := hrange p hp
    rw [hindex]
    omega
  · rw [Leaf.mapping, Leaf.mapping, hpairs, List.filter_flatMap, List.filterMap_eq_flatMap_toList,
      List.flatMap_assoc]
    exact List.flatMap_congr fun p _ => (indexBlocks_divides key p).1.symm
  · rw [Leaf.mapping, List.filter_flatMap, List.map_flatMap, List.filterMap_eq_flatMap_toList,
      List.flatMap_assoc]
    exact List.flatMap_congr fun p _ => (indexBlocks_divides key p).2.symm
  · intro c hc
    obtain ⟨p, hp, hc⟩ := List.mem_filterMap.mp hc
    have hcount := (hordered.counts p hp).1
    rw [freedFrom] at hc
    split at hc
    · cases hc
    · obtain rfl := Option.some.inj hc
      dsimp only
      omega

theorem sample_ordered : (pack 4096 sample).Ordered := by
  refine ⟨?_, ?_, ?_⟩
  · rw [pack_pairs]
    decide
  · rw [pack_pairs]
    decide
  · rw [pack_pairs]
    decide

theorem sample_unstraddled : (pack 4096 sample).Unstraddled := by
  unfold Leaf.Unstraddled
  rw [pack_pairs]
  decide

/-- The key is inside the last extent. -/
theorem dleafChop_exact_sample :
    ∃ leaf' freed, dleafChop 4096 (pack 4096 sample) (2 ^ 24 + 5) = some (leaf', freed) ∧
      leaf'.Sound 4096 ∧ leaf'.Ordered ∧ leaf'.Unstraddled ∧
      leaf'.pairs = (pack 4096 sample).pairs.filterMap (keptBelow (2 ^ 24 + 5)) ∧
      leaf'.mapping = (pack 4096 sample).mapping.filter (fun m => m.1 < 2 ^ 24 + 5) ∧
      (freed.flatMap fun c => List.range' c.1 c.2) =
        ((pack 4096 sample).mapping.filter fun m => 2 ^ 24 + 5 ≤ m.1).map Prod.snd ∧
      (∀ c ∈ freed, 0 < c.2) ∧
      dleafChopReturn (pack 4096 sample) (2 ^ 24 + 5) =
        if ∃ m ∈ (pack 4096 sample).mapping, 2 ^ 24 + 5 ≤ m.1 then 1 else 0 := by
  exact dleafChop_exact sample_fits.sound sample_ordered sample_unstraddled (by decide)

/-- Every index is below key `2 ^ 56`, but the probe takes it for 0. -/
theorem dleafChop_truncated : (pack 4096 sample).Sound 4096 ∧ (pack 4096 sample).Ordered ∧
    (pack 4096 sample).Unstraddled ∧ (∀ m ∈ (pack 4096 sample).mapping, m.1 < 2 ^ 56) ∧
    dleafChopReturn (pack 4096 sample) (2 ^ 56) = 1 ∧
    dleafChop 4096 (pack 4096 sample) (2 ^ 56) = none := by
  refine ⟨sample_fits.sound, sample_ordered, sample_unstraddled, ?_, by decide, by decide⟩
  rw [Leaf.mapping, pack_pairs]
  decide

end Tux3.Dleaf
