import Tux3.DleafMerge

/-!
# Splitting a file index leaf

`dleaf_split_at` at an entry. A group that the entry is in is duplicated: the first leaf has its
entries before, the second leaf the others with their limits from the start.
-/
namespace Tux3.Dleaf

section
variable {blocksize : ℕ} {gs a b : List Bunch} {g : Bunch} {j : ℕ}

/-- The loop over the groups stops at the group of the position. -/
theorem splitGroups_pack (c : List Bunch) (hgood : ∀ x ∈ c ++ (b ++ g :: a), x.Good)
    (hj : j < g.items.length) :
    splitGroups (pack blocksize (c ++ (b ++ g :: a))) (size c + (size b + j))
        (packGroups (b ++ g :: a)) (size c) c.length (size c) =
      (size c + size b, c.length + b.length, size c + size b) := by
  induction b generalizing c with
  | nil =>
      rw [List.nil_append, size, Nat.zero_add, packGroups_cons, splitGroups]
      exact if_pos (Nat.add_lt_add_left hj _)
  | cons x b ih =>
      have hx : x.Good := hgood x (by simp)
      have happ : c ++ (x :: b ++ g :: a) = (c ++ [x]) ++ (b ++ g :: a) := by
        rw [List.cons_append, ← List.append_cons]
      have hlen : (c ++ [x]).length = c.length + 1 := List.length_append
      have hlimit := @limit_last blocksize (b ++ g :: a) c x hx
      have hrec := ih (c ++ [x]) (by rw [← happ]; exact hgood)
      rw [size_concat, hlen, ← happ] at hrec
      rw [List.cons_append, packGroups_cons, splitGroups, if_neg (by rw [size]; dsimp only; omega)]
      dsimp only
      rw [hlimit, size, List.length_cons]
      rw [← List.cons_append]
      have hpos : size c + (x.items.length + size b + j) =
          size c + x.items.length + (size b + j) := by omega
      rw [hpos, hrec, Nat.add_assoc, Nat.add_assoc, Nat.add_comm 1 b.length]

theorem inc8_sub {n m : ℕ} (hle : m ≤ n) (hmax : n ≤ MAX_GROUP_ENTRIES) :
    inc8 n (-m) = n - m := by
  rw [MAX_GROUP_ENTRIES] at hmax
  rw [inc8]
  omega

theorem limit_before (hj : j < g.items.length) :
    (if j = 0 then 0 else ((pack blocksize (b ++ g :: a)).entryAt (size b + j)).limit) = j := by
  cases j with
  | zero => rfl
  | succ i => rw [if_neg (Nat.succ_ne_zero i), entryAt_pack (Nat.lt_of_succ_lt hj)]

/-- The values that `dleaf_split_at` computes. -/
theorem dleafSplitAt_values (h : Fits blocksize (b ++ g :: a)) (hj : j < g.items.length)
    (into left right : Leaf) (hleft : left = {
      groups := if j = 0 then (packGroups (b ++ g :: a)).take (b.length + if j = 0 then 0 else 1)
        else ((packGroups (b ++ g :: a)).take (b.length + if j = 0 then 0 else 1)).modify
          (b.length + (if j = 0 then 0 else 1) - 1) fun group => setGroupCount group j
      entries := (packEntries (b ++ g :: a)).take (size b + j)
      table := (packTable (b ++ g :: a)).take (size b + j)
      free := 8 + 8 * (size b + j)
      used := entryOffset blocksize (b.length + if j = 0 then 0 else 1) (size b + j) })
    (hright : right = {
      groups := ⟨g.keyhi, g.items.length - j⟩ :: packGroups a
      entries := ((packFrom j (g.items.drop j) ++ packEntries a).take
          (if j = 0 then 0 else g.items.length - j)).map
            (fun entry => incEntryLimit entry
              (-((pack blocksize (b ++ g :: a)).entryAt (size b + j)).limit)) ++
          (packFrom j (g.items.drop j) ++ packEntries a).drop
            (if j = 0 then 0 else g.items.length - j)
      table := (packTable (⟨g.keyhi, g.items.drop j⟩ :: a)).take (g.items.length - j + size a)
      free := 8 + 8 * (g.items.length - j + size a)
      used := entryOffset blocksize (a.length + 1) (g.items.length - j + size a) }) :
    dleafSplitAt blocksize (pack blocksize (b ++ g :: a)) into (size b + j + 1) =
      if dleafCheck blocksize left ∧ dleafCheck blocksize right then
        some (left, right, a.length + 1) else none := by
  have hsize : size (b ++ g :: a) = size b + (g.items.length + size a) := by
    rw [size_append, size]
  have hlen : (b ++ g :: a).length = b.length + (a.length + 1) := List.length_append
  have hloop := @splitGroups_pack blocksize a b g j [] (by simpa using h.good) hj
  rw [List.nil_append, size, Nat.zero_add, List.length_nil, Nat.zero_add, Nat.zero_add] at hloop
  have hcount : inc8 g.items.length (-j) = g.items.length - j :=
    inc8_sub (Nat.le_of_lt hj) (h.good g (by simp)).le_max
  have hgroups : (pack blocksize (b ++ g :: a)).groups = packGroups (b ++ g :: a) := rfl
  have hentries : (pack blocksize (b ++ g :: a)).entries = packEntries (b ++ g :: a) := rfl
  have htable : (pack blocksize (b ++ g :: a)).table = packTable (b ++ g :: a) := rfl
  have hfree : (pack blocksize (b ++ g :: a)).free = 8 + 8 * size (b ++ g :: a) := rfl
  have htake : (packEntries (b ++ g :: a)).take (size (b ++ g :: a)) = packEntries (b ++ g :: a) :=
    List.take_of_length_le (Nat.le_of_eq packEntries_length)
  have hextents : (8 + 8 * size (b ++ g :: a) - (8 + 8 * (size b + j))) / 8 =
      g.items.length - j + size a := by
    rw [hsize]
    omega
  have hcopied : ((packGroups (b ++ g :: a)).drop b.length).modify 0
      (fun group => incGroupCount group (-j)) = ⟨g.keyhi, g.items.length - j⟩ :: packGroups a := by
    rw [packGroups_drop, List.modify_zero_cons, incGroupCount, hcount]
  have hencopy : size (b ++ g :: a) - (size b + j) = g.items.length - j + size a := by
    rw [hsize]
    omega
  have hgroups2 : (b ++ g :: a).length - b.length = a.length + 1 := by
    rw [hlen, Nat.add_sub_cancel_left]
  rw [dleafSplitAt, if_neg (by rw [pack_groups_length, hlen]; omega), ebase_pack h,
    if_pos ⟨by rw [hsize]; omega, by omega, by rw [hsize]; omega⟩, Nat.add_sub_cancel, hgroups,
    hloop]
  dsimp only
  rw [Nat.add_sub_cancel_left, limit_before hj, hcopied, hentries, htake, htable, hfree, hextents,
    hencopy, packGroups_length, hgroups2, packEntries_drop (Nat.le_of_lt hj),
    packTable_drop (Nat.le_of_lt hj), hleft, hright]
  rfl

theorem split_between (h : Fits blocksize (b ++ g :: a)) (into : Leaf) :
    dleafSplitAt blocksize (pack blocksize (b ++ g :: a)) into (size b + 1) =
      some (pack blocksize b, pack blocksize (g :: a), a.length + 1) := by
  have hpos := List.length_pos_of_ne_nil (h.good g (by simp)).ne_nil
  have hfits : Fits blocksize (g :: a) := h.after hpos
  refine (dleafSplitAt_values h hpos into (pack blocksize b) (pack blocksize (g :: a)) ?_ ?_).trans
    (if_pos ⟨h.front.check, hfits.check⟩)
  · rw [pack, Leaf.mk.injEq]
    refine ⟨?_, ?_, ?_, rfl, rfl⟩
    · rw [if_pos rfl, if_pos rfl, Nat.add_zero, packGroups_append,
        List.take_left' packGroups_length]
    · rw [packEntries_append, Nat.add_zero, List.take_left' packEntries_length]
    · rw [packTable_append, Nat.add_zero, List.take_left' packTable_length]
  · rw [pack, Leaf.mk.injEq]
    refine ⟨rfl, rfl, ?_, rfl, rfl⟩
    exact (List.take_of_length_le (Nat.le_of_eq packTable_length)).symm

/-- Inside a group, the group is duplicated. -/
theorem split_inside (h : Fits blocksize (b ++ g :: a)) (hpos : 0 < j) (hj : j < g.items.length)
    (into : Leaf) :
    dleafSplitAt blocksize (pack blocksize (b ++ g :: a)) into (size b + j + 1) =
      some (pack blocksize (b ++ [⟨g.keyhi, g.items.take j⟩]),
        pack blocksize (⟨g.keyhi, g.items.drop j⟩ :: a), a.length + 1) := by
  have hne : j ≠ 0 := Nat.ne_of_gt hpos
  have hmax := (h.good g (by simp)).le_max
  have hsize : size (b ++ [⟨g.keyhi, g.items.take j⟩]) = size b + j := by
    rw [size_concat, List.length_take, Nat.min_eq_left (Nat.le_of_lt hj)]
  have hlength : (b ++ [(⟨g.keyhi, g.items.take j⟩ : Bunch)]).length = b.length + 1 :=
    List.length_append
  have hlen : (packFrom j (g.items.drop j)).length = g.items.length - j := by
    rw [packFrom_length, List.length_drop]
  have hlimit := @limit_before blocksize a b g j hj
  rw [if_neg hne] at hlimit
  refine (dleafSplitAt_values h hj into (pack blocksize (b ++ [⟨g.keyhi, g.items.take j⟩]))
    (pack blocksize (⟨g.keyhi, g.items.drop j⟩ :: a)) ?_ ?_).trans
    (if_pos ⟨(h.before hpos).check, (h.after hj).check⟩)
  · rw [if_neg hne, if_neg hne, Nat.add_sub_cancel, pack, hsize, hlength, Leaf.mk.injEq]
    exact ⟨(packGroups_take (Nat.le_of_lt hj) hmax).symm, (packEntries_take (Nat.le_of_lt hj)).symm,
      (packTable_take (Nat.le_of_lt hj)).symm, rfl, rfl⟩
  · rw [MAX_GROUP_ENTRIES] at hmax
    rw [if_neg hne, hlimit, List.take_left' hlen, List.drop_left' hlen,
      packFrom_shift (m := 0) (by omega) (by rw [List.length_drop]; omega), pack, Leaf.mk.injEq]
    refine ⟨?_, rfl, ?_, ?_, ?_⟩
    · rw [packGroups_cons, List.length_drop]
    · exact (List.take_of_length_le (Nat.le_of_eq (packTable_length.trans size_drop))).symm
    · rw [size_drop]
    · rw [size_drop, List.length_cons]

theorem splitKey_pack (hg : g.Good) :
    (pairsOf (g :: a)).head?.map Prod.fst =
      some (splitKey (pack blocksize (g :: a)) (a.length + 1)) := by
  obtain ⟨hpos, hfirst⟩ := hg.firstLo
  have hread := @pairs_getElem a [] g 0 hpos
  have hentry := @entryAt_pack blocksize a [] g 0 hpos
  rw [size, Nat.zero_add, List.nil_append] at hread hentry
  have hone : a.length + 1 + 1 - (pack blocksize (g :: a)).groups.length = 0 + 1 := by
    rw [pack_groups_length, List.length_cons]
    omega
  rw [List.head?_eq_getElem?, hread, splitKey, hone, hentry, groupAt_one]
  rfl

/-- Splitting before a pair. -/
theorem split_packed (h : Fits blocksize gs) {k : ℕ} (hk : k < size gs) (into : Leaf) :
    ∃ left right groups2, dleafSplitAt blocksize (pack blocksize gs) into (k + 1) =
        some (left, right, groups2) ∧
      groups2 = right.groups.length ∧ left.pairs = (pairsOf gs).take k ∧
      right.pairs = (pairsOf gs).drop k ∧ left.Sound blocksize ∧ right.Sound blocksize ∧
      right.pairs.head?.map Prod.fst = some (splitKey right groups2) := by
  obtain ⟨b, g, a, j, rfl, rfl, hj⟩ := exists_at hk
  have hafter := h.after hj
  rcases Nat.eq_zero_or_pos j with rfl | hpos
  · refine ⟨_, _, _, split_between h into, (@pack_groups_length _ (g :: a)).symm, ?_, ?_,
      h.front.sound, hafter.sound, ?_⟩
    · rw [pack_pairs, pairsOf_append, Nat.add_zero, List.take_left' pairsOf_length]
    · rw [pack_pairs, pairsOf_append, Nat.add_zero, List.drop_left' pairsOf_length]
    · rw [pack_pairs]
      exact splitKey_pack (h.good g (by simp))
  · refine ⟨_, _, _, split_inside h hpos hj into,
      (@pack_groups_length _ (⟨g.keyhi, g.items.drop j⟩ :: a)).symm, ?_, ?_,
      (h.before hpos).sound, hafter.sound, ?_⟩
    · rw [pack_pairs, pairs_take (Nat.le_of_lt hj)]
    · rw [pack_pairs, pairs_drop (Nat.le_of_lt hj)]
    · rw [pack_pairs]
      exact splitKey_pack (hafter.good _ List.mem_cons_self)

end

/-- Splitting at an entry of the leaf loses nothing, and the key is the first index that moves. -/
theorem dleafSplitAt_partition {blocksize : ℕ} {from' : Leaf} (h : from'.Sound blocksize)
    (into : Leaf) {entry : ℕ} (hpos : 0 < entry) (hle : entry ≤ from'.entries.length) :
    ∃ left right groups2, dleafSplitAt blocksize from' into entry = some (left, right, groups2) ∧
      groups2 = right.groups.length ∧ left.pairs = from'.pairs.take (entry - 1) ∧
      right.pairs = from'.pairs.drop (entry - 1) ∧ left.Sound blocksize ∧ right.Sound blocksize ∧
      right.pairs.head?.map Prod.fst = some (splitKey right groups2) := by
  obtain ⟨gs, hfits, rfl⟩ := h.packed
  obtain ⟨k, rfl⟩ := Nat.exists_eq_succ_of_ne_zero (Nat.ne_of_gt hpos)
  have hk : k < size gs := Nat.lt_of_lt_of_eq hle packEntries_length
  rw [pack_pairs]
  exact split_packed hfits hk into

theorem dleafSplitAt_sample :
    ∃ left right groups2, dleafSplitAt 4096 (pack 4096 sample) (pack 4096 []) 2 =
        some (left, right, groups2) ∧
      groups2 = right.groups.length ∧ left.pairs = (pack 4096 sample).pairs.take 1 ∧
      right.pairs = (pack 4096 sample).pairs.drop 1 ∧ left.Sound 4096 ∧ right.Sound 4096 ∧
      right.pairs.head?.map Prod.fst = some (splitKey right groups2) :=
  dleafSplitAt_partition sample_fits.sound (pack 4096 []) (by decide) (by decide)

/-- `dleaf_split` halves a leaf of two extents or more. -/
theorem dleafSplit_halves {blocksize : ℕ} {from' : Leaf} (h : from'.Sound blocksize) (into : Leaf)
    (htwo : 2 ≤ from'.entries.length) :
    ∃ left right key, dleafSplit blocksize from' into = some (left, right, key) ∧
      left.pairs ++ right.pairs = from'.pairs ∧ left.Sound blocksize ∧ right.Sound blocksize ∧
      right.pairs.head?.map Prod.fst = some key := by
  obtain ⟨gs, hfits, rfl⟩ := h.packed
  have hsize : 2 ≤ size gs := Nat.le_trans htwo (Nat.le_of_eq packEntries_length)
  obtain ⟨left, right, groups2, hsplit, -, hleft, hright, hsound, hsound', hkey⟩ :=
    split_packed hfits (show size gs / 2 - 1 < size gs by omega) into
  have hentry : size gs / 2 - 1 + 1 = size gs / 2 := by omega
  rw [hentry] at hsplit
  refine ⟨left, right, splitKey right groups2, ?_, ?_, hsound, hsound', hkey⟩
  · rw [dleafSplit, ebase_pack hfits, hsplit]
    rfl
  · rw [hleft, hright, List.take_append_drop, pack_pairs]

end Tux3.Dleaf
