import Tux3.DleafAdd

/-!
# Merging file index leaves

`dleaf_merge` appends the contents of one leaf to another. The first group of the one goes into the
last group of the other when they are of one range, as far as the count allows.
-/
namespace Tux3.Dleaf

section
variable {blocksize : ℕ} {gs gs' a b : List Bunch} {g g' : Bunch}

theorem dleafNeed_pack (h : Fits blocksize gs) :
    dleafNeed blocksize (pack blocksize gs) = 8 * size gs + 4 * (gs.length + size gs) := by
  have hsize := dleafFree_pack h
  rw [dleafNeed]
  omega

theorem groupAt_last :
    (pack blocksize (b ++ [g])).groupAt (b ++ [g]).length = ⟨g.keyhi, g.items.length⟩ := by
  rw [List.length_append]
  exact groupAt_pack

theorem groupAt_one :
    (pack blocksize (g' :: a)).groupAt 1 = ⟨g'.keyhi, g'.items.length⟩ :=
  @groupAt_pack blocksize a [] g'

theorem pack_groups_length : (pack blocksize gs).groups.length = gs.length := packGroups_length

theorem take_ebase (h : Fits blocksize gs) :
    (pack blocksize gs).entries.take ((pack blocksize gs).ebase blocksize) = packEntries gs := by
  rw [ebase_pack h]
  exact List.take_of_length_le (Nat.le_of_eq packEntries_length)

theorem take_exend : (pack blocksize gs).table.take (pack blocksize gs).exend = packTable gs := by
  rw [exend_pack]
  exact List.take_of_length_le (Nat.le_of_eq packTable_length)

theorem inc8_add {n m : ℕ} (h : n + m ≤ MAX_GROUP_ENTRIES) : inc8 n m = n + m := by
  rw [MAX_GROUP_ENTRIES] at h
  rw [inc8]
  omega

theorem groups_merged {n : ℕ} (h : g.items.length + n ≤ MAX_GROUP_ENTRIES) :
    (pack blocksize (b ++ [g])).groups.modify ((b ++ [g]).length - 1)
        (fun group => incGroupCount group n) =
      packGroups b ++ [⟨g.keyhi, g.items.length + n⟩] := by
  have hlen : (b ++ [g]).length - 1 = (packGroups b).length := by
    rw [List.length_append, List.length_singleton, Nat.add_sub_cancel, packGroups_length]
  rw [pack]
  dsimp only
  rw [packGroups_append, hlen]
  refine modify_concat.trans ?_
  rw [incGroupCount, inc8_add h]

theorem limit_end (h : Fits blocksize (b ++ [g])) :
    ((pack blocksize (b ++ [g])).entryAt (size (b ++ [g]))).limit = g.items.length := by
  rw [size_concat]
  exact limit_last (h.good g (by simp))

theorem limit_first {m : ℕ} (hm : m ≠ 0) (hle : m ≤ g'.items.length) :
    ((pack blocksize (g' :: a)).entryAt m).limit = m := by
  obtain ⟨i, rfl⟩ := Nat.exists_eq_succ_of_ne_zero hm
  have hentry := @entryAt_pack blocksize a [] g' i hle
  rw [size, Nat.zero_add] at hentry
  rw [Nat.succ_eq_add_one, ← List.nil_append (g' :: a), hentry]

theorem entries_merged {n m r : ℕ} (hg' : g'.Good) (hmr : m + r = g'.items.length)
    (hmax : n + m ≤ MAX_GROUP_ENTRIES) :
    ((packEntries (g' :: a)).take m).map (fun entry => incEntryLimit entry n) ++
        (((packEntries (g' :: a)).drop m).take r).map (fun entry => incEntryLimit entry (-m)) ++
        (packEntries (g' :: a)).drop (m + r) =
      packFrom n (g'.items.take m) ++ packFrom 0 (g'.items.drop m) ++ packEntries a := by
  have hle : m ≤ (packFrom 0 g'.items).length := by
    rw [packFrom_length]
    omega
  have hlen : (packFrom m (g'.items.drop m)).length = r := by
    rw [packFrom_length, List.length_drop]
    omega
  have hle' := hg'.le_max
  rw [MAX_GROUP_ENTRIES] at hmax hle'
  rw [packEntries_cons, List.take_append_of_le_length hle, List.drop_append_of_le_length hle,
    packFrom_take, packFrom_drop, Nat.zero_add, List.take_left' hlen, hmr,
    List.drop_left' packFrom_length,
    packFrom_shift (m := n) (by omega) (by rw [List.length_take]; omega),
    packFrom_shift (m := 0) (by omega) (by rw [List.length_drop]; omega)]

/-! ## The three cases -/

section
variable (h : Fits blocksize (b ++ [g])) (h' : Fits blocksize (g' :: a))
include h h'

/-- The first group stays as it is. -/
theorem merge_none
    (hnone : ¬(g.keyhi = g'.keyhi ∧ g.items.length < MAX_GROUP_ENTRIES))
    (hfits : Fits blocksize (b ++ g :: g' :: a)) :
    dleafMerge blocksize (pack blocksize (b ++ [g])) (pack blocksize (g' :: a)) =
      some (pack blocksize (b ++ g :: g' :: a)) := by
  have hroom := hfits.room
  have happ : b ++ g :: g' :: a = (b ++ [g]) ++ (g' :: a) := List.append_cons _ _ _
  have hfull : ¬((g.keyhi = g'.keyhi ∧ g.items.length < MAX_GROUP_ENTRIES) ∧
      g'.items.length ≤ MAX_GROUP_ENTRIES - g.items.length) := fun hn => hnone hn.1
  rw [dleafMerge, if_neg (by rw [pack_groups_length]; exact Nat.succ_ne_zero _),
    if_neg (by rw [pack_groups_length, List.length_append]; exact Nat.succ_ne_zero _)]
  dsimp only
  rw [pack_groups_length, pack_groups_length, groupAt_last, groupAt_one, take_ebase h,
    take_ebase h', take_exend, take_exend, ebase_pack h']
  dsimp only
  rw [if_neg hnone, if_neg hnone, if_neg hfull, if_pos rfl, if_pos rfl]
  apply hfits.checked
  rw [happ] at hroom ⊢
  rw [size_append, List.length_append] at hroom
  have hsize := @size_append (b ++ [g]) (g' :: a)
  have hlen := @List.length_append _ (b ++ [g]) (g' :: a)
  rw [pack, pack, pack, Leaf.mk.injEq]
  refine ⟨packGroups_append.symm, ?_, packTable_append.symm, ?_, ?_⟩
  · exact (@packEntries_append (b ++ [g]) (g' :: a)).symm
  · dsimp only
    omega
  · dsimp only
    rw [entryOffset, entryOffset]
    omega

/-- The first group goes into the last one. -/
theorem merge_whole (hkeyhi : g.keyhi = g'.keyhi) (hlt : g.items.length < MAX_GROUP_ENTRIES)
    (hle : g'.items.length ≤ MAX_GROUP_ENTRIES - g.items.length)
    (hfits : Fits blocksize (b ++ ⟨g.keyhi, g.items ++ g'.items⟩ :: a)) :
    dleafMerge blocksize (pack blocksize (b ++ [g])) (pack blocksize (g' :: a)) =
      some (pack blocksize (b ++ ⟨g.keyhi, g.items ++ g'.items⟩ :: a)) := by
  have hroom := hfits.room
  have hg' : g'.items.length ≠ 0 :=
    Nat.ne_of_gt (List.length_pos_of_ne_nil (h'.good g' List.mem_cons_self).ne_nil)
  have hcan : g.keyhi = g'.keyhi ∧ g.items.length < MAX_GROUP_ENTRIES := ⟨hkeyhi, hlt⟩
  have hfull : (g.keyhi = g'.keyhi ∧ g.items.length < MAX_GROUP_ENTRIES) ∧
      g'.items.length ≤ MAX_GROUP_ENTRIES - g.items.length := ⟨hcan, hle⟩
  rw [dleafMerge, if_neg (by rw [pack_groups_length]; exact Nat.succ_ne_zero _),
    if_neg (by rw [pack_groups_length, List.length_append]; exact Nat.succ_ne_zero _)]
  dsimp only
  rw [pack_groups_length, pack_groups_length, groupAt_last, groupAt_one, take_ebase h,
    take_ebase h', take_exend, take_exend, ebase_pack h', ebase_pack h, limit_end h]
  dsimp only
  rw [if_pos hcan, if_pos hcan, if_pos hfull,
    Nat.min_eq_left hle, Nat.sub_eq_zero_of_le hle, if_neg hg', if_pos rfl,
    groups_merged (by omega), limit_first hg' (Nat.le_refl _)]
  have hsize : size (b ++ [g]) = size b + g.items.length := size_concat
  have hsize' : size (g' :: a) = g'.items.length + size a := rfl
  have hsize'' : size (b ++ ⟨g.keyhi, g.items ++ g'.items⟩ :: a) =
      size b + (g.items.length + g'.items.length + size a) := by
    rw [size_append, size, List.length_append]
  rw [hsize''] at hroom
  apply hfits.checked
  rw [pack, pack, pack, Leaf.mk.injEq]
  dsimp only
  refine ⟨?_, ?_, ?_, ?_, ?_⟩
  · rw [packGroups_append, packGroups_cons, packGroups_cons, List.length_append,
      List.append_assoc]
    rfl
  · have hmerged := @entries_merged a g' g.items.length g'.items.length 0
      (h'.good g' List.mem_cons_self) (Nat.add_zero _) (by omega)
    rw [hmerged, List.take_length, List.drop_length,
      packEntries_append, packEntries_cons, packEntries_append, packEntries_cons, packFrom_append,
      Nat.zero_add]
    simp only [List.append_assoc]
    rfl
  · rw [packTable_append, packTable_append, packTable_cons, packTable_cons, packTable_cons,
      List.map_append, List.append_assoc, List.append_assoc, List.append_assoc]
    rfl
  · rw [hsize, hsize', hsize'']
    omega
  · rw [hsize, hsize', hsize'', entryOffset, entryOffset]
    simp only [List.length_append, List.length_cons, List.length_nil] at hroom ⊢
    omega

/-- A part of the first group fills the last one. -/
theorem merge_part (hkeyhi : g.keyhi = g'.keyhi) (hlt : g.items.length < MAX_GROUP_ENTRIES)
    {room : ℕ} (heq : room = MAX_GROUP_ENTRIES - g.items.length) (hroom : room < g'.items.length)
    (hfits : Fits blocksize (b ++ ⟨g.keyhi, g.items ++ g'.items.take room⟩ ::
      ⟨g'.keyhi, g'.items.drop room⟩ :: a)) :
    dleafMerge blocksize (pack blocksize (b ++ [g])) (pack blocksize (g' :: a)) =
      some (pack blocksize (b ++ ⟨g.keyhi, g.items ++ g'.items.take room⟩ ::
        ⟨g'.keyhi, g'.items.drop room⟩ :: a)) := by
  have hbytes := hfits.room
  have hmax := (h'.good g' List.mem_cons_self).le_max
  have hcan : g.keyhi = g'.keyhi ∧ g.items.length < MAX_GROUP_ENTRIES := ⟨hkeyhi, hlt⟩
  have hfull : ¬((g.keyhi = g'.keyhi ∧ g.items.length < MAX_GROUP_ENTRIES) ∧
      g'.items.length ≤ room) := fun hn => Nat.not_le_of_lt hroom hn.2
  have hrest : (g'.items.length - room) % 2 ^ 8 = g'.items.length - room := by
    rw [MAX_GROUP_ENTRIES] at hmax
    exact Nat.mod_eq_of_lt (by omega)
  have hne : room ≠ 0 := by omega
  have hne' : g'.items.length - room ≠ 0 := by omega
  rw [dleafMerge, if_neg (by rw [pack_groups_length]; exact Nat.succ_ne_zero _),
    if_neg (by rw [pack_groups_length, List.length_append]; exact Nat.succ_ne_zero _)]
  dsimp only
  rw [pack_groups_length, pack_groups_length, groupAt_last, groupAt_one, take_ebase h,
    take_ebase h', take_exend, take_exend, ebase_pack h', ebase_pack h, limit_end h]
  dsimp only
  rw [← heq, if_pos hcan, if_pos hcan, if_neg hfull, Nat.min_eq_right (Nat.le_of_lt hroom),
    if_neg hne, if_neg hne', groups_merged (by omega), limit_first hne (Nat.le_of_lt hroom)]
  have hsize : size (b ++ [g]) = size b + g.items.length := size_concat
  have hsize' : size (g' :: a) = g'.items.length + size a := rfl
  have hsize'' : size (b ++ ⟨g.keyhi, g.items ++ g'.items.take room⟩ ::
      ⟨g'.keyhi, g'.items.drop room⟩ :: a) =
      size b + (g.items.length + g'.items.length + size a) := by
    rw [size_append, size, size, List.length_append, List.length_take, List.length_drop]
    omega
  rw [hsize''] at hbytes
  apply hfits.checked
  rw [pack, pack, pack, Leaf.mk.injEq]
  dsimp only
  refine ⟨?_, ?_, ?_, ?_, ?_⟩
  · have htake : (g'.items.take room).length = room := by
      rw [List.length_take]
      omega
    rw [List.drop_zero, packGroups_cons, List.modify_zero_cons, setGroupCount, hrest,
      packGroups_append, packGroups_cons, packGroups_cons, List.append_assoc, List.length_append,
      List.length_drop, htake]
    rfl
  · have hmerged := @entries_merged a g' g.items.length room (g'.items.length - room)
      (h'.good g' List.mem_cons_self) (by omega) (by omega)
    rw [hmerged, packEntries_append, packEntries_cons,
      packEntries_append, packEntries_cons, packEntries_cons, packFrom_append, Nat.zero_add]
    simp only [List.append_assoc]
    rfl
  · have hitems : g'.items.map Prod.snd =
        (g'.items.take room).map Prod.snd ++ (g'.items.drop room).map Prod.snd := by
      rw [← List.map_append, List.take_append_drop]
    rw [packTable_append, packTable_append, packTable_cons, packTable_cons, packTable_cons,
      packTable_cons, List.map_append, hitems]
    simp only [List.append_assoc]
    rfl
  · rw [hsize, hsize', hsize'']
    omega
  · rw [hsize, hsize', hsize'', entryOffset, entryOffset]
    simp only [List.length_append, List.length_cons, List.length_nil] at hbytes ⊢
    omega

end

/-! ## The merged leaf -/

theorem Bunch.Good.append (hg : g.Good) (hg' : g'.Good)
    (horder : ∀ x ∈ g.items, ∀ y ∈ g'.items, x.1 < y.1)
    (hmax : g.items.length + g'.items.length ≤ MAX_GROUP_ENTRIES) :
    Bunch.Good ⟨g.keyhi, g.items ++ g'.items⟩ where
  ne_nil := List.append_ne_nil_of_left_ne_nil hg.ne_nil _
  le_max := by
    rw [List.length_append]
    exact hmax
  sorted := by
    dsimp only
    rw [List.map_append]
    refine List.pairwise_append.mpr ⟨hg.sorted, hg'.sorted, ?_⟩
    intro lo hlo lo' hlo'
    obtain ⟨x, hx, rfl⟩ := List.mem_map.mp hlo
    obtain ⟨y, hy, rfl⟩ := List.mem_map.mp hlo'
    exact horder x hx y hy
  blocks := by
    intro x hx
    cases List.mem_append.mp hx with
    | inl hx => exact hg.blocks x hx
    | inr hx => exact hg'.blocks x hx
  keyhi_lt := hg.keyhi_lt
  keylo_lt := by
    intro x hx
    cases List.mem_append.mp hx with
    | inl hx => exact hg.keylo_lt x hx
    | inr hx => exact hg'.keylo_lt x hx

section
variable (h : Fits blocksize gs) (h' : Fits blocksize gs')
  (horder : ∀ p ∈ pairsOf gs, ∀ q ∈ pairsOf gs', p.1 < q.1)
  (hneed : dleafNeed blocksize (pack blocksize gs') ≤ dleafFree (pack blocksize gs))
include h h' horder

theorem keyhi_le {x y : Bunch} (hx : x ∈ gs) (hy : y ∈ gs') : x.keyhi ≤ y.keyhi := by
  obtain ⟨p, hp⟩ := List.exists_mem_of_ne_nil _ (h.good x hx).ne_nil
  obtain ⟨q, hq⟩ := List.exists_mem_of_ne_nil _ (h'.good y hy).ne_nil
  have hlt := horder (getIndex x.keyhi p.1, p.2)
    (List.mem_flatMap.mpr ⟨x, hx, List.mem_map.mpr ⟨p, hp, rfl⟩⟩) (getIndex y.keyhi q.1, q.2)
    (List.mem_flatMap.mpr ⟨y, hy, List.mem_map.mpr ⟨q, hq, rfl⟩⟩)
  have hlo := (h.good x hx).keylo_lt p hp
  have hlo' := (h'.good y hy).keylo_lt q hq
  dsimp only at hlt
  rw [getIndex, getIndex] at hlt
  omega

omit h h' in
theorem keylo_lt {x y : Bunch} (hx : x ∈ gs) (hy : y ∈ gs') (hkeyhi : x.keyhi = y.keyhi) :
    ∀ p ∈ x.items, ∀ q ∈ y.items, p.1 < q.1 := by
  intro p hp q hq
  have hlt := horder (getIndex x.keyhi p.1, p.2)
    (List.mem_flatMap.mpr ⟨x, hx, List.mem_map.mpr ⟨p, hp, rfl⟩⟩) (getIndex y.keyhi q.1, q.2)
    (List.mem_flatMap.mpr ⟨y, hy, List.mem_map.mpr ⟨q, hq, rfl⟩⟩)
  dsimp only at hlt
  rw [getIndex, getIndex, hkeyhi] at hlt
  omega

include hneed

theorem Fits.append : Fits blocksize (gs ++ gs') where
  good := by
    intro x hx
    cases List.mem_append.mp hx with
    | inl hx => exact h.good x hx
    | inr hx => exact h'.good x hx
  sorted := by
    rw [List.map_append]
    refine List.pairwise_append.mpr ⟨h.sorted, h'.sorted, ?_⟩
    intro hi hhi hi' hhi'
    obtain ⟨x, hx, rfl⟩ := List.mem_map.mp hhi
    obtain ⟨y, hy, rfl⟩ := List.mem_map.mp hhi'
    exact keyhi_le h h' horder hx hy
  room := by
    have hsize := dleafFree_pack h
    rw [dleafNeed_pack h'] at hneed
    rw [size_append, List.length_append]
    omega

end

section
variable (h : Fits blocksize (b ++ g :: g' :: a))
  (horder : ∀ x ∈ g.items, ∀ y ∈ g'.items, x.1 < y.1)
include h horder

theorem Fits.whole (hmax : g.items.length + g'.items.length ≤ MAX_GROUP_ENTRIES) :
    Fits blocksize (b ++ ⟨g.keyhi, g.items ++ g'.items⟩ :: a) where
  good := by
    intro x hx
    rcases List.mem_append.mp hx with hx | hx
    · exact h.good x (List.mem_append_left _ hx)
    · rcases List.mem_cons.mp hx with rfl | hx
      · exact (h.good g (by simp)).append (h.good g' (by simp)) horder hmax
      · exact h.good x (by simp [hx])
  sorted := by
    have hsub : (b ++ g :: a).Sublist (b ++ g :: g' :: a) :=
      (List.Sublist.refl b).append ((List.sublist_cons_self g' a).cons_cons g)
    have hsorted := h.sorted.sublist (hsub.map Bunch.keyhi)
    rw [List.map_append, List.map_cons] at hsorted ⊢
    exact hsorted
  room := by
    have hroom := h.room
    simp only [size_append, size, List.length_append, List.length_cons] at hroom ⊢
    omega

theorem Fits.part {room : ℕ} (hpos : 0 < room) (hlt : room < g'.items.length)
    (hmax : g.items.length + room ≤ MAX_GROUP_ENTRIES) :
    Fits blocksize (b ++ ⟨g.keyhi, g.items ++ g'.items.take room⟩ ::
      ⟨g'.keyhi, g'.items.drop room⟩ :: a) where
  good := by
    intro x hx
    have hg' : g'.Good := h.good g' (by simp)
    rcases List.mem_append.mp hx with hx | hx
    · exact h.good x (List.mem_append_left _ hx)
    · rcases List.mem_cons.mp hx with rfl | hx
      · refine (h.good g (by simp)).append (hg'.take hpos)
          (fun x hx y hy => horder x hx y (List.mem_of_mem_take hy)) ?_
        rw [List.length_take]
        omega
      · rcases List.mem_cons.mp hx with rfl | hx
        · exact hg'.drop hlt
        · exact h.good x (by simp [hx])
  sorted := by
    have hsorted := h.sorted
    rw [List.map_append, List.map_cons, List.map_cons] at hsorted ⊢
    exact hsorted
  room := by
    have hroom := h.room
    simp only [size_append, size, List.length_append, List.length_cons, List.length_take,
      List.length_drop] at hroom ⊢
    omega

end

theorem pairsOf_whole (hkeyhi : g.keyhi = g'.keyhi) :
    pairsOf (b ++ ⟨g.keyhi, g.items ++ g'.items⟩ :: a) = pairsOf ((b ++ [g]) ++ g' :: a) := by
  rw [← List.append_cons, pairsOf_append, pairsOf_append, pairsOf_cons, pairsOf_cons, pairsOf_cons,
    Bunch.pairs, Bunch.pairs, Bunch.pairs, List.map_append, hkeyhi, List.append_assoc]

theorem pairsOf_part {room : ℕ} (hkeyhi : g.keyhi = g'.keyhi) :
    pairsOf (b ++ ⟨g.keyhi, g.items ++ g'.items.take room⟩ :: ⟨g'.keyhi, g'.items.drop room⟩ :: a) =
      pairsOf ((b ++ [g]) ++ g' :: a) := by
  have hitems : g'.pairs = (g'.items.take room).map (fun x => (getIndex g'.keyhi x.1, x.2)) ++
      (g'.items.drop room).map fun x => (getIndex g'.keyhi x.1, x.2) := by
    rw [← List.map_append, List.take_append_drop]
    rfl
  rw [← List.append_cons, pairsOf_append, pairsOf_append, pairsOf_cons, pairsOf_cons, pairsOf_cons,
    pairsOf_cons, hitems, Bunch.pairs, Bunch.pairs, Bunch.pairs, List.map_append, hkeyhi]
  simp only [List.append_assoc]

/-- The merged leaf is packed. -/
theorem merge_packed (h : Fits blocksize gs) (h' : Fits blocksize gs')
    (horder : ∀ p ∈ pairsOf gs, ∀ q ∈ pairsOf gs', p.1 < q.1)
    (hneed : dleafNeed blocksize (pack blocksize gs') ≤ dleafFree (pack blocksize gs)) :
    ∃ gs'', dleafMerge blocksize (pack blocksize gs) (pack blocksize gs') =
      some (pack blocksize gs'') ∧ Fits blocksize gs'' ∧
      pairsOf gs'' = pairsOf gs ++ pairsOf gs' := by
  cases gs' with
  | nil => exact ⟨gs, rfl, h, (List.append_nil _).symm⟩
  | cons g' a =>
      cases List.eq_nil_or_concat gs with
      | inl hnil =>
          subst hnil
          refine ⟨g' :: a, ?_, h', (List.nil_append _).symm⟩
          rw [dleafMerge, if_neg (by rw [pack_groups_length]; exact Nat.succ_ne_zero _)]
          rfl
      | inr hconcat =>
          obtain ⟨b, g, rfl⟩ := hconcat
          rw [List.concat_eq_append] at *
          have happend := Fits.append h h' horder hneed
          have happ : (b ++ [g]) ++ g' :: a = b ++ g :: g' :: a := (List.append_cons _ _ _).symm
          rw [happ] at happend
          rw [← pairsOf_append]
          by_cases hcan : g.keyhi = g'.keyhi ∧ g.items.length < MAX_GROUP_ENTRIES
          · obtain ⟨hkeyhi, hlt⟩ := hcan
            have hlo := keylo_lt horder (x := g) (y := g') (by simp) (by simp) hkeyhi
            by_cases hle : g'.items.length ≤ MAX_GROUP_ENTRIES - g.items.length
            · have hfits := happend.whole hlo (by omega)
              exact ⟨_, merge_whole h h' hkeyhi hlt hle hfits, hfits, pairsOf_whole hkeyhi⟩
            · have hroom := Nat.lt_of_not_le hle
              have hfits := happend.part hlo (by omega) hroom (by omega)
              exact ⟨_, merge_part h h' hkeyhi hlt rfl hroom hfits, hfits, pairsOf_part hkeyhi⟩
          · exact ⟨_, merge_none h h' hcan happend, happend, by rw [happ]⟩

end

/-- Merging a leaf with higher indexes that fits appends its contents. -/
theorem dleafMerge_appends {blocksize : ℕ} {leaf from' : Leaf} (h : leaf.Sound blocksize)
    (h' : from'.Sound blocksize) (horder : ∀ p ∈ leaf.pairs, ∀ q ∈ from'.pairs, p.1 < q.1)
    (hneed : dleafNeed blocksize from' ≤ dleafFree leaf) :
    ∃ merged, dleafMerge blocksize leaf from' = some merged ∧
      merged.pairs = leaf.pairs ++ from'.pairs ∧ merged.Sound blocksize ∧
      merged.free ≤ merged.used ∧ merged.used ≤ blocksize ∧
      (∀ g ∈ merged.groups, 1 ≤ g.count ∧ g.count ≤ MAX_GROUP_ENTRIES) ∧
      ∀ e ∈ merged.entries, 1 ≤ e.limit ∧ e.limit ≤ MAX_GROUP_ENTRIES := by
  obtain ⟨gs, hfits, rfl⟩ := h.packed
  obtain ⟨gs', hfits', rfl⟩ := h'.packed
  rw [pack_pairs, pack_pairs] at horder ⊢
  obtain ⟨gs'', hmerge, hfits'', hpairs⟩ := merge_packed hfits hfits' horder hneed
  refine ⟨_, hmerge, ?_, hfits''.sound, hfits''.sound.le, Nat.sub_le _ _, hfits''.counts.1,
    hfits''.counts.2⟩
  rw [pack_pairs, hpairs]

theorem dleafMerge_appends_sample :
    ∃ merged, dleafMerge 4096 (pack 4096 sample)
        (pack 4096 [⟨1, [(7, ⟨500, 1⟩), (8, ⟨600, 2⟩)]⟩]) = some merged ∧
      merged.pairs = (pack 4096 sample).pairs ++
        (pack 4096 [⟨1, [(7, ⟨500, 1⟩), (8, ⟨600, 2⟩)]⟩]).pairs ∧ merged.Sound 4096 ∧
      merged.free ≤ merged.used ∧ merged.used ≤ 4096 ∧
      (∀ g ∈ merged.groups, 1 ≤ g.count ∧ g.count ≤ MAX_GROUP_ENTRIES) ∧
      ∀ e ∈ merged.entries, 1 ≤ e.limit ∧ e.limit ≤ MAX_GROUP_ENTRIES := by
  have hfits : Fits 4096 [⟨1, [(7, ⟨500, 1⟩), (8, ⟨600, 2⟩)]⟩] := by
    refine ⟨?_, List.pairwise_singleton _ _, by decide⟩
    intro g hg
    cases List.mem_singleton.mp hg
    exact ⟨by simp, by decide, by simp, by simp, by decide, by simp⟩
  exact dleafMerge_appends sample_fits.sound hfits.sound (by decide) (by decide)

end Tux3.Dleaf
