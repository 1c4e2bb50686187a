import Tux3.DleafCut

/-!
# Packing a file index leaf

`dwalk_add` behind the last extent appends one pair, in the last group or in a group of its own. The
stops of the walk are stale after it, so that the state is described without them.
-/
namespace Tux3.Dleaf

/-- Room for a group, an entry and an extent. -/
def DLEAF_MAX_EXTENT_SIZE : ℕ := 4 + 4 + 8

/-- A walk at the end of a leaf, as a walk over it or `dwalk_chop` leaves it. -/
inductive Ready (blocksize : ℕ) : Leaf → Dwalk → Prop where
  | walk {leaf : Leaf} {walk : Dwalk} : leaf.Sound blocksize → Position leaf walk →
      dwalkEnd walk = true → Ready blocksize leaf walk
  | chop {leaf chopped : Leaf} {walk walk' : Dwalk} : leaf.Sound blocksize → Position leaf walk →
      dwalkChop blocksize leaf walk = some (chopped, walk') → Ready blocksize chopped walk'

/-- A 48 bit index above the last one, and an extent with blocks. -/
structure Appendable (leaf : Leaf) (index : ℕ) (extent : Extent) : Prop where
  last_lt : ∀ p, leaf.pairs.getLast? = some p → p.1 < index
  index_lt : index < 2 ^ 48
  block : 0 < extent.block
  count : 0 < extent.count

/-- The leaf and the walk after some extents are added, each with the room for it. -/
inductive Packing (blocksize : ℕ) (start : Leaf) : Leaf → Dwalk → List (ℕ × Extent) → Prop where
  | ready {walk : Dwalk} : Ready blocksize start walk → Packing blocksize start start walk []
  | add {leaf leaf' : Leaf} {walk walk' : Dwalk} {added : List (ℕ × Extent)} {index : ℕ}
      {extent : Extent} : Packing blocksize start leaf walk added →
      DLEAF_MAX_EXTENT_SIZE ≤ dleafFree leaf → Appendable leaf index extent →
      dwalkAdd blocksize leaf walk index extent = some (leaf', walk') →
      Packing blocksize start leaf' walk' (added ++ [(index, extent)])

section
variable {blocksize : ℕ} {gs b : List Bunch} {g : Bunch} {walk : Dwalk} {leaf : Leaf} {index : ℕ}
  {extent : Extent}

theorem Ready.atEnd (h : Ready blocksize leaf walk) : leaf.Sound blocksize ∧ AtEnd leaf walk := by
  cases h with
  | walk hsound hpos hend =>
      refine ⟨hsound, ?_⟩
      obtain ⟨gs, hfits, rfl⟩ := hsound.packed
      obtain ⟨k, hk, rfl⟩ := hpos.spot hfits.good
      rw [spot_end hk hfits.good] at hend
      rw [of_decide_eq_true hend]
      exact atEnd_spot
  | chop hsound hpos hchop =>
      obtain ⟨gs, hfits, rfl⟩ := hsound.packed
      obtain ⟨k, hk, rfl⟩ := hpos.spot hfits.good
      obtain ⟨chopped, walk', hchop', -, hsound', hat, -⟩ := chop_partition hfits hk
      rw [hchop'] at hchop
      cases hchop
      exact ⟨hsound', hat⟩

/-! ## One extent -/

/-- The leaf that `dwalk_add` leaves when its group is there. -/
def added (leaf : Leaf) (walk : Dwalk) (keylo : ℕ) (extent : Extent) : Leaf where
  groups := leaf.groups.modify (walk.group - 1) fun group => incGroupCount group 1
  entries := leaf.entries.take walk.entry ++
    [incEntryLimit ⟨keylo, (walk.extent - walk.exbase) % 2 ^ 8⟩ 1]
  table := leaf.table.take walk.extent ++ [extent]
  free := leaf.free + 8
  used := leaf.used - 4

theorem inc8_one {n : ℕ} (h : n < MAX_GROUP_ENTRIES) : inc8 n 1 = n + 1 := by
  rw [MAX_GROUP_ENTRIES] at h
  rw [inc8]
  omega

/-- `dwalk_add`, once the group of the extent is there. -/
theorem dwalkAdd_opened {leaf leaf' : Leaf} {walk walk' : Dwalk}
    (hindex : leaf.groups.length ≠ 0 → dwalkIndex leaf walk ≠ index) (hblock : 0 < extent.block)
    (hcount : 0 < extent.count)
    (hopened : (if leaf.groups.length = 0 ∨ (leaf.groupAt walk.group).keyhi ≠ index / 2 ^ 24 ∨
        MAX_GROUP_ENTRIES ≤ (leaf.groupAt walk.group).count then
        openGroup leaf walk (index / 2 ^ 24) else some (leaf, walk)) = some (leaf', walk'))
    (hroom : leaf'.free + 12 ≤ leaf'.used)
    (hcheck : dleafCheck blocksize (added leaf' walk' (index % 2 ^ 24) extent) = true) :
    dwalkAdd blocksize leaf walk index extent =
      some (added leaf' walk' (index % 2 ^ 24) extent,
        { walk' with entry := walk'.entry + 1, extent := walk'.extent + 1 }) := by
  rw [dwalkAdd, if_neg (fun h => hindex h.1 h.2), if_neg (by omega)]
  dsimp only
  rw [hopened]
  dsimp only
  rw [if_pos (by omega)]
  exact if_pos hcheck

theorem added_eq {groups : List Group} {c keyhi keylo used : ℕ} (hc : c < MAX_GROUP_ENTRIES)
    (hgroup : walk.group = groups.length + 1) (hentry : walk.entry = size gs)
    (hextent : walk.extent = size gs) (hexbase : walk.exbase + c = size gs) :
    added ⟨groups ++ [⟨keyhi, c⟩], packEntries gs, packTable gs, 8 + 8 * size gs, used⟩ walk keylo
        extent =
      ⟨groups ++ [⟨keyhi, c + 1⟩], packEntries gs ++ [⟨keylo, c + 1⟩], packTable gs ++ [extent],
        8 + 8 * size gs + 8, used - 4⟩ := by
  have hbase : (walk.extent - walk.exbase) % 2 ^ 8 = c := by
    rw [MAX_GROUP_ENTRIES] at hc
    omega
  rw [added, Leaf.mk.injEq]
  dsimp only
  refine ⟨?_, ?_, ?_, rfl, rfl⟩
  · rw [hgroup, Nat.add_sub_cancel, modify_concat, incGroupCount, inc8_one hc]
  · rw [hentry, List.take_of_length_le (Nat.le_of_eq packEntries_length), hbase, incEntryLimit,
      inc8_one hc]
  · rw [hextent, List.take_of_length_le (Nat.le_of_eq packTable_length)]

/-- The index at the end of a leaf is its last one. -/
theorem dwalkIndex_end (hg : g.Good) (hat : AtEnd (pack blocksize (b ++ [g])) walk) :
    (pairsOf (b ++ [g])).getLast?.map Prod.fst =
      some (dwalkIndex (pack blocksize (b ++ [g])) walk) := by
  have hpos := List.length_pos_of_ne_nil hg.ne_nil
  have hlt : g.items.length - 1 < g.items.length := Nat.sub_lt hpos Nat.one_pos
  have hgroup := @groupAt_pack blocksize [] b g
  have hentry := @entryAt_pack blocksize [] b g _ hlt
  have hread := @pairs_getElem [] b g _ hlt
  have hlen : (pairsOf (b ++ [g])).length - 1 = size b + (g.items.length - 1) := by
    rw [pairsOf_length, size_concat]
    omega
  have hwalk : walk.entry = size b + (g.items.length - 1 + 1) := by
    rw [hat.entry, pack]
    dsimp only
    rw [packEntries_length, size_concat, Nat.sub_add_cancel hpos]
  have hwalk' : walk.group = b.length + 1 := by
    rw [hat.group, pack]
    dsimp only
    rw [packGroups_length, List.length_append]
    rfl
  rw [List.getLast?_eq_getElem?, hlen, hread, dwalkIndex, hwalk, hwalk', hgroup, hentry]
  rfl

theorem dleafFree_pack (h : Fits blocksize gs) :
    dleafFree (pack blocksize gs) + (8 + 8 * size gs + 4 * (gs.length + size gs)) = blocksize := by
  have hroom := h.room
  rw [dleafFree, pack]
  dsimp only
  rw [entryOffset]
  omega

theorem getIndex_split (index : ℕ) : getIndex (index / 2 ^ 24) (index % 2 ^ 24) = index := by
  rw [getIndex]
  omega

theorem dwalkIndex_lt (hg : g.Good) (hat : AtEnd (pack blocksize (b ++ [g])) walk)
    (hnext : Appendable (pack blocksize (b ++ [g])) index extent) :
    dwalkIndex (pack blocksize (b ++ [g])) walk < index := by
  obtain ⟨p, hp, heq⟩ := Option.map_eq_some_iff.mp (dwalkIndex_end hg hat)
  rw [← heq]
  exact hnext.last_lt p (by rw [pack_pairs]; exact hp)

theorem last_lt (hg : g.Good) (hnext : Appendable (pack blocksize (b ++ [g])) index extent) :
    ∃ h : g.items.length - 1 < g.items.length,
      getIndex g.keyhi g.items[g.items.length - 1].1 < index := by
  have hpos := List.length_pos_of_ne_nil hg.ne_nil
  have hlt : g.items.length - 1 < g.items.length := Nat.sub_lt hpos Nat.one_pos
  have hread := @pairs_getElem [] b g _ hlt
  have hlen : (pairsOf (b ++ [g])).length - 1 = size b + (g.items.length - 1) := by
    rw [pairsOf_length, size_concat]
    omega
  refine ⟨hlt, hnext.last_lt (_, g.items[g.items.length - 1].2) ?_⟩
  rw [pack_pairs, List.getLast?_eq_getElem?, hlen]
  exact hread

/-- An extent in the range of the last group. -/
theorem Fits.snoc (h : Fits blocksize (b ++ [g])) (hkeyhi : g.keyhi = index / 2 ^ 24)
    (hmax : g.items.length < MAX_GROUP_ENTRIES)
    (hfree : DLEAF_MAX_EXTENT_SIZE ≤ dleafFree (pack blocksize (b ++ [g])))
    (hnext : Appendable (pack blocksize (b ++ [g])) index extent) :
    Fits blocksize (b ++ [⟨g.keyhi, g.items ++ [(index % 2 ^ 24, extent)]⟩]) where
  good := by
    intro x hx
    cases List.mem_append.mp hx with
    | inl hx => exact h.good x (List.mem_append_left _ hx)
    | inr hx =>
        have hg : g.Good := h.good g (by simp)
        obtain ⟨hlt, hlast⟩ := last_lt hg hnext
        rw [List.mem_singleton.mp hx]
        refine ⟨?_, ?_, ?_, ?_, hg.keyhi_lt, ?_⟩
        · simp
        · rw [List.length_append]
          exact hmax
        · dsimp only
          rw [List.map_append]
          refine List.pairwise_append.mpr ⟨hg.sorted, List.pairwise_singleton _ _, ?_⟩
          intro lo hlo lo' hlo'
          rw [List.mem_singleton.mp hlo']
          obtain ⟨y, hy, rfl⟩ := List.mem_map.mp hlo
          obtain ⟨i, hi, rfl⟩ := List.getElem_of_mem hy
          have hle : g.items[i].1 ≤ g.items[g.items.length - 1].1 := by
            cases Nat.lt_or_eq_of_le (Nat.le_sub_one_of_lt hi) with
            | inl hlt' =>
                have hpw := List.pairwise_iff_getElem.mp hg.sorted i (g.items.length - 1)
                  (by rwa [List.length_map]) (by rwa [List.length_map]) hlt'
                rw [List.getElem_map, List.getElem_map] at hpw
                exact Nat.le_of_lt hpw
            | inr heq =>
                subst heq
                exact Nat.le_refl _
          rw [getIndex] at hlast
          omega
        · intro y hy
          cases List.mem_append.mp hy with
          | inl hy => exact hg.blocks y hy
          | inr hy => exact List.mem_singleton.mp hy ▸ Nat.ne_of_gt hnext.block
        · intro y hy
          cases List.mem_append.mp hy with
          | inl hy => exact hg.keylo_lt y hy
          | inr hy => exact List.mem_singleton.mp hy ▸ Nat.mod_lt _ (by decide)
  sorted := by
    have hsorted := h.sorted
    rw [List.map_append] at hsorted ⊢
    exact hsorted
  room := by
    have hsize := dleafFree_pack h
    rw [DLEAF_MAX_EXTENT_SIZE] at hfree
    rw [size_concat, List.length_append] at hsize
    rw [size_concat, List.length_append, List.length_append]
    rw [List.length_singleton] at hsize ⊢
    rw [List.length_singleton]
    omega

/-- An extent in a group of its own. -/
theorem Fits.group (h : Fits blocksize gs)
    (hfree : DLEAF_MAX_EXTENT_SIZE ≤ dleafFree (pack blocksize gs))
    (hnext : Appendable (pack blocksize gs) index extent) :
    Fits blocksize (gs ++ [⟨index / 2 ^ 24, [(index % 2 ^ 24, extent)]⟩]) where
  good := by
    intro x hx
    cases List.mem_append.mp hx with
    | inl hx => exact h.good x hx
    | inr hx =>
        have hindex := hnext.index_lt
        rw [List.mem_singleton.mp hx]
        refine ⟨List.cons_ne_nil _ _, ?_, List.pairwise_singleton _ _, ?_, ?_, ?_⟩
        · exact Nat.succ_le_of_lt (by decide)
        · intro y hy
          exact List.mem_singleton.mp hy ▸ Nat.ne_of_gt hnext.block
        · exact Nat.div_lt_of_lt_mul hindex
        · intro y hy
          exact List.mem_singleton.mp hy ▸ Nat.mod_lt _ (by decide)
  sorted := by
    rw [List.map_append]
    refine List.pairwise_append.mpr ⟨h.sorted, List.pairwise_singleton _ _, ?_⟩
    intro hi hhi hi' hhi'
    rw [List.mem_singleton.mp hhi']
    cases List.eq_nil_or_concat gs with
    | inl hnil =>
        rw [hnil] at hhi
        cases hhi
    | inr hconcat =>
        obtain ⟨b, g, rfl⟩ := hconcat
        rw [List.concat_eq_append] at *
        have hsorted := h.sorted
        obtain ⟨hlt, hlast⟩ := last_lt (h.good g (by simp)) hnext
        rw [getIndex] at hlast
        have hle : hi ≤ g.keyhi := by
          rw [List.map_append] at hhi hsorted
          cases List.mem_append.mp hhi with
          | inl hhi => exact (List.pairwise_append.mp hsorted).2.2 hi hhi g.keyhi (by simp)
          | inr hhi => exact Nat.le_of_eq (List.mem_singleton.mp hhi)
        dsimp only
        omega
  room := by
    have hsize := dleafFree_pack h
    rw [DLEAF_MAX_EXTENT_SIZE] at hfree
    rw [size_concat, List.length_append, List.length_singleton, List.length_singleton]
    omega

/-- The extent is added to a leaf whose last group has some of its entries. -/
theorem added_pack {gs' : List Bunch} {groups : List Group} {c keyhi keylo used : ℕ}
    (hc : c < MAX_GROUP_ENTRIES) (hgroup : walk.group = groups.length + 1)
    (hentry : walk.entry = size gs) (hextent : walk.extent = size gs)
    (hexbase : walk.exbase + c = size gs) (hgroups : packGroups gs' = groups ++ [⟨keyhi, c + 1⟩])
    (hentries : packEntries gs' = packEntries gs ++ [⟨keylo, c + 1⟩])
    (htable : packTable gs' = packTable gs ++ [extent])
    (hused : used - 4 = entryOffset blocksize gs'.length (size gs')) :
    added ⟨groups ++ [⟨keyhi, c⟩], packEntries gs, packTable gs, 8 + 8 * size gs, used⟩ walk keylo
        extent = pack blocksize gs' ∧
      AtEnd (pack blocksize gs')
        { walk with entry := walk.entry + 1, extent := walk.extent + 1 } := by
  have hsize : size gs' = size gs + 1 := by
    rw [← packTable_length, htable, List.length_append, packTable_length, List.length_singleton]
  have hlen : (pack blocksize gs').groups.length = groups.length + 1 := by
    rw [pack]
    dsimp only
    rw [hgroups, List.length_append, List.length_singleton]
  refine ⟨?_, ?_, ?_, ?_, ?_⟩
  · rw [added_eq hc hgroup hentry hextent hexbase, pack, hgroups, hentries, htable, hused, hsize,
      Nat.mul_add, Nat.mul_one, ← Nat.add_assoc]
  · rw [hlen]
    exact hgroup
  · exact (congrArg (· + 1) hentry).trans (hsize.symm.trans packEntries_length.symm)
  · exact (congrArg (· + 1) hextent).trans (hsize.symm.trans packTable_length.symm)
  · have hlast : (pack blocksize gs').groupAt (groups.length + 1) = ⟨keyhi, c + 1⟩ := by
      rw [Leaf.groupAt, pack]
      dsimp only
      rw [hgroups, Nat.add_sub_cancel, List.getD_eq_getElem?_getD, List.getElem?_concat_length]
      rfl
    rw [hlen, hlast]
    dsimp only
    rw [← Nat.add_assoc, hexbase, ← hsize]
    exact packTable_length.symm

theorem add_snoc (h : Fits blocksize (b ++ [g])) (hat : AtEnd (pack blocksize (b ++ [g])) walk)
    (hkeyhi : g.keyhi = index / 2 ^ 24) (hmax : g.items.length < MAX_GROUP_ENTRIES)
    (hfree : DLEAF_MAX_EXTENT_SIZE ≤ dleafFree (pack blocksize (b ++ [g])))
    (hnext : Appendable (pack blocksize (b ++ [g])) index extent) :
    ∃ gs' walk', Fits blocksize gs' ∧ AtEnd (pack blocksize gs') walk' ∧
      dwalkAdd blocksize (pack blocksize (b ++ [g])) walk index extent =
        some (pack blocksize gs', walk') ∧
      pairsOf gs' = pairsOf (b ++ [g]) ++ [(index, extent)] ∧ gs'.length = (b ++ [g]).length := by
  have hg : g.Good := h.good g (by simp)
  have hfits := h.snoc hkeyhi hmax hfree hnext
  have hgroups := @packGroups_append b [g]
  have hgroup : walk.group = (packGroups b).length + 1 := by
    have hgroup := hat.group
    rw [pack, hgroups, List.length_append] at hgroup
    exact hgroup
  have hentry : walk.entry = size (b ++ [g]) := hat.entry.trans packEntries_length
  have hextent : walk.extent = size (b ++ [g]) := hat.extent.trans packTable_length
  have hlast : (pack blocksize (b ++ [g])).groupAt walk.group = ⟨g.keyhi, g.items.length⟩ := by
    rw [hgroup, packGroups_length]
    exact groupAt_pack
  have hexbase : walk.exbase + g.items.length = size (b ++ [g]) := by
    have hexbase := hat.exbase
    rw [← hat.group, hlast, pack] at hexbase
    exact hexbase.trans packTable_length
  have hne : (pack blocksize (b ++ [g])).groups.length ≠ 0 := by
    rw [← hat.group, hgroup]
    exact Nat.succ_ne_zero _
  have hsize := dleafFree_pack h
  rw [DLEAF_MAX_EXTENT_SIZE] at hfree
  obtain ⟨hadded, hat'⟩ := @added_pack blocksize (b ++ [g]) walk extent
    (b ++ [⟨g.keyhi, g.items ++ [(index % 2 ^ 24, extent)]⟩]) (packGroups b) g.items.length g.keyhi
    (index % 2 ^ 24) (pack blocksize (b ++ [g])).used hmax hgroup hentry hextent hexbase
    (by rw [packGroups_append, packGroups_cons, List.length_append]; rfl)
    (by
      rw [packEntries_append, packEntries_append, packEntries_cons, packEntries_cons,
        packFrom_append, Nat.zero_add, packFrom, List.append_assoc, List.append_assoc,
        List.append_assoc]
      rfl)
    (by
      rw [packTable_append, packTable_append, packTable_cons, packTable_cons, List.map_append,
        List.append_assoc, List.append_assoc, List.append_assoc]
      rfl)
    (by
      rw [pack, size_concat, size_concat, List.length_append, List.length_append,
        List.length_append]
      dsimp only
      rw [entryOffset, entryOffset]
      simp only [List.length_singleton]
      omega)
  have hpack : pack blocksize (b ++ [g]) = ⟨packGroups b ++ [⟨g.keyhi, g.items.length⟩],
      packEntries (b ++ [g]), packTable (b ++ [g]), 8 + 8 * size (b ++ [g]),
      (pack blocksize (b ++ [g])).used⟩ := by
    rw [pack, hgroups]
    rfl
  rw [← hpack] at hadded
  refine ⟨_, _, hfits, hat', ?_, ?_, ?_⟩
  · rw [← hadded]
    refine dwalkAdd_opened (fun _ => Nat.ne_of_lt (dwalkIndex_lt hg hat hnext)) hnext.block
      hnext.count (if_neg ?_) ?_ ?_
    · rw [hlast]
      rintro (h | h | h)
      · exact hne h
      · exact h hkeyhi
      · exact Nat.not_le_of_lt hmax h
    · rw [dleafFree] at hfree
      omega
    · rw [hadded]
      exact hfits.check
  · rw [pairsOf_append, pairsOf_append, List.append_assoc]
    congr 1
    rw [pairsOf_cons, pairsOf_cons, Bunch.pairs, List.map_append, List.append_assoc,
      List.append_assoc]
    congr 1
    rw [List.map_singleton, hkeyhi, getIndex_split]
    rfl
  · rw [List.length_append, List.length_append]
    rfl

theorem add_group (h : Fits blocksize gs) (hat : AtEnd (pack blocksize gs) walk)
    (hnew : ∀ b g, gs = b ++ [g] → g.keyhi ≠ index / 2 ^ 24 ∨ MAX_GROUP_ENTRIES ≤ g.items.length)
    (hfree : DLEAF_MAX_EXTENT_SIZE ≤ dleafFree (pack blocksize gs))
    (hnext : Appendable (pack blocksize gs) index extent) :
    ∃ gs' walk', Fits blocksize gs' ∧ AtEnd (pack blocksize gs') walk' ∧
      dwalkAdd blocksize (pack blocksize gs) walk index extent =
        some (pack blocksize gs', walk') ∧
      pairsOf gs' = pairsOf gs ++ [(index, extent)] ∧ gs'.length = gs.length + 1 := by
  have hfits := h.group hfree hnext
  have hgroup : walk.group = (packGroups gs).length := hat.group
  have hentry : walk.entry = size gs := hat.entry.trans packEntries_length
  have hextent : walk.extent = size gs := hat.extent.trans packTable_length
  have hsize := dleafFree_pack h
  rw [DLEAF_MAX_EXTENT_SIZE] at hfree
  -- the walk steps over the group that is full or of another range
  have hexbase : walk.exbase + (if (pack blocksize gs).groups.length = 0 then 0
      else ((pack blocksize gs).entryAt walk.entry).limit) = size gs := by
    have hexbase := hat.exbase
    cases List.eq_nil_or_concat gs with
    | inl hnil =>
        subst hnil
        exact hexbase
    | inr hconcat =>
        obtain ⟨b, g, rfl⟩ := hconcat
        rw [List.concat_eq_append] at *
        have hlen : (pack blocksize (b ++ [g])).groups.length = b.length + 1 := by
          rw [pack]
          dsimp only
          rw [packGroups_length, List.length_append]
          rfl
        have hlast := @groupAt_pack blocksize [] b g
        have hlimit := @limit_last blocksize [] b g (h.good g (by simp))
        rw [hlen, hlast] at hexbase
        rw [hlen, if_neg (Nat.succ_ne_zero _), hentry, size_concat, hlimit, ← size_concat]
        exact hexbase.trans packTable_length
  have hopen : openGroup (pack blocksize gs) walk (index / 2 ^ 24) =
      some (⟨packGroups gs ++ [⟨index / 2 ^ 24, 0⟩], packEntries gs, packTable gs,
        8 + 8 * size gs, (pack blocksize gs).used - 4⟩, { walk with
          group := walk.group + 1
          exbase := walk.exbase + if (pack blocksize gs).groups.length = 0 then 0
            else ((pack blocksize gs).entryAt walk.entry).limit }) := by
    rw [dleafFree] at hfree
    rw [openGroup, if_pos (by omega), hgroup]
    congr 3
    exact congrArg (· ++ _) (List.take_of_length_le (Nat.le_refl _))
  obtain ⟨hadded, hat'⟩ := @added_pack blocksize gs { walk with
      group := walk.group + 1
      exbase := walk.exbase + if (pack blocksize gs).groups.length = 0 then 0
        else ((pack blocksize gs).entryAt walk.entry).limit } extent
    (gs ++ [⟨index / 2 ^ 24, [(index % 2 ^ 24, extent)]⟩]) (packGroups gs) 0 (index / 2 ^ 24)
    (index % 2 ^ 24) ((pack blocksize gs).used - 4) (by decide) (congrArg (· + 1) hgroup) hentry
    hextent hexbase packGroups_append packEntries_append packTable_append
    (by
      rw [pack, size_concat, List.length_append]
      dsimp only
      rw [entryOffset, entryOffset]
      simp only [List.length_singleton]
      omega)
  refine ⟨_, _, hfits, hat', ?_, ?_, ?_⟩
  · rw [← hadded]
    refine dwalkAdd_opened (fun hne => ?_) hnext.block hnext.count ((if_pos ?_).trans hopen) ?_ ?_
    · cases List.eq_nil_or_concat gs with
      | inl hnil =>
          subst hnil
          exact absurd rfl hne
      | inr hconcat =>
          obtain ⟨b, g, rfl⟩ := hconcat
          rw [List.concat_eq_append] at *
          exact Nat.ne_of_lt (dwalkIndex_lt (h.good g (by simp)) hat hnext)
    · cases List.eq_nil_or_concat gs with
      | inl hnil =>
          subst hnil
          exact .inl rfl
      | inr hconcat =>
          obtain ⟨b, g, rfl⟩ := hconcat
          rw [List.concat_eq_append] at *
          have hlast : (pack blocksize (b ++ [g])).groupAt walk.group =
              ⟨g.keyhi, g.items.length⟩ := by
            rw [hgroup, packGroups_length, List.length_append]
            exact groupAt_pack
          rw [hlast]
          exact .inr (hnew b g rfl)
    · rw [dleafFree] at hfree
      dsimp only
      rw [pack] at hfree ⊢
      dsimp only at hfree ⊢
      omega
    · rw [hadded]
      exact hfits.check
  · rw [pairsOf_append]
    congr 1
    rw [pairsOf_cons, Bunch.pairs, List.map_singleton, getIndex_split]
    rfl
  · rw [List.length_append]
    rfl

/-- One extent, behind the last one of a packed leaf. -/
theorem add_one (h : Fits blocksize gs) (hat : AtEnd (pack blocksize gs) walk)
    (hfree : DLEAF_MAX_EXTENT_SIZE ≤ dleafFree (pack blocksize gs))
    (hnext : Appendable (pack blocksize gs) index extent) :
    ∃ gs' walk', Fits blocksize gs' ∧ AtEnd (pack blocksize gs') walk' ∧
      dwalkAdd blocksize (pack blocksize gs) walk index extent =
        some (pack blocksize gs', walk') ∧
      pairsOf gs' = pairsOf gs ++ [(index, extent)] ∧
      (gs'.length = gs.length ∨ gs'.length = gs.length + 1) := by
  by_cases hsame : ∃ b g, gs = b ++ [g] ∧ g.keyhi = index / 2 ^ 24 ∧
      g.items.length < MAX_GROUP_ENTRIES
  · obtain ⟨b, g, rfl, hkeyhi, hmax⟩ := hsame
    obtain ⟨gs', walk', hfits, hat', hadd, hpairs, hlen⟩ := add_snoc h hat hkeyhi hmax hfree hnext
    exact ⟨gs', walk', hfits, hat', hadd, hpairs, .inl hlen⟩
  · have hnew : ∀ b g, gs = b ++ [g] →
        g.keyhi ≠ index / 2 ^ 24 ∨ MAX_GROUP_ENTRIES ≤ g.items.length := by
      intro b g hgs
      by_cases hkeyhi : g.keyhi = index / 2 ^ 24
      · exact .inr (Nat.le_of_not_lt fun hmax => hsame ⟨b, g, hgs, hkeyhi, hmax⟩)
      · exact .inl hkeyhi
    obtain ⟨gs', walk', hfits, hat', hadd, hpairs, hlen⟩ := add_group h hat hnew hfree hnext
    exact ⟨gs', walk', hfits, hat', hadd, hpairs, .inr hlen⟩

/-! ## Runs -/

theorem Packing.packed {start : Leaf} {added : List (ℕ × Extent)}
    (h : Packing blocksize start leaf walk added) :
    ∃ gs, Fits blocksize gs ∧ leaf = pack blocksize gs ∧ AtEnd leaf walk ∧
      pairsOf gs = start.pairs ++ added := by
  induction h with
  | ready hready =>
      obtain ⟨hsound, hat⟩ := hready.atEnd
      obtain ⟨gs, hfits, rfl⟩ := hsound.packed
      exact ⟨gs, hfits, rfl, hat, by rw [pack_pairs, List.append_nil]⟩
  | add _ hfree hnext hadd ih =>
      obtain ⟨gs, hfits, rfl, hat, hpairs⟩ := ih
      obtain ⟨gs', walk', hfits', hat', hadd', hpairs', -⟩ := add_one hfits hat hfree hnext
      rw [hadd'] at hadd
      cases hadd
      exact ⟨gs', hfits', rfl, hat', by rw [hpairs', hpairs, List.append_assoc]⟩

theorem Fits.counts (h : Fits blocksize gs) :
    (∀ g ∈ (pack blocksize gs).groups, 1 ≤ g.count ∧ g.count ≤ MAX_GROUP_ENTRIES) ∧
      ∀ e ∈ (pack blocksize gs).entries, 1 ≤ e.limit ∧ e.limit ≤ MAX_GROUP_ENTRIES := by
  constructor
  · intro g hg
    obtain ⟨b, hb, rfl⟩ := List.mem_map.mp hg
    exact ⟨List.length_pos_of_ne_nil (h.good b hb).ne_nil, (h.good b hb).le_max⟩
  · intro e he
    obtain ⟨b, hb, he⟩ := List.mem_flatMap.mp he
    have hlimit : e.limit ∈ (packFrom 0 b.items).map Entry.limit := List.mem_map.mpr ⟨e, he, rfl⟩
    rw [packFrom_limits, List.mem_range'_1] at hlimit
    have hmax := (h.good b hb).le_max
    omega

end

/-- Every `dwalk_add` in a run with the room appends its pair. -/
theorem dwalkAdd_appends {blocksize : ℕ} {start leaf : Leaf} {walk : Dwalk}
    {added : List (ℕ × Extent)} (h : Packing blocksize start leaf walk added) {index : ℕ}
    {extent : Extent} (hfree : DLEAF_MAX_EXTENT_SIZE ≤ dleafFree leaf)
    (hnext : Appendable leaf index extent) :
    ∃ leaf' walk', dwalkAdd blocksize leaf walk index extent = some (leaf', walk') ∧
      leaf'.pairs = start.pairs ++ added ++ [(index, extent)] ∧ leaf'.Sound blocksize ∧
      (leaf'.groups.length = leaf.groups.length ∧ dleafFree leaf' + 12 = dleafFree leaf ∨
        leaf'.groups.length = leaf.groups.length + 1 ∧ dleafFree leaf' + 16 = dleafFree leaf) ∧
      (∀ g ∈ leaf'.groups, 1 ≤ g.count ∧ g.count ≤ MAX_GROUP_ENTRIES) ∧
      ∀ e ∈ leaf'.entries, 1 ≤ e.limit ∧ e.limit ≤ MAX_GROUP_ENTRIES := by
  obtain ⟨gs, hfits, rfl, hat, hpairs⟩ := h.packed
  obtain ⟨gs', walk', hfits', -, hadd, hpairs', hlen⟩ := add_one hfits hat hfree hnext
  have hfree := dleafFree_pack hfits
  have hfree' := dleafFree_pack hfits'
  have hsize : size gs' = size gs + 1 := by
    rw [← pairsOf_length, hpairs', List.length_append, pairsOf_length, List.length_singleton]
  have hgroups : ∀ gs, (pack blocksize gs).groups.length = gs.length := fun gs =>
    packGroups_length
  refine ⟨_, walk', hadd, ?_, hfits'.sound, ?_, hfits'.counts.1, hfits'.counts.2⟩
  · rw [pack_pairs, hpairs', hpairs]
  · rw [hgroups, hgroups]
    cases hlen with
    | inl hlen => exact .inl ⟨hlen, by omega⟩
    | inr hlen => exact .inr ⟨hlen, by omega⟩

theorem dwalkAdd_appends_sample :
    ∃ leaf' walk', dwalkAdd 4096 (pack 4096 sample) (dwalkProbe (pack 4096 sample) (2 ^ 25)).1
        (2 ^ 25) ⟨400, 1⟩ = some (leaf', walk') ∧
      leaf'.pairs = (pack 4096 sample).pairs ++ [] ++ [(2 ^ 25, ⟨400, 1⟩)] ∧ leaf'.Sound 4096 ∧
      (leaf'.groups.length = 2 ∧ dleafFree leaf' + 12 = 4044 ∨
        leaf'.groups.length = 2 + 1 ∧ dleafFree leaf' + 16 = 4044) ∧
      (∀ g ∈ leaf'.groups, 1 ≤ g.count ∧ g.count ≤ MAX_GROUP_ENTRIES) ∧
      ∀ e ∈ leaf'.entries, 1 ≤ e.limit ∧ e.limit ≤ MAX_GROUP_ENTRIES := by
  refine dwalkAdd_appends (.ready (.walk sample_fits.sound (.probe (2 ^ 25)) (by decide)))
    (by decide) ⟨?_, by decide, by decide, by decide⟩
  intro p hp
  cases hp
  decide

end Tux3.Dleaf
