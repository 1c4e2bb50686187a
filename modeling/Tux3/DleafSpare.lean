import Tux3.DleafMerge
import Tux3.DleafChop

/-!
# Room in file index leaves

A leaf without room for a group ends in a group of one entry. Then the first cut makes room for an
extent with its group.
-/
namespace Tux3.Dleaf

/-- A leaf that is full ends in a group of one entry. -/
def Leaf.Spare (leaf : Leaf) : Prop := dleafFree leaf < 4 → ∀ g ∈ leaf.groups.getLast?, g.count = 1

section
variable {blocksize key index : ℕ} {leaf leaf' from' : Leaf} {walk walk' : Dwalk} {extent : Extent}
  {freed : List (ℕ × ℕ)}

theorem Leaf.Sound.room (h : leaf.Sound blocksize) :
    dleafFree leaf + (8 + 12 * leaf.pairs.length + 4 * leaf.groups.length) = blocksize := by
  obtain ⟨gs, hfits, rfl⟩ := h.packed
  have hsize := dleafFree_pack hfits
  rw [pack_pairs, pairsOf_length, pack_groups_length]
  omega

theorem dleafInit_sound (h : 8 ≤ blocksize) : (dleafInit blocksize).Sound blocksize :=
  @Fits.sound blocksize [] ⟨fun _ hg => (nomatch hg), .nil, h⟩

theorem dleafInit_spare : (dleafInit blocksize).Spare := fun _ _ hg => nomatch hg

theorem Leaf.Spare.fewer (h : leaf.Sound blocksize) (h' : leaf'.Sound blocksize)
    (hpairs : leaf'.pairs.length < leaf.pairs.length)
    (hgroups : leaf'.groups.length ≤ leaf.groups.length) : leaf'.Spare := by
  intro hfull
  have hroom := h.room
  have hroom' := h'.room
  omega

/-! ## The groups of the results -/

theorem dwalkChop_groups (h : dwalkChop blocksize leaf walk = some (leaf', walk')) :
    leaf'.groups.length ≤ leaf.groups.length := by
  unfold dwalkChop at h
  split at h
  · cases h
    exact Nat.le_refl _
  · split at h
    · cases h
      exact Nat.zero_le _
    · dsimp only at h
      obtain ⟨-, h⟩ := Option.ite_none_right_eq_some.mp h
      cases h
      dsimp only
      rw [List.length_modify, List.length_take]
      exact Nat.min_le_right _ _

theorem dwalkCopy_groups (hdest : from'.groups.length = 0)
    (h : dwalkCopy blocksize leaf walk from' = some leaf') :
    leaf'.groups.length ≤ leaf.groups.length := by
  unfold dwalkCopy at h
  rw [if_neg (not_not.mpr hdest)] at h
  split at h
  · cases h
    exact hdest ▸ Nat.zero_le _
  · split at h
    · cases h
      exact Nat.le_refl _
    · dsimp only at h
      obtain ⟨-, h⟩ := Option.ite_none_right_eq_some.mp h
      cases h
      dsimp only
      rw [List.length_modify, List.length_take, List.length_drop]
      omega

theorem dleafMerge_groups (h : dleafMerge blocksize leaf from' = some leaf') :
    leaf'.groups.length ≤ leaf.groups.length + from'.groups.length := by
  unfold dleafMerge at h
  split at h
  · cases h
    exact Nat.le_add_right _ _
  · split at h
    · cases h
      exact Nat.le_add_left _ _
    · dsimp only at h
      obtain ⟨-, h⟩ := Option.ite_none_right_eq_some.mp h
      cases h
      dsimp only
      rw [List.length_append, apply_ite List.length, apply_ite List.length, List.length_modify,
        List.length_modify, ite_self, ite_self, List.length_drop]
      exact Nat.add_le_add_left (Nat.sub_le _ _) _

/-- An extent that is added goes into the last group, or into a new one. -/
theorem dwalkAdd_groups (hat : walk.group = leaf.groups.length)
    (h : dwalkAdd blocksize leaf walk index extent = some (leaf', walk')) :
    leaf'.groups.length = leaf.groups.length ∨
      leaf'.groups.length = leaf.groups.length + 1 ∧ ∀ g ∈ leaf'.groups.getLast?, g.count = 1 := by
  unfold dwalkAdd at h
  split at h
  · cases h
  · split at h
    · cases h
    · dsimp only at h
      split at h
      · cases h
      · next leaf₁ walk₁ hopened =>
          obtain ⟨-, h⟩ := Option.ite_none_right_eq_some.mp h
          obtain ⟨-, h⟩ := Option.ite_none_right_eq_some.mp h
          obtain ⟨rfl, -⟩ := Prod.mk.inj (Option.some.inj h)
          dsimp only
          rw [List.length_modify]
          split at hopened
          · unfold openGroup at hopened
            obtain ⟨-, hopened⟩ := Option.ite_none_right_eq_some.mp hopened
            obtain ⟨rfl, rfl⟩ := Prod.mk.inj (Option.some.inj hopened)
            right
            dsimp only
            rw [hat, List.take_length, List.length_append]
            refine ⟨rfl, fun g hg => ?_⟩
            rw [Nat.add_sub_cancel, modify_concat, List.getLast?_concat] at hg
            cases hg
            rfl
          · obtain ⟨rfl, -⟩ := Prod.mk.inj (Option.some.inj hopened)
            exact .inl rfl

/-! ## Leaves with spare room -/

theorem Leaf.Spare.add (h : leaf.Sound blocksize) (h' : leaf'.Sound blocksize)
    (hat : walk.group = leaf.groups.length)
    (hpairs : leaf'.pairs.length = leaf.pairs.length + 1)
    (hfree : DLEAF_MAX_EXTENT_SIZE ≤ dleafFree leaf)
    (hadd : dwalkAdd blocksize leaf walk index extent = some (leaf', walk')) : leaf'.Spare := by
  intro hfull
  have hroom := h.room
  have hroom' := h'.room
  rw [DLEAF_MAX_EXTENT_SIZE] at hfree
  rcases dwalkAdd_groups hat hadd with hsame | ⟨-, hlast⟩
  · omega
  · exact hlast

theorem Leaf.Spare.merge (h : leaf.Sound blocksize) (h' : from'.Sound blocksize)
    (hm : leaf'.Sound blocksize) (hfour : 4 ∣ blocksize)
    (hpairs : leaf'.pairs.length = leaf.pairs.length + from'.pairs.length)
    (hneed : dleafNeed blocksize from' < dleafFree leaf)
    (hmerge : dleafMerge blocksize leaf from' = some leaf') : leaf'.Spare := by
  intro hfull
  have hroom := h.room
  have hroom' := h'.room
  have hroomm := hm.room
  have hgroups := dleafMerge_groups hmerge
  rw [dleafNeed] at hneed
  omega

end

section
variable {blocksize k : ℕ} {gs : List Bunch}

theorem pack_spare : (pack blocksize gs).Spare ↔
    (dleafFree (pack blocksize gs) < 4 → ∀ g ∈ gs.getLast?, g.items.length = 1) := by
  rw [Leaf.Spare, pack]
  dsimp only
  rw [packGroups, List.getLast?_map]
  simp only [Option.mem_def, Option.map_eq_some_iff, forall_exists_index, and_imp,
    forall_apply_eq_imp_iff₂]

/-- The leaf after a cut has room for an extent with its group. -/
theorem chop_room (h : Fits blocksize gs) (hspare : (pack blocksize gs).Spare) (hk : k < size gs)
    {leaf' : Leaf} {walk' : Dwalk}
    (hchop : dwalkChop blocksize (pack blocksize gs) (spot gs k) = some (leaf', walk')) :
    DLEAF_MAX_EXTENT_SIZE ≤ dleafFree leaf' := by
  obtain ⟨leaf'', walk'', hchop', hpairs, hsound, -, -⟩ := chop_partition h (Nat.le_of_lt hk)
  rw [hchop] at hchop'
  cases hchop'
  have hlen : leaf'.pairs.length = k := by
    rw [hpairs, List.length_take, pairsOf_length, Nat.min_eq_left (Nat.le_of_lt hk)]
  have hroom := h.sound.room
  have hroom' := hsound.room
  have hgroups := dwalkChop_groups hchop
  rw [pack_groups_length] at hgroups
  rw [pack_pairs, pairsOf_length, pack_groups_length] at hroom
  rw [DLEAF_MAX_EXTENT_SIZE]
  rcases Nat.lt_or_ge (dleafFree (pack blocksize gs)) 4 with hfull | hfree
  · -- the last group goes
    have hone := pack_spare.mp hspare hfull
    suffices hless : leaf'.groups.length + 1 ≤ gs.length by omega
    cases k with
    | zero =>
        have hfirst : dwalkFirst (spot gs 0) = true := by
          rw [spot_first (Nat.zero_le _), decide_eq_true rfl]
        have hend : dwalkEnd (spot gs 0) = false := by
          rw [spot_end (Nat.zero_le _) h.good, decide_eq_false (Nat.ne_of_lt hk)]
        rw [dwalkChop, hend, hfirst] at hchop
        cases hchop
        cases gs with
        | nil => exact absurd hk (Nat.lt_irrefl 0)
        | cons g gs => exact Nat.succ_le_succ (Nat.zero_le _)
    | succ i =>
        obtain ⟨b, g, a, j, rfl, rfl, hj⟩ := exists_at (Nat.lt_of_succ_lt hk)
        rw [Nat.add_assoc, dwalkChop_spot h hj hk] at hchop
        cases hchop
        rw [pack_groups_length, List.length_append, List.length_append, List.length_singleton,
          List.length_cons]
        cases a with
        | nil =>
            have hlast := hone g List.getLast?_concat
            rw [size_concat] at hk
            omega
        | cons x a =>
            rw [List.length_cons]
            omega
  · omega

theorem chop_spare (h : Fits blocksize gs) (hspare : (pack blocksize gs).Spare) (hk : k ≤ size gs)
    {leaf' : Leaf} {walk' : Dwalk}
    (hchop : dwalkChop blocksize (pack blocksize gs) (spot gs k) = some (leaf', walk')) :
    leaf'.Spare := by
  rcases Nat.lt_or_eq_of_le hk with hlt | rfl
  · intro hfull
    have hroom := chop_room h hspare hlt hchop
    rw [DLEAF_MAX_EXTENT_SIZE] at hroom
    omega
  · have hend : dwalkEnd (spot gs (size gs)) = true := by
      rw [spot_end (Nat.le_refl _) h.good, decide_eq_true rfl]
    rw [dwalkChop, hend] at hchop
    cases hchop
    exact hspare

theorem copy_spare (h : Fits blocksize gs) (hspare : (pack blocksize gs).Spare) (hk : k ≤ size gs)
    {copy : Leaf}
    (hcopy : dwalkCopy blocksize (pack blocksize gs) (spot gs k) (dleafInit blocksize) =
      some copy) :
    copy.Spare := by
  obtain ⟨copy', hcopy', hpairs, hsound⟩ := copy_partition h hk
    (dleafInit_sound (Nat.le_trans (by omega) h.room)) rfl
  rw [hcopy] at hcopy'
  cases hcopy'
  have hend := spot_end hk h.good
  rcases Nat.lt_or_eq_of_le hk with hlt | rfl
  · rw [decide_eq_false (Nat.ne_of_lt hlt)] at hend
    rcases Nat.eq_zero_or_pos k with rfl | hpos
    · have hfirst : dwalkFirst (spot gs 0) = true := by
        rw [spot_first (Nat.zero_le _), decide_eq_true rfl]
      rw [dwalkCopy, hend, hfirst] at hcopy
      cases hcopy
      exact hspare
    · have hgroups := dwalkCopy_groups rfl hcopy
      refine .fewer h.sound hsound ?_ hgroups
      rw [hpairs, List.length_drop, pack_pairs, pairsOf_length]
      omega
  · rw [decide_eq_true rfl] at hend
    rw [dwalkCopy, hend] at hcopy
    cases hcopy
    exact dleafInit_spare

theorem chopFrom_groups {leaf leaf' : Leaf} {walk : Dwalk} {freed freed' : List (ℕ × ℕ)}
    (h : chopFrom blocksize leaf walk freed = some (leaf', freed')) :
    leaf'.groups.length ≤ leaf.groups.length := by
  unfold chopFrom at h
  split at h
  · next hchop =>
      obtain ⟨-, h⟩ := Option.ite_none_right_eq_some.mp h
      cases h
      exact dwalkChop_groups hchop
  · cases h

theorem dleafChop_groups {leaf leaf' : Leaf} {key : ℕ} {freed : List (ℕ × ℕ)}
    (h : dleafChop blocksize leaf key = some (leaf', freed)) :
    leaf'.groups.length ≤ leaf.groups.length := by
  unfold dleafChop at h
  dsimp only at h
  split at h
  · cases h
    exact Nat.le_refl _
  · split at h
    · obtain ⟨-, h⟩ := Option.ite_none_left_eq_some.mp h
      split at h
      · exact Nat.le_trans (chopFrom_groups h) (Nat.le_refl _)
      · obtain ⟨-, h⟩ := Option.ite_none_right_eq_some.mp h
        cases h
        exact Nat.le_refl _
    · exact chopFrom_groups h

/-- A leaf after `dleaf_chop`. -/
theorem dleafChop_spare {leaf leaf' : Leaf} {key : ℕ} {freed : List (ℕ × ℕ)}
    (hkey : key < 2 ^ 56) (h : leaf.Sound blocksize) (hordered : leaf.Ordered)
    (hclear : leaf.ClearAt key) (hspare : leaf.Spare)
    (hchop : dleafChop blocksize leaf key = some (leaf', freed)) :
    leaf'.Spare := by
  obtain ⟨gs, hfits, rfl⟩ := h.packed
  obtain ⟨leaf'', hchop', hsound, hpairs⟩ := dleafChop_packed hkey hfits hordered hclear
  have heq : leaf' = leaf'' := congrArg Prod.fst (Option.some.inj (hchop.symm.trans hchop'))
  subst heq
  rcases Nat.lt_or_ge leaf'.pairs.length (pack blocksize gs).pairs.length with hlt | hge
  · exact .fewer h hsound hlt (dleafChop_groups hchop)
  · -- every extent stays, and only the last one may be cut
    suffices hgroups : leaf'.groups = (pack blocksize gs).groups by
      have hroom := h.room
      have hroom' := hsound.room
      have hle := List.length_filterMap_le (keptBelow key) (pairsOf gs)
      rw [← hpairs, ← @pack_pairs blocksize gs] at hle
      rw [Leaf.Spare, hgroups]
      rw [hgroups] at hroom'
      intro hfull
      exact hspare (by omega)
    obtain ⟨k, hle, hprobe, -, -, hlater⟩ := probe_splits hkey hfits hordered hclear
    rw [hpairs, pack_pairs] at hge
    have hkept := List.filterMap_length_eq_length.mp
      (Nat.le_antisymm (List.length_filterMap_le _ _) hge)
    have hbelow : ∀ p ∈ pairsOf gs, p.1 < key := by
      intro p hp
      have hsome := hkept p hp
      rw [keptBelow] at hsome
      by_contra hno
      rw [if_neg hno] at hsome
      cases hsome
    have hrest : size gs ≤ k + 1 := by
      by_contra hmore
      have hlen : k + 1 < (pairsOf gs).length := pairsOf_length ▸ Nat.not_le.mp hmore
      have hmem : (pairsOf gs)[k + 1] ∈ (pairsOf gs).drop (k + 1) := by
        rw [List.drop_eq_getElem_cons hlen]
        exact List.mem_cons_self
      exact Nat.not_lt.mpr (hlater _ hmem) (hbelow _ (List.getElem_mem hlen))
    unfold dleafChop at hchop
    rw [hprobe] at hchop
    dsimp only at hchop
    rcases Nat.lt_or_eq_of_le hle with hlt | rfl
    · have hread := @spot_reads blocksize gs k hlt
      have hindex := hbelow _ (List.mem_of_getElem? hread)
      have hstop := @next_more blocksize gs k hfits.good hlt
      rw [decide_eq_false (Nat.not_lt.mpr hrest)] at hstop
      rw [decide_eq_true hlt, if_neg (by decide), if_pos hindex] at hchop
      obtain ⟨-, hchop⟩ := Option.ite_none_left_eq_some.mp hchop
      split at hchop
      · next hmore => exact absurd (hstop.symm.trans hmore) (by decide)
      · obtain ⟨-, hchop⟩ := Option.ite_none_right_eq_some.mp hchop
        exact (congrArg (fun x => x.1.groups) (Option.some.inj hchop)).symm
    · rw [decide_eq_false (Nat.lt_irrefl _), if_pos rfl] at hchop
      exact (congrArg (fun x => x.1.groups) (Option.some.inj hchop)).symm

end

end Tux3.Dleaf
