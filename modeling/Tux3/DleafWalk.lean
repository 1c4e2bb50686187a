import Tux3.DleafPack

/-!
# Walks over a file index leaf

The states of a walk over a packed leaf are one for each of its pairs, and the end. The steps of the
walk go from one to the next and back, and a probe ends in one of them.
-/
namespace Tux3.Dleaf

/-- The state at an extent of a group, between the groups before and after it. -/
def here (b : List Bunch) (g : Bunch) (a : List Bunch) (j : ℕ) : Dwalk where
  group := b.length + 1
  gstop := b.length + 1 + a.length
  entry := size b + min (j + 1) g.items.length
  estop := size b + g.items.length
  exbase := size b
  extent := size b + j
  exstop := size b + min (j + 1) g.items.length

/-- The state at a position, from a group on. -/
def spotFrom : List Bunch → List Bunch → ℕ → Dwalk
  | _, [], _ => ⟨0, 0, 0, 0, 0, 0, 0⟩
  | b, g :: a, k =>
      if k < g.items.length ∨ a = [] then here b g a k
      else spotFrom (b ++ [g]) a (k - g.items.length)

def spot (gs : List Bunch) (k : ℕ) : Dwalk := spotFrom [] gs k

section
variable {blocksize : ℕ} {gs a b : List Bunch} {g : Bunch} {j k : ℕ}

/-! ## Positions -/

theorem exists_split (hne : gs ≠ []) (hk : k ≤ size gs) :
    ∃ b g a j, gs = b ++ g :: a ∧ k = size b + j ∧ j ≤ g.items.length ∧
      (j < g.items.length ∨ a = []) := by
  induction gs generalizing k with
  | nil => exact absurd rfl hne
  | cons g gs ih =>
      rw [size] at hk
      by_cases hhere : k < g.items.length ∨ gs = []
      · refine ⟨[], g, gs, k, rfl, (Nat.zero_add k).symm, ?_, hhere⟩
        cases hhere with
        | inl hlt => exact Nat.le_of_lt hlt
        | inr hnil => rwa [hnil, size, Nat.add_zero] at hk
      · obtain ⟨hlt, hnil⟩ := not_or.mp hhere
        have hk' : k - g.items.length ≤ size gs := by omega
        obtain ⟨b, g', a, j, hgs, hj, hle, hlast⟩ := ih hnil hk'
        refine ⟨g :: b, g', a, j, by rw [hgs, List.cons_append], ?_, hle, hlast⟩
        rw [size]
        omega

theorem exists_at (hk : k < size gs) :
    ∃ b g a j, gs = b ++ g :: a ∧ k = size b + j ∧ j < g.items.length := by
  have hne : gs ≠ [] := by
    rintro rfl
    cases hk
  obtain ⟨b, g, a, j, rfl, rfl, hle, hlast⟩ := exists_split hne (Nat.le_of_lt hk)
  refine ⟨b, g, a, j, rfl, rfl, ?_⟩
  cases hlast with
  | inl hlt => exact hlt
  | inr hnil =>
      rw [hnil, size_append, size, size] at hk
      omega

theorem spotFrom_split (c : List Bunch) (hj : j < g.items.length ∨ a = []) :
    spotFrom c (b ++ g :: a) (size b + j) = here (c ++ b) g a j := by
  induction b generalizing c with
  | nil => rw [List.nil_append, size, Nat.zero_add, spotFrom, if_pos hj, List.append_nil]
  | cons x b ih =>
      rw [List.cons_append, size, spotFrom, if_neg, Nat.add_assoc, Nat.add_sub_cancel_left, ih,
        List.append_assoc, List.singleton_append]
      rintro (hlt | hnil)
      · omega
      · exact absurd hnil (List.append_ne_nil_of_right_ne_nil b (List.cons_ne_nil g a))

theorem spot_split (hj : j < g.items.length ∨ a = []) :
    spot (b ++ g :: a) (size b + j) = here b g a j :=
  spotFrom_split [] hj

theorem spot_size : spot (b ++ [g]) (size (b ++ [g])) = here b g [] g.items.length := by
  rw [size_concat]
  exact spot_split (.inr rfl)

theorem spot_extent (hk : k ≤ size gs) : (spot gs k).extent = k := by
  cases gs with
  | nil => exact (Nat.le_zero.mp hk).symm
  | cons g gs =>
      obtain ⟨b, g', a, j, hgs, rfl, -, hlast⟩ := exists_split (List.cons_ne_nil g gs) hk
      rw [hgs, spot_split hlast]
      rfl

theorem spot_end (hk : k ≤ size gs) (hgood : ∀ g ∈ gs, g.Good) :
    dwalkEnd (spot gs k) = decide (k = size gs) := by
  cases gs with
  | nil => exact (decide_eq_true (Nat.le_zero.mp hk)).symm
  | cons g gs =>
      obtain ⟨b, g', a, j, hgs, rfl, hle, hlast⟩ := exists_split (List.cons_ne_nil g gs) hk
      rw [hgs] at hgood ⊢
      rw [spot_split hlast, dwalkEnd, here]
      apply decide_eq_decide.mpr
      dsimp only
      rw [size_append, size]
      cases hlast with
      | inl hlt => omega
      | inr hnil =>
          rw [hnil, size]
          omega

theorem spot_first (hk : k ≤ size gs) : dwalkFirst (spot gs k) = decide (k = 0) := by
  rw [dwalkFirst, spot_extent hk]

/-! ## What the pointers read -/

theorem groupAt_pack :
    (pack blocksize (b ++ g :: a)).groupAt (b.length + 1) = ⟨g.keyhi, g.items.length⟩ := by
  rw [Leaf.groupAt, pack]
  dsimp only
  rw [packGroups_append, Nat.add_sub_cancel, List.getD_eq_getElem?_getD,
    List.getElem?_append_right (Nat.le_of_eq packGroups_length), packGroups_length, Nat.sub_self]
  rfl

theorem entryAt_pack (hj : j < g.items.length) :
    (pack blocksize (b ++ g :: a)).entryAt (size b + (j + 1)) = ⟨g.items[j].1, j + 1⟩ := by
  rw [Leaf.entryAt, pack]
  dsimp only
  rw [packEntries_append, ← Nat.add_assoc, Nat.add_sub_cancel, List.getD_eq_getElem?_getD,
    List.getElem?_append_right (packEntries_length ▸ Nat.le_add_right _ _), packEntries_length,
    Nat.add_sub_cancel_left, packEntries_cons, List.getElem?_append_left (packFrom_length ▸ hj),
    packFrom_getElem hj, Nat.zero_add]
  rfl

theorem extentAt_pack (hj : j < g.items.length) :
    (pack blocksize (b ++ g :: a)).extentAt (size b + j) = g.items[j].2 := by
  rw [Leaf.extentAt, pack]
  dsimp only
  rw [packTable_append, List.getD_eq_getElem?_getD,
    List.getElem?_append_right (packTable_length ▸ Nat.le_add_right _ _), packTable_length,
    Nat.add_sub_cancel_left, packTable_cons, List.getElem?_append_left (by rwa [List.length_map]),
    List.getElem?_map, List.getElem?_eq_getElem hj]
  rfl

theorem pairs_getElem (hj : j < g.items.length) :
    (pairsOf (b ++ g :: a))[size b + j]? = some (getIndex g.keyhi g.items[j].1, g.items[j].2) := by
  rw [pairsOf_append, List.getElem?_append_right (pairsOf_length ▸ Nat.le_add_right _ _),
    pairsOf_length, Nat.add_sub_cancel_left, pairsOf_cons,
    List.getElem?_append_left (by rwa [Bunch.pairs, List.length_map]), Bunch.pairs,
    List.getElem?_map, List.getElem?_eq_getElem hj]
  rfl

theorem limit_last (hg : g.Good) :
    ((pack blocksize (b ++ g :: a)).entryAt (size b + g.items.length)).limit = g.items.length := by
  have hpos := List.length_pos_of_ne_nil hg.ne_nil
  have hlt : g.items.length - 1 < g.items.length := Nat.sub_lt hpos Nat.one_pos
  have hentry := @entryAt_pack blocksize a b g (g.items.length - 1) hlt
  rw [Nat.sub_add_cancel hpos] at hentry
  rw [hentry]

theorem spot_reads (hk : k < size gs) :
    (pairsOf gs)[k]? = some (dwalkIndex (pack blocksize gs) (spot gs k),
      (pack blocksize gs).extentAt (spot gs k).extent) := by
  obtain ⟨b, g, a, j, rfl, rfl, hj⟩ := exists_at hk
  rw [pairs_getElem hj, spot_split (.inl hj), dwalkIndex, here]
  dsimp only
  rw [groupAt_pack, Nat.min_eq_left hj, entryAt_pack hj, extentAt_pack hj]

/-! ## Steps -/

theorem next_here (hgood : ∀ x ∈ b ++ g :: a, x.Good) (hj : j < g.items.length) :
    (dwalkNext (pack blocksize (b ++ g :: a)) (here b g a j)).1 =
      spot (b ++ g :: a) (size b + (j + 1)) := by
  have hmin : min (j + 1) g.items.length = j + 1 := Nat.min_eq_left hj
  have hend : dwalkEnd (here b g a j) = false := by
    apply decide_eq_false
    simp only [here, hmin]
    omega
  rw [dwalkNext, hend, if_neg Bool.false_ne_true, here, hmin]
  dsimp only
  rw [if_pos (Nat.add_assoc _ _ _)]
  by_cases hlast : j + 1 = g.items.length
  · cases a with
    | nil =>
        -- the last extent of the leaf
        rw [if_pos ⟨by rw [hlast], rfl⟩, spot_split (.inr rfl), here, ← hlast]
        dsimp only
        rw [Nat.min_eq_right (Nat.le_succ _), Nat.add_assoc]
        rfl
    | cons g' a =>
        -- the first extent of the next group
        have hg' : 0 < g'.items.length :=
          List.length_pos_of_ne_nil (hgood g' (by simp)).ne_nil
        have happ : b ++ g :: g' :: a = (b ++ [g]) ++ g' :: a := List.append_cons _ _ _
        have hsize : size (b ++ [g]) = size b + g.items.length := size_concat
        have hlen : (b ++ [g]).length = b.length + 1 := List.length_append
        have hentry := @entryAt_pack blocksize a (b ++ [g]) g' 0 hg'
        have hgroup := @groupAt_pack blocksize a (b ++ [g]) g'
        have hspot := @spot_split a (b ++ [g]) g' 0 (.inl hg')
        rw [Nat.add_zero] at hspot
        rw [← happ, hsize] at hentry hspot
        rw [← happ, hlen] at hgroup
        rw [Nat.zero_add] at hentry
        have hgstop : b.length + 1 ≠ b.length + 1 + (g' :: a).length := by
          rw [List.length_cons]
          omega
        rw [hlast, hspot, limit_last (hgood g (by simp)), hgroup, here, hsize, hlen,
          if_neg (fun h => hgstop h.2), if_pos rfl, Nat.min_eq_left hg']
        dsimp only
        rw [hentry]
        simp only [List.length_cons, Nat.add_zero, Nat.add_assoc, ← hlast,
          Nat.add_comm 1]
  · -- within the group
    have hlt : j + 1 < g.items.length := Nat.lt_of_le_of_ne hj hlast
    rw [if_neg (fun h => hlast (by omega)), if_neg (fun h => hlast (by omega)),
      spot_split (.inl hlt), here, Nat.min_eq_left hlt]
    dsimp only
    rw [Nat.add_assoc (size b), entryAt_pack hlt]
    simp only [Nat.add_assoc]

theorem next_spot (hgood : ∀ g ∈ gs, g.Good) (hk : k < size gs) :
    (dwalkNext (pack blocksize gs) (spot gs k)).1 = spot gs (k + 1) := by
  obtain ⟨b, g, a, j, rfl, rfl, hj⟩ := exists_at hk
  rw [spot_split (.inl hj), next_here hgood hj, Nat.add_assoc]

theorem next_spot_size (hgood : ∀ g ∈ gs, g.Good) :
    (dwalkNext (pack blocksize gs) (spot gs (size gs))).1 = spot gs (size gs) := by
  rw [dwalkNext, spot_end (Nat.le_refl _) hgood, decide_eq_true rfl, if_pos rfl]

theorem entryExbase_here (hg : g.Good) (hj : j ≤ g.items.length) :
    entryExbase (pack blocksize (b ++ g :: a)) (here b g a j) =
      size b + (min (j + 1) g.items.length - 1) := by
  have hpos := List.length_pos_of_ne_nil hg.ne_nil
  rw [entryExbase, here]
  dsimp only
  rw [groupAt_pack]
  dsimp only
  rw [Nat.add_sub_cancel]
  by_cases hone : min (j + 1) g.items.length = 1
  · rw [hone, if_pos (Nat.add_sub_cancel _ _)]
    rfl
  · obtain ⟨i, hi⟩ : ∃ i, min (j + 1) g.items.length = i + 2 :=
      ⟨min (j + 1) g.items.length - 2, by omega⟩
    have hlt : i < g.items.length := by omega
    have hentry : size b + (i + 2) - 1 = size b + (i + 1) := rfl
    rw [hi, hentry, if_neg (by omega), entryAt_pack hlt]
    rfl

theorem back_here (hgood : ∀ x ∈ b ++ g :: a, x.Good) (hj : j ≤ g.items.length)
    (hlast : j < g.items.length ∨ a = []) (hpos : 0 < size b + j) :
    (dwalkBack (pack blocksize (b ++ g :: a)) (here b g a j)).1 =
      spot (b ++ g :: a) (size b + j - 1) := by
  have hg : g.Good := hgood g (by simp)
  have hglen := List.length_pos_of_ne_nil hg.ne_nil
  have hfirst : dwalkFirst (here b g a j) = false := decide_eq_false (Nat.ne_of_gt hpos)
  rw [dwalkBack, hfirst, if_neg Bool.false_ne_true, entryExbase_here hg hj]
  dsimp only
  by_cases hend : j = g.items.length
  · -- from the end of the leaf
    obtain ⟨i, hi⟩ : ∃ i, g.items.length = i + 1 := ⟨g.items.length - 1, by omega⟩
    have hspot := @spot_split a b g i (.inl (by omega))
    have hextent : size b + (i + 1) - 1 = size b + i := rfl
    rw [hend, hi, hextent, hspot, here, here, hi]
    dsimp only
    rw [Nat.min_eq_right (Nat.le_succ _), Nat.min_self, if_neg (by omega)]
    rfl
  · have hlt : j < g.items.length := Nat.lt_of_le_of_ne hj hend
    have hmin : min (j + 1) g.items.length = j + 1 := Nat.min_eq_left hlt
    rw [here]
    dsimp only
    rw [hmin, Nat.add_sub_cancel, if_pos (Nat.sub_lt hpos Nat.one_pos),
      if_neg (fun h => Nat.succ_ne_zero _ h.2)]
    cases j with
    | zero =>
        -- into the group before
        rw [Nat.add_zero] at hpos
        have hb : b ≠ [] := by
          rintro rfl
          cases hpos
        obtain ⟨b', g', rfl⟩ : ∃ b' g', b = b' ++ [g'] :=
          ⟨b.dropLast, b.getLast hb, (List.dropLast_append_getLast hb).symm⟩
        have happ : b' ++ [g'] ++ g :: a = b' ++ g' :: (g :: a) :=
          (List.append_cons _ _ _).symm
        have hsize : size (b' ++ [g']) = size b' + g'.items.length := size_concat
        have hlen : (b' ++ [g']).length = b'.length + 1 := List.length_append
        have hg' : g'.Good := hgood g' (by simp)
        have hpos' := List.length_pos_of_ne_nil hg'.ne_nil
        obtain ⟨i, hi⟩ : ∃ i, g'.items.length = i + 1 := ⟨g'.items.length - 1, by omega⟩
        have hspot := @spot_split (g :: a) b' g' i (.inl (by omega))
        have hlimit := @limit_last blocksize (g :: a) b' g' hg'
        have hextent : size b' + (i + 1) - 1 = size b' + i := rfl
        rw [hsize] at hpos
        rw [happ, hsize, hlen, Nat.add_zero, if_pos (Nat.sub_lt hpos Nat.one_pos)]
        dsimp only
        rw [Nat.zero_add, Nat.add_sub_cancel, Nat.add_sub_cancel (size b' + g'.items.length),
          hlimit, Nat.add_sub_cancel, hi, hextent, hspot, here, hi, Nat.min_self]
        simp only [List.length_cons, Nat.add_assoc, Nat.add_comm 1]
    | succ j =>
        have hprev : j < g.items.length := Nat.lt_of_succ_lt hlt
        have hextent : size b + (j + 1) - 1 = size b + j := rfl
        have hentry : size b + (j + 1 + 1) - 1 = size b + (j + 1) := rfl
        rw [hextent, if_neg (by omega), hentry, spot_split (.inl hprev), here,
          Nat.min_eq_left hprev]
        dsimp only
        rw [entryAt_pack hprev]

theorem back_spot (hgood : ∀ g ∈ gs, g.Good) (hk : k < size gs) :
    (dwalkBack (pack blocksize gs) (spot gs (k + 1))).1 = spot gs k := by
  have hne : gs ≠ [] := by
    rintro rfl
    cases hk
  obtain ⟨b, g, a, j, rfl, hkj, hle, hlast⟩ := exists_split hne hk
  have hpos : 0 < size b + j := hkj ▸ Nat.succ_pos k
  have hback := @back_here blocksize a b g j hgood hle hlast hpos
  rw [← spot_split hlast, ← hkj] at hback
  exact hback

end

end Tux3.Dleaf
