import Tux3.DleafProbe

/-!
# Cutting a file index leaf

`dwalk_copy` and `dwalk_chop` at a position of a walk: the pairs from the position on, and the ones
before it.
-/
namespace Tux3.Dleaf

/-- The states that a walk over the leaf can be in. -/
inductive Position (leaf : Leaf) : Dwalk → Prop where
  | probe (key : ℕ) : Position leaf (dwalkProbe leaf key).1
  | next {walk : Dwalk} : Position leaf walk → Position leaf (dwalkNext leaf walk).1
  | back {walk : Dwalk} : Position leaf walk → Position leaf (dwalkBack leaf walk).1

/-- The state that `dwalk_add` works in: behind the last group, entry and extent. It does not read
the stops. -/
structure AtEnd (leaf : Leaf) (walk : Dwalk) : Prop where
  group : walk.group = leaf.groups.length
  entry : walk.entry = leaf.entries.length
  extent : walk.extent = leaf.table.length
  exbase : walk.exbase + (leaf.groupAt leaf.groups.length).count = leaf.table.length

section
variable {blocksize : ℕ} {gs a b : List Bunch} {g : Bunch} {j k : ℕ}

theorem Position.spot {walk : Dwalk} (hgood : ∀ g ∈ gs, g.Good)
    (h : Position (pack blocksize gs) walk) : ∃ k ≤ size gs, walk = spot gs k := by
  induction h with
  | probe key =>
      obtain ⟨k, hk, heq⟩ := @dwalkProbe_spot blocksize key gs hgood
      exact ⟨k, hk, congrArg Prod.fst heq⟩
  | next _ ih =>
      obtain ⟨k, hk, rfl⟩ := ih
      cases Nat.lt_or_eq_of_le hk with
      | inl hlt => exact ⟨k + 1, hlt, next_spot hgood hlt⟩
      | inr heq => exact ⟨k, hk, heq ▸ next_spot_size hgood⟩
  | back _ ih =>
      obtain ⟨k, hk, rfl⟩ := ih
      cases k with
      | zero =>
          refine ⟨0, hk, ?_⟩
          rw [dwalkBack, spot_first hk, decide_eq_true rfl, if_pos rfl]
      | succ k => exact ⟨k, Nat.le_of_lt hk, back_spot hgood hk⟩

theorem atEnd_spot : AtEnd (pack blocksize gs) (Dleaf.spot gs (size gs)) := by
  cases List.eq_nil_or_concat gs with
  | inl hnil =>
      subst hnil
      exact ⟨rfl, rfl, rfl, rfl⟩
  | inr hconcat =>
      obtain ⟨b, g, rfl⟩ := hconcat
      rw [List.concat_eq_append]
      have hgroup := @groupAt_pack blocksize [] b g
      have hlen : (pack blocksize (b ++ [g])).groups.length = b.length + 1 := by
        rw [pack]
        dsimp only
        rw [packGroups_length, List.length_append]
        rfl
      have hentries : (pack blocksize (b ++ [g])).entries.length = size b + g.items.length := by
        rw [pack, ← size_concat]
        exact packEntries_length
      have htable : (pack blocksize (b ++ [g])).table.length = size b + g.items.length := by
        rw [pack, ← size_concat]
        exact packTable_length
      rw [spot_size]
      refine ⟨hlen.symm, ?_, htable.symm, ?_⟩
      · rw [hentries, here, Nat.min_eq_right (Nat.le_succ _)]
      · rw [hlen, hgroup, htable, here]

/-! ## Parts of a packed leaf -/

theorem Fits.checked (h : Fits blocksize gs) {leaf : Leaf} (hleaf : leaf = pack blocksize gs) :
    (if dleafCheck blocksize leaf = true then some leaf else none) =
      some (pack blocksize gs) := by
  rw [hleaf, if_pos h.check]

theorem Bunch.Good.take (hg : g.Good) (hj : 0 < j) :
    Bunch.Good ⟨g.keyhi, g.items.take j⟩ where
  ne_nil := by
    have hpos := List.length_pos_of_ne_nil hg.ne_nil
    apply List.ne_nil_of_length_pos
    rw [List.length_take]
    omega
  le_max := by
    have hle := hg.le_max
    rw [List.length_take]
    omega
  sorted := by
    dsimp only
    rw [List.map_take]
    exact hg.sorted.sublist (List.take_sublist _ _)
  blocks := fun x hx => hg.blocks x (List.mem_of_mem_take hx)
  keyhi_lt := hg.keyhi_lt
  keylo_lt := fun x hx => hg.keylo_lt x (List.mem_of_mem_take hx)

theorem Bunch.Good.drop (hg : g.Good) (hj : j < g.items.length) :
    Bunch.Good ⟨g.keyhi, g.items.drop j⟩ where
  ne_nil := by
    apply List.ne_nil_of_length_pos
    rw [List.length_drop]
    omega
  le_max := by
    have hle := hg.le_max
    rw [List.length_drop]
    omega
  sorted := by
    dsimp only
    rw [List.map_drop]
    exact hg.sorted.sublist (List.drop_sublist _ _)
  blocks := fun x hx => hg.blocks x (List.mem_of_mem_drop hx)
  keyhi_lt := hg.keyhi_lt
  keylo_lt := fun x hx => hg.keylo_lt x (List.mem_of_mem_drop hx)

theorem Fits.before (h : Fits blocksize (b ++ g :: a)) (hj : 0 < j) :
    Fits blocksize (b ++ [⟨g.keyhi, g.items.take j⟩]) where
  good := by
    intro x hx
    cases List.mem_append.mp hx with
    | inl hx => exact h.good x (List.mem_append_left _ hx)
    | inr hx => exact List.mem_singleton.mp hx ▸ (h.good g (by simp)).take hj
  sorted := by
    have hsorted := h.sorted
    rw [List.append_cons, List.map_append, List.map_append] at hsorted
    rw [List.map_append]
    exact (List.pairwise_append.mp hsorted).1
  room := by
    have hroom := h.room
    rw [size_append, size, List.length_append, List.length_cons] at hroom
    rw [size_concat, List.length_append, List.length_singleton]
    dsimp only
    rw [List.length_take]
    omega

theorem Fits.after (h : Fits blocksize (b ++ g :: a)) (hj : j < g.items.length) :
    Fits blocksize (⟨g.keyhi, g.items.drop j⟩ :: a) where
  good := by
    intro x hx
    cases List.mem_cons.mp hx with
    | inl hx => exact hx ▸ (h.good g (by simp)).drop hj
    | inr hx => exact h.good x (by simp [hx])
  sorted := by
    have hsorted := h.sorted
    rw [List.map_append] at hsorted
    exact (List.pairwise_append.mp hsorted).2.1
  room := by
    have hroom := h.room
    rw [size_append, size, List.length_append, List.length_cons] at hroom
    rw [size, List.length_cons]
    dsimp only
    rw [List.length_drop]
    omega

theorem Fits.front (h : Fits blocksize (b ++ a)) : Fits blocksize b where
  good := fun x hx => h.good x (List.mem_append_left _ hx)
  sorted := by
    have hsorted := h.sorted
    rw [List.map_append] at hsorted
    exact (List.pairwise_append.mp hsorted).1
  room := by
    have hroom := h.room
    rw [size_append, List.length_append] at hroom
    omega

theorem pairs_take (hj : j ≤ g.items.length) :
    (pairsOf (b ++ g :: a)).take (size b + j) = pairsOf (b ++ [⟨g.keyhi, g.items.take j⟩]) := by
  rw [pairsOf_append, pairsOf_append, List.take_append, pairsOf_length, Nat.add_sub_cancel_left,
    List.take_of_length_le (pairsOf_length ▸ Nat.le_add_right _ _), pairsOf_cons, pairsOf_cons,
    List.take_append_of_le_length (by rwa [Bunch.pairs, List.length_map])]
  congr 1
  rw [Bunch.pairs, Bunch.pairs, ← List.map_take]
  exact (List.append_nil _).symm

theorem pairs_drop (hj : j ≤ g.items.length) :
    (pairsOf (b ++ g :: a)).drop (size b + j) = pairsOf (⟨g.keyhi, g.items.drop j⟩ :: a) := by
  rw [pairsOf_append, List.drop_append, pairsOf_length, Nat.add_sub_cancel_left,
    List.drop_of_length_le (pairsOf_length ▸ Nat.le_add_right _ _), List.nil_append, pairsOf_cons,
    pairsOf_cons, List.drop_append_of_le_length (by rwa [Bunch.pairs, List.length_map])]
  rw [Bunch.pairs, Bunch.pairs, ← List.map_drop]

theorem size_drop : size (⟨g.keyhi, g.items.drop j⟩ :: a) = g.items.length - j + size a := by
  rw [size, List.length_drop]

theorem ebase_pack (h : Fits blocksize gs) : (pack blocksize gs).ebase blocksize = size gs := by
  have hroom := h.room
  rw [Leaf.ebase, pack]
  dsimp only
  rw [packGroups_length, entryOffset]
  omega

theorem exend_pack : (pack blocksize gs).exend = size gs := by
  rw [Leaf.exend, pack]
  dsimp only
  omega

theorem packEntries_drop (hj : j ≤ g.items.length) :
    (packEntries (b ++ g :: a)).drop (size b + j) =
      packFrom j (g.items.drop j) ++ packEntries a := by
  rw [packEntries_append, List.drop_append, packEntries_length, Nat.add_sub_cancel_left,
    List.drop_of_length_le (packEntries_length ▸ Nat.le_add_right _ _), List.nil_append,
    packEntries_cons, List.drop_append_of_le_length (by rwa [packFrom_length]), packFrom_drop,
    Nat.zero_add]

theorem packTable_drop (hj : j ≤ g.items.length) :
    (packTable (b ++ g :: a)).drop (size b + j) = packTable (⟨g.keyhi, g.items.drop j⟩ :: a) := by
  rw [packTable_append, List.drop_append, packTable_length, Nat.add_sub_cancel_left,
    List.drop_of_length_le (packTable_length ▸ Nat.le_add_right _ _), List.nil_append,
    packTable_cons, List.drop_append_of_le_length (by rwa [List.length_map]), packTable_cons,
    List.map_drop]

theorem packGroups_drop :
    (packGroups (b ++ g :: a)).drop b.length = ⟨g.keyhi, g.items.length⟩ :: packGroups a := by
  rw [packGroups_append, List.drop_left' packGroups_length, packGroups_cons]

theorem packEntries_take (hj : j ≤ g.items.length) :
    (packEntries (b ++ g :: a)).take (size b + j) =
      packEntries (b ++ [⟨g.keyhi, g.items.take j⟩]) := by
  rw [packEntries_append, List.take_append, packEntries_length, Nat.add_sub_cancel_left,
    List.take_of_length_le (packEntries_length ▸ Nat.le_add_right _ _), packEntries_cons,
    List.take_append_of_le_length (by rwa [packFrom_length]), packFrom_take, packEntries_append,
    packEntries_cons]
  exact congrArg _ (List.append_nil _).symm

theorem packTable_take (hj : j ≤ g.items.length) :
    (packTable (b ++ g :: a)).take (size b + j) =
      packTable (b ++ [⟨g.keyhi, g.items.take j⟩]) := by
  rw [packTable_append, List.take_append, packTable_length, Nat.add_sub_cancel_left,
    List.take_of_length_le (packTable_length ▸ Nat.le_add_right _ _), packTable_cons,
    List.take_append_of_le_length (by rwa [List.length_map]), ← List.map_take, packTable_append,
    packTable_cons]
  exact congrArg _ (List.append_nil _).symm

theorem modify_concat {α : Type*} {l : List α} {x : α} {f : α → α} :
    (l ++ [x]).modify l.length f = l ++ [f x] := by
  induction l with
  | nil => rfl
  | cons y l ih =>
      rw [List.cons_append, List.length_cons, List.modify_succ_cons, ih, List.cons_append]

theorem packGroups_take (hj : j ≤ g.items.length) (hmax : g.items.length ≤ MAX_GROUP_ENTRIES) :
    ((packGroups (b ++ g :: a)).take (b.length + 1)).modify b.length
        (fun group => setGroupCount group j) =
      packGroups (b ++ [⟨g.keyhi, g.items.take j⟩]) := by
  have hmod : j % 2 ^ 8 = j := Nat.mod_eq_of_lt (by rw [MAX_GROUP_ENTRIES] at hmax; omega)
  have hlen : (packGroups b ++ [(⟨g.keyhi, g.items.length⟩ : Group)]).length = b.length + 1 := by
    rw [List.length_append, packGroups_length, List.length_singleton]
  have hcons : packGroups (b ++ g :: a) =
      (packGroups b ++ [⟨g.keyhi, g.items.length⟩]) ++ packGroups a := by
    rw [packGroups_append, packGroups_cons, List.append_cons]
  rw [hcons, List.take_left' hlen, ← @packGroups_length b, modify_concat, packGroups_append,
    packGroups_cons, List.length_take, Nat.min_eq_left hj, setGroupCount, hmod]
  rfl

/-! ## Copying -/

theorem limitAdjust_here (hj : j < g.items.length) :
    (if (here b g a j).entry - 1 = (here b g a j).estop -
        ((pack blocksize (b ++ g :: a)).groupAt (here b g a j).group).count then 0
      else ((pack blocksize (b ++ g :: a)).entryAt ((here b g a j).entry - 1)).limit) = j := by
  rw [here, Nat.min_eq_left hj]
  dsimp only
  rw [groupAt_pack]
  dsimp only
  rw [Nat.add_sub_cancel]
  cases j with
  | zero => rw [if_pos (Nat.add_sub_cancel _ _)]
  | succ i =>
      have hentry : size b + (i + 1).succ - 1 = size b + (i + 1) := rfl
      rw [hentry, if_neg (by omega), entryAt_pack (Nat.lt_of_succ_lt hj)]

theorem dwalkCopy_here (h : Fits blocksize (b ++ g :: a)) (hj : j < g.items.length)
    (hpos : 0 < size b + j) {dest : Leaf} (hdest : dest.groups.length = 0) :
    dwalkCopy blocksize (pack blocksize (b ++ g :: a)) (here b g a j) dest =
      some (pack blocksize (⟨g.keyhi, g.items.drop j⟩ :: a)) := by
  have hg : g.Good := h.good g (by simp)
  have hmin : min (j + 1) g.items.length = j + 1 := Nat.min_eq_left hj
  have hend : dwalkEnd (here b g a j) = false := by
    apply decide_eq_false
    simp only [here, hmin]
    omega
  have hfirst : dwalkFirst (here b g a j) = false := decide_eq_false (Nat.ne_of_gt hpos)
  have hgroups2 : (here b g a j).gstop + 1 - (here b g a j).group = a.length + 1 := by
    rw [here]
    dsimp only
    omega
  have hsize : size (b ++ g :: a) = size b + (g.items.length + size a) := by
    rw [size_append, size]
  have hentries : size (b ++ g :: a) + 1 - (here b g a j).entry = g.items.length - j + size a := by
    rw [here, hmin, hsize]
    dsimp only
    omega
  have hexbase : entryExbase (pack blocksize (b ++ g :: a)) (here b g a j) = size b + j := by
    rw [entryExbase_here hg (Nat.le_of_lt hj), hmin, Nat.add_sub_cancel]
  have hextents : size (b ++ g :: a) - (size b + j) = g.items.length - j + size a := by
    rw [hsize]
    omega
  have hgcount : (here b g a j).estop + 1 - (here b g a j).entry = g.items.length - j := by
    rw [here, hmin]
    dsimp only
    omega
  have hentry : (here b g a j).entry - 1 = size b + j := by
    rw [here, hmin]
    rfl
  have hgroup : (here b g a j).group - 1 = b.length := rfl
  have hmod : (g.items.length - j) % 2 ^ 8 = g.items.length - j := by
    have hmax := hg.le_max
    rw [MAX_GROUP_ENTRIES] at hmax
    exact Nat.mod_eq_of_lt (by omega)
  have hmax := hg.le_max
  rw [MAX_GROUP_ENTRIES] at hmax
  rw [dwalkCopy, if_neg (not_not.mpr hdest), hend, if_neg Bool.false_ne_true, hfirst,
    if_neg Bool.false_ne_true]
  dsimp only
  rw [limitAdjust_here hj, ebase_pack h, exend_pack, hgroups2, hentries, hexbase, hextents, hgcount,
    hentry, hgroup]
  apply (h.after hj).checked
  rw [pack, pack, Leaf.mk.injEq]
  dsimp only
  refine ⟨?_, ?_, ?_, ?_, ?_⟩
  · have hlen : (⟨g.keyhi, g.items.length⟩ :: packGroups a).length = a.length + 1 := by
      rw [List.length_cons, packGroups_length]
    rw [packGroups_drop, List.take_of_length_le (Nat.le_of_eq hlen), List.modify_zero_cons,
      setGroupCount, hmod, packGroups_cons, List.length_drop]
  · have hlen : (packFrom j (g.items.drop j)).length = g.items.length - j := by
      rw [packFrom_length, List.length_drop]
    have hall : (packFrom j (g.items.drop j) ++ packEntries a).length ≤
        g.items.length - j + size a :=
      Nat.le_of_eq (by rw [List.length_append, hlen, packEntries_length])
    rw [packEntries_drop (Nat.le_of_lt hj), List.take_of_length_le hall, List.take_left' hlen,
      List.drop_left' hlen, packFrom_shift (m := 0) (by omega) (by rw [List.length_drop]; omega)]
    rfl
  · rw [packTable_drop (Nat.le_of_lt hj)]
    exact List.take_of_length_le (Nat.le_of_eq (packTable_length.trans size_drop))
  · rw [size_drop]
  · rw [size_drop, List.length_cons]

/-! ## Chopping -/

/-- The chop cuts behind the extent before its position. -/
theorem dwalkChop_spot (h : Fits blocksize (b ++ g :: a)) (hj : j < g.items.length)
    (hlt : size b + (j + 1) < size (b ++ g :: a)) :
    dwalkChop blocksize (pack blocksize (b ++ g :: a)) (spot (b ++ g :: a) (size b + (j + 1))) =
      some (pack blocksize (b ++ [⟨g.keyhi, g.items.take (j + 1)⟩]),
        spot (b ++ [⟨g.keyhi, g.items.take (j + 1)⟩]) (size b + (j + 1))) := by
  have hg : g.Good := h.good g (by simp)
  have hlen : (g.items.take (j + 1)).length = j + 1 := by
    rw [List.length_take]
    omega
  have hsize : size (b ++ [⟨g.keyhi, g.items.take (j + 1)⟩]) = size b + (j + 1) := by
    rw [size_concat, hlen]
  have hend : dwalkEnd (spot (b ++ g :: a) (size b + (j + 1))) = false := by
    rw [spot_end (Nat.le_of_lt hlt) h.good, decide_eq_false (Nat.ne_of_lt hlt)]
  have hfirst : dwalkFirst (spot (b ++ g :: a) (size b + (j + 1))) = false := by
    rw [spot_first (Nat.le_of_lt hlt)]
    exact decide_eq_false (Nat.succ_ne_zero (size b + j))
  have hback : (dwalkBack (pack blocksize (b ++ g :: a))
      (spot (b ++ g :: a) (size b + (j + 1)))).1 = here b g a j := by
    have hlt' : size b + j < size (b ++ g :: a) := Nat.lt_of_succ_lt hlt
    rw [← Nat.add_assoc, back_spot h.good hlt', spot_split (.inl hj)]
  have hebase : (here b g a j).estop -
      ((pack blocksize (b ++ g :: a)).groupAt (here b g a j).group).count = size b := by
    rw [here]
    dsimp only
    rw [groupAt_pack]
    exact Nat.add_sub_cancel _ _
  have hentry : (here b g a j).entry = size b + (j + 1) := by
    rw [here, Nat.min_eq_left hj]
  have hexstop : (here b g a j).exbase +
      ((pack blocksize (b ++ g :: a)).entryAt (size b + (j + 1))).limit = size b + (j + 1) := by
    rw [entryAt_pack hj]
    rfl
  have hgroup : (here b g a j).group - 1 = b.length := rfl
  rw [dwalkChop, hend, if_neg Bool.false_ne_true, hfirst, if_neg Bool.false_ne_true, hback]
  dsimp only
  rw [hebase, hentry, hexstop, hgroup, Nat.add_sub_cancel_left]
  have hleaf : (⟨((pack blocksize (b ++ g :: a)).groups.take (here b g a j).group).modify b.length
        (fun group => setGroupCount group (j + 1)),
      (pack blocksize (b ++ g :: a)).entries.take (size b + (j + 1)),
      (pack blocksize (b ++ g :: a)).table.take (size b + (j + 1)), 8 + 8 * (size b + (j + 1)),
      entryOffset blocksize (here b g a j).group (size b + (j + 1))⟩ : Leaf) =
      pack blocksize (b ++ [⟨g.keyhi, g.items.take (j + 1)⟩]) := by
    have hlength : (b ++ [(⟨g.keyhi, g.items.take (j + 1)⟩ : Bunch)]).length = b.length + 1 :=
      List.length_append
    rw [pack, pack, hsize, hlength, Leaf.mk.injEq]
    exact ⟨packGroups_take hj hg.le_max, packEntries_take hj, packTable_take hj, rfl, rfl⟩
  rw [hleaf, if_pos (h.before (Nat.succ_pos j)).check, ← hsize, spot_size, hlen, hsize]
  congr 2
  rw [here, here, hlen, Nat.min_eq_right (Nat.le_succ _)]
  rfl

/-! ## Partition -/

theorem copy_inside (h : Fits blocksize gs) (hpos : 0 < k) (hk : k < size gs) {dest : Leaf}
    (hdest : dest.groups.length = 0) :
    ∃ copy, dwalkCopy blocksize (pack blocksize gs) (spot gs k) dest = some copy ∧
      copy.pairs = (pairsOf gs).drop k ∧ copy.Sound blocksize := by
  obtain ⟨b, g, a, j, rfl, rfl, hj⟩ := exists_at hk
  refine ⟨_, ?_, ?_, (h.after hj).sound⟩
  · rw [spot_split (.inl hj), dwalkCopy_here h hj hpos hdest]
  · rw [pack_pairs, pairs_drop (Nat.le_of_lt hj)]

theorem chop_inside (h : Fits blocksize gs) (hpos : 0 < k) (hk : k < size gs) :
    ∃ chopped walk, dwalkChop blocksize (pack blocksize gs) (spot gs k) = some (chopped, walk) ∧
      chopped.pairs = (pairsOf gs).take k ∧ chopped.Sound blocksize ∧ AtEnd chopped walk ∧
      dwalkEnd walk = true := by
  obtain ⟨i, rfl⟩ : ∃ i, k = i + 1 := ⟨k - 1, by omega⟩
  obtain ⟨b, g, a, j, rfl, rfl, hj⟩ := exists_at (Nat.lt_of_succ_lt hk)
  have hbefore := h.before (Nat.succ_pos j)
  have hsize : size (b ++ [⟨g.keyhi, g.items.take (j + 1)⟩]) = size b + (j + 1) := by
    rw [size_concat, List.length_take, Nat.min_eq_left hj]
  refine ⟨_, _, dwalkChop_spot h hj hk, ?_, hbefore.sound, ?_, ?_⟩
  · rw [pack_pairs]
    exact (pairs_take hj).symm
  · rw [← hsize]
    exact atEnd_spot
  · rw [← hsize, spot_end (Nat.le_refl _) hbefore.good, decide_eq_true rfl]

/-- The copy has the contents from the position on. -/
theorem copy_partition (h : Fits blocksize gs) (hk : k ≤ size gs) {dest : Leaf}
    (hsound : dest.Sound blocksize) (hempty : dest.groups = []) :
    ∃ copy, dwalkCopy blocksize (pack blocksize gs) (spot gs k) dest = some copy ∧
      copy.pairs = (pairsOf gs).drop k ∧ copy.Sound blocksize := by
  have hlen : dest.groups.length = 0 := by rw [hempty]; rfl
  have hend := spot_end hk h.good
  have hfirst := spot_first hk
  rcases Nat.lt_or_eq_of_le hk with hlt | rfl
  · rw [decide_eq_false (Nat.ne_of_lt hlt)] at hend
    rcases Nat.eq_zero_or_pos k with rfl | hpos
    · -- the whole leaf
      rw [decide_eq_true rfl] at hfirst
      refine ⟨pack blocksize gs, ?_, pack_pairs, h.sound⟩
      rw [dwalkCopy, if_neg (not_not.mpr hlen), hend, hfirst]
      rfl
    · exact copy_inside h hpos hlt hlen
  · -- nothing
    rw [decide_eq_true rfl] at hend
    refine ⟨dest, ?_, ?_, hsound⟩
    · rw [dwalkCopy, if_neg (not_not.mpr hlen), hend]
      rfl
    · obtain ⟨gs', -, rfl⟩ := hsound.packed
      rw [List.map_eq_nil_iff.mp hempty, pack_pairs,
        List.drop_of_length_le (Nat.le_of_eq pairsOf_length)]
      rfl

/-- The chop leaves the contents before the position, and the walk behind them. -/
theorem chop_partition (h : Fits blocksize gs) (hk : k ≤ size gs) :
    ∃ chopped walk, dwalkChop blocksize (pack blocksize gs) (spot gs k) = some (chopped, walk) ∧
      chopped.pairs = (pairsOf gs).take k ∧ chopped.Sound blocksize ∧ AtEnd chopped walk ∧
      dwalkEnd walk = true := by
  have hend := spot_end hk h.good
  have hfirst := spot_first hk
  rcases Nat.lt_or_eq_of_le hk with hlt | rfl
  · rw [decide_eq_false (Nat.ne_of_lt hlt)] at hend
    rcases Nat.eq_zero_or_pos k with rfl | hpos
    · -- nothing stays
      have hnil : Fits blocksize [] := h.front (b := []) (a := gs)
      rw [decide_eq_true rfl] at hfirst
      refine ⟨pack blocksize [], spot [] 0, ?_, pack_pairs, hnil.sound, atEnd_spot, rfl⟩
      rw [dwalkChop, hend, hfirst]
      rfl
    · exact chop_inside h hpos hlt
  · -- the whole leaf
    rw [decide_eq_true rfl] at hend
    refine ⟨pack blocksize gs, spot gs (size gs), ?_, ?_, h.sound, atEnd_spot, hend⟩
    · rw [dwalkChop, hend]
      rfl
    · rw [pack_pairs, List.take_of_length_le (Nat.le_of_eq pairsOf_length)]

end

theorem exists_position {blocksize : ℕ} {leaf : Leaf} (h : leaf.Sound blocksize)
    (hordered : leaf.Ordered) {k : ℕ} (hk : k ≤ leaf.pairs.length) :
    ∃ walk, Position leaf walk ∧ walk.extent = k := by
  obtain ⟨gs, hfits, rfl⟩ := h.packed
  rw [pack_pairs, pairsOf_length] at hk
  refine ⟨walkTo (pack blocksize gs) k, ?_, ?_⟩
  · generalize pack blocksize gs = leaf
    induction k with
    | zero => exact .probe 0
    | succ k ih =>
        have hrec := (ih (Nat.le_of_lt hk)).next
        rw [walkTo] at hrec ⊢
        rw [Function.iterate_succ_apply']
        exact hrec
  · rw [walkTo_spot hfits.good (dwalkProbe_zero hfits hordered) hk, spot_extent hk]

/-- Copying and chopping at a position cut the contents there, and every extent and the end of an
ordered leaf are positions. -/
theorem cut_partition {blocksize : ℕ} {leaf dest : Leaf} (h : leaf.Sound blocksize)
    (hdest : dest.Sound blocksize) (hempty : dest.groups = []) :
    (∀ walk, Position leaf walk →
      ∃ copy chopped walk', dwalkCopy blocksize leaf walk dest = some copy ∧
        dwalkChop blocksize leaf walk = some (chopped, walk') ∧
        chopped.pairs = leaf.pairs.take walk.extent ∧ copy.pairs = leaf.pairs.drop walk.extent ∧
        chopped.Sound blocksize ∧ copy.Sound blocksize ∧ AtEnd chopped walk' ∧
        dwalkEnd walk' = true) ∧
    (leaf.Ordered → ∀ k ≤ leaf.pairs.length, ∃ walk, Position leaf walk ∧ walk.extent = k) := by
  refine ⟨fun walk hwalk => ?_, fun hordered k hk => exists_position h hordered hk⟩
  obtain ⟨gs, hfits, rfl⟩ := h.packed
  obtain ⟨k, hk, rfl⟩ := hwalk.spot hfits.good
  obtain ⟨copy, hcopy, hdrop, hsound⟩ := copy_partition hfits hk hdest hempty
  obtain ⟨chopped, walk', hchop, htake, hsound', hat, hend⟩ := chop_partition hfits hk
  rw [spot_extent hk, pack_pairs]
  exact ⟨copy, chopped, walk', hcopy, hchop, htake, hdrop, hsound', hsound, hat, hend⟩

/-- Two groups, with an extent at index 5, one of two blocks at 9 and one in the second range. -/
def sample : List Bunch := [⟨0, [(5, ⟨100, 1⟩), (9, ⟨200, 2⟩)]⟩, ⟨1, [(3, ⟨300, 4⟩)]⟩]

theorem sample_fits : Fits 4096 sample where
  good := by
    intro g hg
    simp only [sample, List.mem_cons, List.not_mem_nil, or_false] at hg
    rcases hg with rfl | rfl
    · exact ⟨by simp, by decide, by simp, by simp, by decide, by simp⟩
    · exact ⟨by simp, by decide, by simp, by simp, by decide, by simp⟩
  sorted := by decide
  room := by decide

theorem cut_partition_sample :
    ∃ copy chopped walk', dwalkCopy 4096 (pack 4096 sample)
        (dwalkProbe (pack 4096 sample) 9).1 (pack 4096 []) = some copy ∧
      dwalkChop 4096 (pack 4096 sample) (dwalkProbe (pack 4096 sample) 9).1 =
        some (chopped, walk') ∧
      chopped.pairs = (pack 4096 sample).pairs.take 1 ∧
      copy.pairs = (pack 4096 sample).pairs.drop 1 ∧
      chopped.Sound 4096 ∧ copy.Sound 4096 ∧ AtEnd chopped walk' ∧ dwalkEnd walk' = true :=
  (cut_partition sample_fits.sound (sample_fits.front (b := [])).sound rfl).1 _ (.probe 9)

end Tux3.Dleaf
