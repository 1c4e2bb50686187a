import Tux3.TreeChopTrim

/-!
# The separators after a removal

When the first entry of a node goes, `remove_index` puts the next key into the nearest level that
is not at its first entry. Every key is then routed to its child, but the first keys of the nodes
in between stay as they were, and one of them can be below the new separator.
-/
namespace Tux3.TreeChop

open Btree

section
variable (node node' : Nodes)

/-- The key that a removal sends above a path, root first: the next one of the last level, when
every level is at its first entry. -/
def rising : List PathLevel → Option ℕ
  | [] => none
  | [at'] => if at'.next = 1 then (node at'.block)[1]?.map IndexEntry.key else none
  | at' :: rest => if at'.next = 1 then rising rest else none

/-- The node right below a new separator does not start under it. The node of the last level starts
with it. -/
def Covered : List PathLevel → Prop
  | at' :: below :: lower =>
      (at'.next ≠ 1 → lower ≠ [] → ∀ sep ∈ rising node (below :: lower),
        ∀ first ∈ (node below.block).head?, sep ≤ first.key) ∧ Covered (below :: lower)
  | _ => True

/-- A node above the last level, where a separator may arrive from below. -/
def separated (at' : PathLevel) (lower : List PathLevel) : List IndexEntry :=
  if at'.next = 1 then node at'.block
  else match rising node lower with
    | none => node at'.block
    | some sep => (node at'.block).modify (at'.next - 1) fun e => { e with key := sep }

/-- The nodes of a path without the entry of its last level. -/
def Removed : List PathLevel → Prop
  | [] => True
  | [at'] => node' at'.block = (node at'.block).eraseIdx (at'.next - 1)
  | at' :: rest => node' at'.block = separated node at' rest ∧ Removed rest

/-- The assertion of `cursor_check` about keys, for every entry. -/
def Checked : ℕ → ℕ → ℕ → Prop
  | 0, _, _ => True
  | depth + 1, key, block => ∀ e ∈ node block, key ≤ e.key ∧ Checked depth e.key e.block

end

section
variable {node node' node'' : Nodes} {path upper lower : List PathLevel} {at' below : PathLevel}
  {sep n depth block child key : ℕ}

/-! ## The climb -/

theorem rising_cons : rising node (at' :: below :: lower) =
    if at'.next = 1 then rising node (below :: lower) else none := rfl

theorem setSeparator_append : setSeparator node sep (lower ++ upper) =
    if ∀ p ∈ lower, p.next - 1 = 0 then setSeparator node sep upper
    else setSeparator node sep lower := by
  induction lower with
  | nil => rw [List.nil_append, if_pos (fun _ h => nomatch h)]
  | cons at' lower ih =>
      rw [List.cons_append, setSeparator, setSeparator]
      by_cases hfirst : at'.next - 1 = 0
      · rw [if_pos hfirst, if_pos hfirst, ih]
        exact if_congr (by rw [List.forall_mem_cons, and_iff_right hfirst]) rfl rfl
      · rw [if_neg hfirst, if_neg hfirst, if_neg fun h => hfirst (h at' List.mem_cons_self)]

theorem setSeparator_first (h : ∀ p ∈ path, p.next - 1 = 0) :
    setSeparator node sep path = node := by
  induction path with
  | nil => rfl
  | cons at' path ih =>
      rw [setSeparator, if_pos (h at' List.mem_cons_self),
        ih fun p hp => h p (List.mem_cons_of_mem _ hp)]

theorem rising_append (hpos : ∀ p ∈ upper, 0 < p.next) : rising node (upper ++ [at']) =
    if ∀ p ∈ upper, p.next - 1 = 0 then rising node [at'] else none := by
  induction upper with
  | nil => rw [List.nil_append, if_pos (fun _ h => nomatch h)]
  | cons p upper ih =>
      have hp := hpos p List.mem_cons_self
      have hcons : rising node (p :: upper ++ [at']) =
          if p.next = 1 then rising node (upper ++ [at']) else none := by
        cases upper <;> rfl
      rw [hcons, ih fun q hq => hpos q (List.mem_cons_of_mem _ hq)]
      by_cases hfirst : p.next = 1
      · rw [if_pos hfirst]
        refine if_congr ?_ rfl rfl
        rw [List.forall_mem_cons, and_iff_right (by rw [hfirst])]
      · rw [if_neg hfirst, if_neg fun h => hfirst (by have := h p List.mem_cons_self; omega)]

theorem removeIndex_nodes (hpos : 0 < below.next) :
    (removeIndex node (below :: upper)).1 =
      match rising node [below] with
      | none => Function.update node below.block ((node below.block).eraseIdx (below.next - 1))
      | some sep => setSeparator
          (Function.update node below.block ((node below.block).eraseIdx (below.next - 1))) sep
          upper := by
  rw [removeIndex, rising]
  by_cases hfirst : below.next = 1
  · rw [if_pos hfirst, List.getElem?_eraseIdx_of_ge (Nat.le_refl _), hfirst]
    cases (node below.block)[1]? with
    | none => rfl
    | some e => rfl
  · rw [if_neg hfirst]
    split
    · rfl
    · exact if_neg (by omega)

theorem removeIndex_cons (hpos : ∀ p ∈ at' :: upper ++ [below], 0 < p.next) :
    (removeIndex node (at' :: upper ++ [below]).reverse).1 =
      match rising node (upper ++ [below]) with
      | none => (removeIndex node (upper ++ [below]).reverse).1
      | some sep => setSeparator (removeIndex node (upper ++ [below]).reverse).1 sep [at'] := by
  have hbelow := hpos below (List.mem_append_right _ List.mem_cons_self)
  rw [rising_append fun p hp => hpos p (List.mem_append_left _ (List.mem_cons_of_mem _ hp)),
    List.reverse_concat, List.reverse_concat, List.reverse_cons, removeIndex_nodes hbelow,
    removeIndex_nodes hbelow]
  cases rising node [below] with
  | none => rw [ite_self]
  | some sep =>
      dsimp only
      rw [setSeparator_append]
      simp only [List.mem_reverse]
      by_cases hall : ∀ p ∈ upper, p.next - 1 = 0
      · rw [if_pos hall, if_pos hall]
        dsimp only
        rw [setSeparator_first fun p hp => hall p (List.mem_reverse.mp hp)]
      · rw [if_neg hall, if_neg hall]

theorem removeIndex_frame {y : ℕ} (hpos : ∀ p ∈ upper ++ [below], 0 < p.next)
    (hy : ∀ p ∈ upper ++ [below], p.block ≠ y) :
    (removeIndex node (upper ++ [below]).reverse).1 y = node y := by
  obtain ⟨x, next⟩ := below
  have hnext : 0 < next := hpos ⟨x, next⟩ (List.mem_append_right _ List.mem_cons_self)
  obtain ⟨n, rfl⟩ := Nat.exists_eq_succ_of_ne_zero (Nat.pos_iff_ne_zero.mp hnext)
  rw [List.reverse_append]
  refine (removeIndex_other (Ne.symm ?_)).1.of_notMem fun p hp => hy p ?_
  · exact hy ⟨x, n + 1⟩ (List.mem_append_right _ List.mem_cons_self)
  · exact List.mem_append_left _ (List.mem_reverse.mp hp)

theorem removed_cons (h : lower ≠ []) : Removed node node' (at' :: lower) ↔
    node' at'.block = separated node at' lower ∧ Removed node node' lower := by
  cases lower with
  | nil => exact absurd rfl h
  | cons below lower => exact Iff.rfl

theorem Removed.congr (hR : Removed node node' path)
    (h : ∀ p ∈ path, node'' p.block = node' p.block) : Removed node node'' path := by
  induction path with
  | nil => trivial
  | cons at' lower ih =>
      have hself := h at' List.mem_cons_self
      cases lower with
      | nil => exact hself.trans hR
      | cons below lower =>
          exact ⟨hself.trans hR.1, ih hR.2 fun p hp => h p (List.mem_cons_of_mem _ hp)⟩

theorem removeIndex_removed (hpos : ∀ p ∈ upper ++ [below], 0 < p.next)
    (hnodup : ((upper ++ [below]).map PathLevel.block).Nodup) :
    Removed node (removeIndex node (upper ++ [below]).reverse).1 (upper ++ [below]) := by
  induction upper with
  | nil =>
      obtain ⟨x, next⟩ := below
      obtain ⟨n, rfl⟩ := Nat.exists_eq_succ_of_ne_zero
        (Nat.pos_iff_ne_zero.mp (hpos ⟨x, next⟩ List.mem_cons_self))
      exact removeIndex_self fun p hp => nomatch hp
  | cons at' upper ih =>
      have hpos' : ∀ p ∈ upper ++ [below], 0 < p.next := fun p hp =>
        hpos p (List.mem_cons_of_mem _ hp)
      rw [List.cons_append, List.map_cons, List.nodup_cons] at hnodup
      have hself : ∀ p ∈ upper ++ [below], p.block ≠ at'.block := fun p hp heq =>
        hnodup.1 (List.mem_map.mpr ⟨p, hp, heq⟩)
      have hR := ih hpos' hnodup.2
      have hframe : (removeIndex node (upper ++ [below]).reverse).1 at'.block = node at'.block :=
        removeIndex_frame hpos' hself
      rw [removeIndex_cons hpos]
      refine (removed_cons (List.append_ne_nil_of_right_ne_nil _ (List.cons_ne_nil _ _))).mpr ?_
      rw [separated]
      cases rising node (upper ++ [below]) with
      | none => exact ⟨by rw [ite_self]; exact hframe, hR⟩
      | some sep =>
          dsimp only
          have hfirst : at'.next - 1 = 0 ↔ at'.next = 1 := by
            have := hpos at' List.mem_cons_self
            omega
          rw [setSeparator, if_congr hfirst rfl rfl]
          by_cases h1 : at'.next = 1
          · rw [if_pos h1, if_pos h1]
            exact ⟨hframe, hR⟩
          · rw [if_neg h1, if_neg h1, Function.update_self, hframe]
            exact ⟨rfl, hR.congr fun p hp => Function.update_of_ne (hself p hp) _ _⟩

end

section
variable {node node' : Nodes} {path lower : List PathLevel} {n m depth block child low next : ℕ}
  {e : IndexEntry}

/-! ## Down to a level -/

theorem blocksOf_sublist :
    (blocksOf node depth block).Sublist (blocksOf node (depth + m) block) := by
  induction depth generalizing block with
  | zero => cases m <;> exact List.singleton_sublist.mpr mem_blocksOf
  | succ depth ih =>
      rw [Nat.succ_add, blocksOf, blocksOf]
      exact (List.Sublist.flatMap_right _ fun e _ => ih).cons_cons block

theorem leafBlocks_sublist :
    (leafBlocks node depth block).Sublist (blocksOf node depth block) := by
  induction depth generalizing block with
  | zero => exact List.Sublist.refl _
  | succ depth ih => exact (List.Sublist.flatMap_right _ fun e _ => ih).cons block

theorem sized_upTo (hs : Sized node n (depth + m) block) : Sized node n depth block := by
  induction depth generalizing block with
  | zero => trivial
  | succ depth ih =>
      rw [Nat.succ_add] at hs
      exact ⟨hs.1, hs.2.1, fun e he => ih (hs.2.2 e he)⟩

theorem separators_sublist (hs : Sized node n (depth + m) block) (low : ℕ) :
    ((leaves node depth low block).map Prod.fst).Sublist
      ((leaves node (depth + m) low block).map Prod.fst) := by
  induction depth generalizing block low with
  | zero =>
      obtain ⟨b, rest, heq⟩ := leaves_ne_nil hs low
      rw [heq]
      exact List.singleton_sublist.mpr List.mem_cons_self
  | succ depth ih =>
      rw [Nat.succ_add] at hs ⊢
      rw [leaves, leaves, List.map_flatMap, List.map_flatMap]
      refine List.Sublist.flatMap_right _ fun e he => ?_
      obtain ⟨e', he', heq⟩ := keyed_mem he
      exact ih (heq ▸ hs.2.2 e' he') e.key

/-! ## One level -/

theorem separated_parts (hnext : 0 < next) (hentry : (node block)[next - 1]? = some e) :
    separated node ⟨block, next⟩ lower = (node block).take (next - 1) ++
      ⟨if next = 1 then e.key else (rising node lower).getD e.key, e.block⟩ ::
        (node block).drop next := by
  rw [separated]
  dsimp only
  by_cases h1 : next = 1
  · rw [if_pos h1, if_pos h1]
    exact split_at hnext hentry
  · rw [if_neg h1, if_neg h1]
    cases rising node lower with
    | none => exact split_at hnext hentry
    | some sep =>
        obtain ⟨hlt, heq⟩ := List.getElem?_eq_some_iff.mp hentry
        dsimp only [Option.getD_some]
        rw [List.modify_eq_take_cons_drop hlt, heq, Nat.sub_add_cancel hnext]

/-- The nodes that a level of the path leaves as they are. -/
theorem frame_level (hnodup : (blocksOf node (depth + 1 + m) block).Nodup) (hnext : 0 < next)
    (hentry : (node block)[next - 1]? = some e) (hpath : OnPath node depth e.block path child)
    (hother : ∀ y ∈ blocksOf node (depth + 1 + m) block,
      y ∉ (⟨block, next⟩ :: path).map PathLevel.block → node' y = node y) :
    (blocksOf node (depth + m) e.block).Nodup ∧
      (∀ y ∈ blocksOf node (depth + m) e.block, y ∉ path.map PathLevel.block →
        node' y = node y) ∧
      (∀ e' ∈ (node block).take (next - 1), ∀ y ∈ blocksOf node (depth + m) e'.block,
        node' y = node y) ∧
      ∀ e' ∈ (node block).drop next, ∀ y ∈ blocksOf node (depth + m) e'.block,
        node' y = node y := by
  rw [show depth + 1 + m = depth + m + 1 by omega] at hnodup hother
  obtain ⟨hself, hsub, -, hright, hleft⟩ := entry_apart hnodup hnext hentry
  have hpathsub : ∀ y ∈ path.map PathLevel.block, y ∈ blocksOf node (depth + m) e.block :=
    fun y hy => blocksOf_sublist.subset (hpath.blocks_sub y hy)
  have hout : ∀ y ∈ blocksOf node (depth + m + 1) block, y ≠ block →
      y ∉ path.map PathLevel.block → node' y = node y := fun y hy hne hout =>
    hother y hy fun hin => (List.mem_cons.mp hin).elim hne hout
  refine ⟨hsub, fun y hy hnot => ?_, fun e' he' y hy => ?_, fun e' he' y hy => ?_⟩
  · refine hout y (mem_child (List.mem_of_getElem? hentry) hy) ?_ hnot
    rintro rfl
    exact hself hy
  · obtain ⟨hne, hnot, -⟩ := hleft e' he' y hy
    exact hout y (mem_child (List.mem_of_mem_take he') hy) hne fun hin => hnot (hpathsub y hin)
  · obtain ⟨hne, hnot⟩ := hright e' he' y hy
    exact hout y (mem_child (List.mem_of_mem_drop he') hy) hne fun hin => hnot (hpathsub y hin)

/-- The children below a level of the path. -/
theorem leaves_separated (hnext : 0 < next) (hentry : (node block)[next - 1]? = some e)
    (hnode : node' block = separated node ⟨block, next⟩ lower)
    (hleft : ∀ e' ∈ (node block).take (next - 1), ∀ y ∈ blocksOf node depth e'.block,
      node' y = node y)
    (hright : ∀ e' ∈ (node block).drop next, ∀ y ∈ blocksOf node depth e'.block,
      node' y = node y) (low : ℕ) :
    leaves node' (depth + 1) low block =
      (keyed low ((node block).take (next - 1))).flatMap
          (fun e => leaves node depth e.key e.block) ++
        (leaves node' depth (if next = 1 then low else (rising node lower).getD e.key) e.block ++
          ((node block).drop next).flatMap fun e => leaves node depth e.key e.block) := by
  have hdrop : ((node block).drop next).flatMap (fun e => leaves node' depth e.key e.block) =
      ((node block).drop next).flatMap fun e => leaves node depth e.key e.block :=
    List.flatMap_congr fun e' he' => (subtree_congr (hright e' he')).2.1 e'.key
  rw [leaves, hnode, separated_parts hnext hentry, ← hdrop, ← leaves_congr hleft]
  by_cases h1 : next = 1
  · rw [if_pos h1, if_pos h1, h1]
    rfl
  · have hne : (node block).take (next - 1) ≠ [] := fun hnil => by
      obtain ⟨hlt, -⟩ := List.getElem?_eq_some_iff.mp hentry
      have hlen := congrArg List.length hnil
      rw [List.length_take, List.length_nil] at hlen
      omega
    rw [if_neg h1, if_neg h1, keyed_append hne, List.flatMap_append, List.flatMap_cons]

/-! ## The children -/

/-- In the last level the children are the entries. -/
theorem last_leaves (hnext : 0 < next)
    (hnode : node' block = (node block).eraseIdx (next - 1)) (hkeep : 1 < (node block).length) :
    (rising node [⟨block, next⟩] = none → ∀ low, leaves node' 1 low block =
        before node 1 [⟨block, next⟩] low ++ after node 1 [⟨block, next⟩]) ∧
      ∀ sep, rising node [⟨block, next⟩] = some sep → ∃ y rest,
        after node 1 [⟨block, next⟩] = (sep, y) :: rest ∧
        ∀ low, before node 1 [⟨block, next⟩] low = [] ∧
          leaves node' 1 low block = (low, y) :: rest := by
  simp only [rising, before, after, leaves, hnode, List.append_nil, List.nil_append]
  by_cases h1 : next = 1
  · subst h1
    obtain ⟨a, rest, hrest⟩ := List.exists_cons_of_length_pos (Nat.lt_of_succ_lt hkeep)
    rw [hrest, List.length_cons] at hkeep
    obtain ⟨b, es, rfl⟩ := List.exists_cons_of_length_pos (Nat.lt_of_succ_lt_succ hkeep)
    rw [hrest]
    refine ⟨fun hnone => (by cases hnone), fun sep hsep => ?_⟩
    rw [if_pos rfl, List.getElem?_cons_succ, List.getElem?_cons_zero, Option.map_some,
      Option.some_inj] at hsep
    subst hsep
    exact ⟨b.block, _, rfl, fun low => ⟨rfl, rfl⟩⟩
  · rw [if_neg h1]
    refine ⟨fun _ low => ?_, fun sep hsep => (by cases hsep)⟩
    rw [List.eraseIdx_eq_take_drop_succ, Nat.sub_add_cancel hnext, keyed_append, keyed_take,
      List.flatMap_append]
    intro hnil
    have hlen := congrArg List.length hnil
    rw [List.length_take, List.length_nil] at hlen
    omega

/-- The children after a removal, for a subtree that starts with `low`. -/
theorem Removed.leaves_eq (h : OnPath node depth block path child) (hR : Removed node node' path)
    (hne : path ≠ []) (hnodup : (blocksOf node depth block).Nodup)
    (hother : ∀ y ∈ blocksOf node depth block, y ∉ path.map PathLevel.block → node' y = node y)
    (hkeep : ∀ p ∈ path.getLast?, 1 < (node p.block).length) :
    (rising node path = none → ∀ low, leaves node' depth low block =
        before node depth path low ++ after node depth path) ∧
      ∀ sep, rising node path = some sep → ∃ y rest, after node depth path = (sep, y) :: rest ∧
        ∀ low, before node depth path low = [] ∧
          leaves node' depth low block = (low, y) :: rest := by
  induction h with
  | leaf block => exact absurd rfl hne
  | @level depth block next e path child hnext hentry h ih =>
      obtain ⟨hsub, hbelow, hleft, hright⟩ :=
        @frame_level node node' path 0 depth block child next e hnodup hnext hentry h hother
      cases path with
      | nil =>
          cases h
          exact last_leaves hnext hR (hkeep _ rfl)
      | cons below lower =>
          obtain ⟨hnode, hR⟩ := hR
          have hstep := @leaves_separated node node' (below :: lower) depth block next e hnext
            hentry hnode hleft hright
          obtain ⟨hnone, hsome⟩ := ih hR (List.cons_ne_nil _ _) hsub hbelow hkeep
          rw [rising_cons]
          dsimp only
          by_cases h1 : next = 1
          · subst h1
            simp only [if_true, Nat.sub_self, List.take_zero, keyed, List.flatMap_nil,
              List.nil_append] at hstep
            simp only [if_true, before, after, Nat.sub_self, List.take_zero, List.flatMap_nil,
              List.nil_append]
            refine ⟨fun hrising low => ?_, fun sep hrising => ?_⟩
            · rw [hstep, hnone hrising, List.append_assoc]
            · obtain ⟨y, rest, hafter, hall⟩ := hsome sep hrising
              refine ⟨y, rest ++ ((node block).drop 1).flatMap
                (fun e => leaves node depth e.key e.block), by rw [hafter]; rfl, fun low => ?_⟩
              rw [hstep, (hall low).2]
              exact ⟨(hall low).1, rfl⟩
          · simp only [if_neg h1, reduceCtorEq, false_implies, implies_true, and_true, true_implies]
            intro low
            rw [hstep, before, after, if_neg h1, keyed_take, hentry]
            dsimp only [Option.map_some, Option.getD_some]
            rw [if_neg h1]
            cases hrising : rising node (below :: lower) with
            | none =>
                rw [Option.getD_none, hnone hrising]
                simp only [List.append_assoc]
            | some sep =>
                obtain ⟨y, rest, hafter, hall⟩ := hsome sep hrising
                rw [Option.getD_some, (hall sep).2, (hall e.key).1, hafter, List.append_nil]

end

section
variable {b a rest : List (ℕ × ℕ)} {c k l q sep y : ℕ}

/-! ## Routing -/

/-- The child of a key: the last one whose separator is not above it. -/
def routed (q : ℕ) (children : List (ℕ × ℕ)) : Option ℕ :=
  (children.filter fun x => x.1 ≤ q).getLast?.map Prod.snd

theorem routed_append_left (h : a.filter (fun x => x.1 ≤ q) = []) :
    routed q (b ++ a) = routed q b := by
  rw [routed, List.filter_append, h, List.append_nil, routed]

theorem routed_append_right (h : a.filter (fun x => x.1 ≤ q) ≠ []) :
    routed q (b ++ a) = routed q a := by
  rw [routed, List.filter_append, List.getLast?_append_of_ne_nil _ h, routed]

theorem routed_cons (h : k ≤ q) : routed q ((k, c) :: a) = if a.filter (fun x => x.1 ≤ q) = [] then
    some c else routed q a := by
  rw [routed, List.filter_cons_of_pos (by simpa using h)]
  by_cases hnil : a.filter (fun x => x.1 ≤ q) = []
  · rw [if_pos hnil, hnil]
    rfl
  · rw [if_neg hnil, List.getLast?_cons_of_ne_nil hnil, routed]

theorem routed_other (h : routed q (b ++ (k, c) :: a) ≠ some c) :
    routed q (b ++ a) = routed q (b ++ (k, c) :: a) := by
  by_cases hnil : a.filter (fun x => x.1 ≤ q) = []
  · rw [routed_append_left hnil]
    by_cases hk : k ≤ q
    · refine absurd ?_ h
      rw [routed_append_right (by rw [List.filter_cons_of_pos (by simpa using hk)]; simp),
        routed_cons hk, if_pos hnil]
    · rw [routed_append_left (by rw [List.filter_cons_of_neg (by simpa using hk), hnil])]
  · rw [routed_append_right hnil, List.append_cons, routed_append_right hnil]

theorem routed_first (hk : k ≤ q) (h : routed q ((k, c) :: (sep, y) :: rest) ≠ some c) :
    routed q ((k, y) :: rest) = routed q ((k, c) :: (sep, y) :: rest) := by
  rw [routed_cons hk] at h ⊢
  rw [routed_cons hk]
  by_cases hsep : sep ≤ q
  · rw [List.filter_cons_of_pos (by simpa using hsep), if_neg (List.cons_ne_nil _ _),
      routed_cons hsep]
  · rw [List.filter_cons_of_neg (by simpa using hsep)] at h ⊢
    by_cases hnil : rest.filter (fun x => x.1 ≤ q) = []
    · exact absurd (if_pos hnil) h
    · rw [if_neg hnil, if_neg hnil, ← List.singleton_append, routed_append_right hnil]

theorem routed_mem (h : routed q a = some c) : ∃ k, (k, c) ∈ a ∧ k ≤ q := by
  obtain ⟨⟨k, d⟩, hlast, rfl⟩ := Option.map_eq_some_iff.mp h
  obtain ⟨hmem, hk⟩ := List.mem_filter.mp (List.mem_of_getLast? hlast)
  exact ⟨k, hmem, by simpa using hk⟩

/-- The keys of the removed child go to the child left of it. -/
theorem routed_left (hsorted : ((b ++ (k, c) :: a).map Prod.fst).Pairwise (· ≤ ·))
    (hnodup : ((b ++ (k, c) :: a).map Prod.snd).Nodup)
    (hlast : (b.map Prod.snd).getLast? = some l) (h : routed q (b ++ (k, c) :: a) = some c) :
    routed q (b ++ a) = some l := by
  rw [List.map_append, List.map_cons, List.nodup_append] at hnodup
  obtain ⟨-, hright, hleft⟩ := hnodup
  have hnil : a.filter (fun x => x.1 ≤ q) = [] := by
    by_contra hne
    rw [List.append_cons, routed_append_right hne] at h
    obtain ⟨k', hmem, -⟩ := routed_mem h
    exact (List.nodup_cons.mp hright).1 (List.mem_map.mpr ⟨_, hmem, rfl⟩)
  have hk : k ≤ q := by
    by_contra hk
    rw [routed_append_left (by rw [List.filter_cons_of_neg (by simpa using hk), hnil])] at h
    obtain ⟨k', hmem, -⟩ := routed_mem h
    exact hleft _ (List.mem_map.mpr ⟨_, hmem, rfl⟩) c List.mem_cons_self rfl
  have hb : b.filter (fun x => x.1 ≤ q) = b := by
    refine List.filter_eq_self.mpr fun x hx => ?_
    rw [List.map_append, List.pairwise_append] at hsorted
    have hle := hsorted.2.2 x.1 (List.mem_map.mpr ⟨x, hx, rfl⟩) k List.mem_cons_self
    simpa using Nat.le_trans hle hk
  rw [routed_append_left hnil, routed, hb, ← List.getLast?_map, hlast]

end

section
variable {node node' : Nodes} {path lower : List PathLevel} {at' below : PathLevel}
  {n m depth block child key next sep : ℕ} {e : IndexEntry}

/-! ## The order of the keys -/

theorem sized_path (hs : Sized node n depth block) :
    ∃ path leaf, OnPath node depth block path leaf := by
  induction depth generalizing block with
  | zero => exact ⟨[], block, OnPath.leaf block⟩
  | succ depth ih =>
      obtain ⟨e, es, hes⟩ := List.exists_cons_of_ne_nil hs.1
      obtain ⟨path, leaf, hpath⟩ := ih (hs.2.2 e (hes ▸ List.mem_cons_self))
      exact ⟨⟨block, 1⟩ :: path, leaf, OnPath.level Nat.one_pos (by rw [hes]; rfl) hpath⟩

/-- `cursor_check` passes on every path when its assertion holds of every entry. -/
theorem check_iff (hs : Sized node n depth block) :
    (∀ path leaf, OnPath node depth block path leaf → checkFrom node key block path leaf = true) ↔
      Checked node depth key block := by
  induction depth generalizing block key with
  | zero =>
      refine iff_of_true (fun path leaf h => ?_) trivial
      cases h
      exact beq_self_eq_true block
  | succ depth ih =>
      constructor
      · intro h e he
        obtain ⟨i, hlt, rfl⟩ := List.mem_iff_getElem.mp he
        have hentry : (node block)[i + 1 - 1]? = some (node block)[i] := by
          rw [Nat.add_sub_cancel, List.getElem?_eq_getElem hlt]
        have hbelow : ∀ path leaf, OnPath node depth (node block)[i].block path leaf →
            key ≤ (node block)[i].key ∧
              checkFrom node (node block)[i].key (node block)[i].block path leaf = true := by
          intro path leaf hpath
          have hcheck := h _ _ (OnPath.level (Nat.succ_pos i) hentry hpath)
          rw [checkFrom, hentry] at hcheck
          simp only [Bool.and_eq_true, decide_eq_true_eq] at hcheck
          exact hcheck.2
        obtain ⟨path, leaf, hpath⟩ := sized_path (hs.2.2 _ he)
        exact ⟨(hbelow path leaf hpath).1, (ih (hs.2.2 _ he)).mp fun path leaf hpath =>
          (hbelow path leaf hpath).2⟩
      · intro h path leaf hpath
        cases hpath with
        | level hnext hentry hpath =>
            have hlt := (List.getElem?_eq_some_iff.mp hentry).1
            have he := List.mem_of_getElem? hentry
            rw [checkFrom, hentry]
            simp only [Bool.and_eq_true, decide_eq_true_eq, beq_self_eq_true, true_and]
            exact ⟨⟨hnext, by omega⟩, (h _ he).1, (ih (hs.2.2 _ he)).mpr (h _ he).2 _ _ hpath⟩

theorem checked_of_inOrder (h : KeysInOrder node depth key block) :
    Checked node depth key block := by
  induction depth generalizing key block with
  | zero => trivial
  | succ depth ih => exact fun e he => ⟨h.le he, ih (h.2.2 e he)⟩

theorem checked_congr (h : ∀ y ∈ blocksOf node depth block, node' y = node y) :
    Checked node' depth key block ↔ Checked node depth key block := by
  induction depth generalizing key block with
  | zero => exact Iff.rfl
  | succ depth ih =>
      rw [Checked, Checked, h block List.mem_cons_self]
      exact forall₂_congr fun e he =>
        and_congr_right fun _ => ih fun y hy => h y (mem_child he hy)

theorem rising_le (h : OnPath node depth block path child)
    (hkeys : KeysInOrder node (depth + m) key block) (hsep : rising node path = some sep) :
    key ≤ sep := by
  induction h generalizing key with
  | leaf block => cases hsep
  | @level depth block next e path child hnext hentry h ih =>
      rw [show depth + 1 + m = depth + m + 1 by omega] at hkeys
      cases path with
      | nil =>
          rw [rising] at hsep
          split at hsep
          · obtain ⟨second, hsecond, rfl⟩ := Option.map_eq_some_iff.mp hsep
            exact hkeys.le (List.mem_of_getElem? hsecond)
          · cases hsep
      | cons below lower =>
          have he := List.mem_of_getElem? hentry
          rw [rising_cons] at hsep
          split at hsep
          · exact Nat.le_trans (hkeys.le he) (ih (hkeys.2.2 e he) hsep)
          · cases hsep

theorem arrived_le (h : OnPath node depth e.block path child)
    (hkeys : KeysInOrder node (depth + m) e.key e.block) :
    e.key ≤ if next = 1 then e.key else (rising node path).getD e.key := by
  split
  · exact Nat.le_refl _
  · cases hsep : rising node path with
    | none => exact Nat.le_refl _
    | some sep => exact rising_le h hkeys hsep

theorem separated_head (hnext : 0 < at'.next) :
    (separated node at' lower).head? = (node at'.block).head? := by
  rw [separated]
  split
  · rfl
  · split
    · rfl
    · rw [List.head?_eq_getElem?, List.head?_eq_getElem?, List.getElem?_modify_ne _ _ (by omega)]

theorem Removed.head_mem (h : OnPath node depth block path child) (hR : Removed node node' path)
    (hne : path ≠ []) {f : IndexEntry} (hf : f ∈ (node' block).head?) : f ∈ node block := by
  cases h with
  | leaf => exact absurd rfl hne
  | @level depth block next e path child hnext hentry h =>
      cases path with
      | nil =>
          rw [hR] at hf
          exact List.mem_of_mem_eraseIdx (List.mem_of_mem_head? hf)
      | cons below lower =>
          rw [hR.1, separated_head hnext] at hf
          exact List.mem_of_mem_head? hf

theorem Removed.last_head (hR : Removed node node' [at']) (hsep : rising node [at'] = some sep)
    {f : IndexEntry} (hf : f ∈ (node' at'.block).head?) : f.key = sep := by
  rw [rising] at hsep
  split at hsep
  case isFalse => cases hsep
  case isTrue h1 =>
    obtain ⟨second, hsecond, rfl⟩ := Option.map_eq_some_iff.mp hsep
    rw [hR, h1, Nat.sub_self, List.head?_eq_getElem?,
      List.getElem?_eraseIdx_of_ge (Nat.le_refl 0), hsecond] at hf
    exact congrArg IndexEntry.key (Option.some_inj.mp hf).symm

/-- When the first entry below is not under its separator. -/
theorem Removed.head_iff (h : OnPath node depth e.block (below :: lower) child)
    (hR : Removed node node' (below :: lower))
    (hkeys : KeysInOrder node (depth + m) e.key e.block) :
    (∀ f ∈ (node' e.block).head?,
        (if next = 1 then e.key else (rising node (below :: lower)).getD e.key) ≤ f.key) ↔
      (next ≠ 1 → lower ≠ [] → ∀ sep ∈ rising node (below :: lower),
        ∀ first ∈ (node below.block).head?, sep ≤ first.key) := by
  have hold : ∀ f ∈ (node' e.block).head?, e.key ≤ f.key := by
    intro f hf
    have hmem := hR.head_mem h (List.cons_ne_nil _ _) hf
    cases h with
    | level => exact KeysInOrder.le (by rwa [Nat.add_right_comm] at hkeys) hmem
  obtain ⟨hblock, hpos⟩ : e.block = below.block ∧ 0 < below.next := by
    cases h with
    | level hnext => exact ⟨rfl, hnext⟩
  by_cases h1 : next = 1
  · rw [if_pos h1]
    exact iff_of_true hold fun h2 => absurd h1 h2
  · rw [if_neg h1, hblock]
    cases hsep : rising node (below :: lower) with
    | none =>
        rw [hblock] at hold
        exact iff_of_true hold fun _ _ sep h => nomatch h
    | some sep =>
        rw [Option.getD_some]
        cases lower with
        | nil =>
            exact iff_of_true (fun f hf => Nat.le_of_eq (hR.last_head hsep hf).symm)
              fun _ h2 => absurd rfl h2
        | cons low lower =>
            rw [hR.1, separated_head hpos]
            constructor
            · intro hle _ _ sep' hsep' first hfirst
              cases hsep'
              exact hle first hfirst
            · exact fun hle f hf => hle h1 (List.cons_ne_nil _ _) sep rfl f hf

theorem head_key_le {es : List IndexEntry} (hsorted : (es.map IndexEntry.key).Pairwise (· ≤ ·))
    {f x : IndexEntry} (hf : f ∈ es.head?) (hx : x ∈ es) : f.key ≤ x.key := by
  cases es with
  | nil => cases hx
  | cons a es =>
      cases hf
      rcases List.mem_cons.mp hx with rfl | hx
      · exact Nat.le_refl _
      · exact (List.pairwise_cons.mp hsorted).1 _ (List.mem_map.mpr ⟨x, hx, rfl⟩)

theorem checked_parts {l r : List IndexEntry} (hes : node' block = l ++ e :: r)
    (hhead : ∀ f ∈ (node' block).head?, ∀ x ∈ node' block, f.key ≤ x.key)
    (hleft : ∀ x ∈ l, Checked node' depth x.key x.block)
    (hright : ∀ x ∈ r, Checked node' depth x.key x.block) :
    Checked node' (depth + 1) key block ↔
      (∀ f ∈ (node' block).head?, key ≤ f.key) ∧ Checked node' depth e.key e.block := by
  have he : e ∈ node' block := hes ▸ List.mem_append_right l List.mem_cons_self
  constructor
  · exact fun h => ⟨fun f hf => (h f (List.mem_of_mem_head? hf)).1, (h e he).2⟩
  · rintro ⟨hkey, hmid⟩ x hx
    obtain ⟨a, as, has⟩ := List.exists_cons_of_ne_nil (List.ne_nil_of_mem hx)
    have ha : a ∈ (node' block).head? := by
      rw [has]
      rfl
    refine ⟨Nat.le_trans (hkey a ha) (hhead a ha x hx), ?_⟩
    rw [hes, List.mem_append, List.mem_cons] at hx
    rcases hx with hx | rfl | hx
    · exact hleft x hx
    · exact hmid
    · exact hright x hx

/-- Where the keys are in order after a removal, in a subtree under a separator. -/
theorem Removed.checked_iff (h : OnPath node depth block path child)
    (hR : Removed node node' path) (hne : path ≠ [])
    (hnodup : (blocksOf node (depth + m) block).Nodup)
    (hother : ∀ y ∈ blocksOf node (depth + m) block, y ∉ path.map PathLevel.block →
      node' y = node y)
    (hkeys : KeysInOrder node (depth + m) key block) (low : ℕ) :
    Checked node' (depth + m) low block ↔
      (∀ f ∈ (node' block).head?, low ≤ f.key) ∧ Covered node path := by
  induction h generalizing key low with
  | leaf block => exact absurd rfl hne
  | @level depth block next e path child hnext hentry h ih =>
      obtain ⟨hsub, hbelow, hleft, hright⟩ := frame_level hnodup hnext hentry h hother
      rw [show depth + 1 + m = depth + m + 1 by omega] at hkeys ⊢
      have he := List.mem_of_getElem? hentry
      have hleft' : ∀ x ∈ (node block).take (next - 1), Checked node' (depth + m) x.key x.block :=
        fun x hx => (checked_congr (hleft x hx)).mpr
          (checked_of_inOrder (hkeys.2.2 x (List.mem_of_mem_take hx)))
      have hright' : ∀ x ∈ (node block).drop next, Checked node' (depth + m) x.key x.block :=
        fun x hx => (checked_congr (hright x hx)).mpr
          (checked_of_inOrder (hkeys.2.2 x (List.mem_of_mem_drop hx)))
      cases path with
      | nil =>
          have herase : node' block = (node block).eraseIdx (next - 1) := hR
          refine ⟨fun hall => ⟨fun f hf => (hall f (List.mem_of_mem_head? hf)).1, trivial⟩, ?_⟩
          rintro ⟨hkey, -⟩ x hx
          obtain ⟨a, as, has⟩ := List.exists_cons_of_ne_nil (List.ne_nil_of_mem hx)
          have ha : a ∈ (node' block).head? := by
            rw [has]
            rfl
          have hsorted : ((node' block).map IndexEntry.key).Pairwise (· ≤ ·) :=
            herase ▸ hkeys.1.sublist ((List.eraseIdx_sublist _ _).map _)
          refine ⟨Nat.le_trans (hkey a ha) (head_key_le hsorted ha hx), ?_⟩
          rw [herase, List.eraseIdx_eq_take_drop_succ, Nat.sub_add_cancel hnext,
            List.mem_append] at hx
          exact hx.elim (hleft' x) (hright' x)
      | cons below lower =>
          obtain ⟨hnode, hR⟩ := hR
          have hparts := hnode.trans (separated_parts hnext hentry)
          have hhead : ∀ f ∈ (node' block).head?, ∀ x ∈ node' block, f.key ≤ x.key := by
            intro f hf x hx
            rw [hnode, separated_head hnext] at hf
            rw [hparts, List.mem_append, List.mem_cons] at hx
            rcases hx with hx | rfl | hx
            · exact head_key_le hkeys.1 hf (List.mem_of_mem_take hx)
            · exact Nat.le_trans (head_key_le hkeys.1 hf he)
                (arrived_le h (hkeys.2.2 e he))
            · exact head_key_le hkeys.1 hf (List.mem_of_mem_drop hx)
          rw [checked_parts hparts hhead hleft' hright',
            ih hR (List.cons_ne_nil _ _) hsub hbelow (hkeys.2.2 e he),
            hR.head_iff h (hkeys.2.2 e he)]
          exact Iff.rfl

/-- No node gets empty or too large. -/
theorem Removed.sized (h : OnPath node depth block path child) (hR : Removed node node' path)
    (hne : path ≠ []) (hnodup : (blocksOf node (depth + m) block).Nodup)
    (hother : ∀ y ∈ blocksOf node (depth + m) block, y ∉ path.map PathLevel.block →
      node' y = node y)
    (hkeep : ∀ p ∈ path.getLast?, 1 < (node p.block).length)
    (hs : Sized node n (depth + m) block) : Sized node' n (depth + m) block := by
  induction h with
  | leaf block => exact absurd rfl hne
  | @level depth block next e path child hnext hentry h ih =>
      obtain ⟨hsub, hbelow, hleft, hright⟩ := frame_level hnodup hnext hentry h hother
      rw [show depth + 1 + m = depth + m + 1 by omega] at hs ⊢
      obtain ⟨-, hroom, hsized⟩ := hs
      obtain ⟨hlt, -⟩ := List.getElem?_eq_some_iff.mp hentry
      have hleft' : ∀ x ∈ (node block).take (next - 1), Sized node' n (depth + m) x.block :=
        fun x hx => ((subtree_congr (hleft x hx)).2.2 n).mpr
          (hsized x (List.mem_of_mem_take hx))
      have hright' : ∀ x ∈ (node block).drop next, Sized node' n (depth + m) x.block :=
        fun x hx => ((subtree_congr (hright x hx)).2.2 n).mpr
          (hsized x (List.mem_of_mem_drop hx))
      cases path with
      | nil =>
          have herase : node' block = (node block).eraseIdx (next - 1) := hR
          have hlen : (node' block).length = (node block).length - 1 := by
            rw [herase, List.length_eraseIdx_of_lt hlt]
          have htwo : 1 < (node block).length := hkeep _ rfl
          refine ⟨List.ne_nil_of_length_pos (by omega), by omega, fun x hx => ?_⟩
          rw [herase, List.eraseIdx_eq_take_drop_succ, Nat.sub_add_cancel hnext,
            List.mem_append] at hx
          exact hx.elim (hleft' x) (hright' x)
      | cons below lower =>
          obtain ⟨hnode, hR⟩ := hR
          have hparts := hnode.trans (separated_parts hnext hentry)
          have hlen : (node' block).length = (node block).length := by
            rw [hparts, List.length_append, List.length_cons, List.length_take, List.length_drop]
            omega
          have hmid := ih hR (List.cons_ne_nil _ _) hsub hbelow hkeep
            (hsized e (List.mem_of_getElem? hentry))
          refine ⟨List.ne_nil_of_length_pos (by omega), by omega, fun x hx => ?_⟩
          rw [hparts, List.mem_append, List.mem_cons] at hx
          rcases hx with hx | rfl | hx
          · exact hleft' x hx
          · exact hmid
          · exact hright' x hx

end

/-! ## The tree after a removal -/

/-- The tree down to a level, with the blocks of this level as its leaves. -/
def upTo (t : Tree) (level : ℕ) : Tree := { t with depth := level }

/-- `remove_index` at the last level of a path, root first. -/
def withoutIndex (t : Tree) (path : List PathLevel) : Tree :=
  { t with node := (removeIndex t.node path.reverse).1 }

/-- What a removal has to leave: the keys go to the same children, those of the removed child to the
one left of it, and every path passes `cursor_check`. -/
structure Repaired (t t' : Tree) (level child : ℕ) : Prop where
  outside : ∀ q, (upTo t level).reached q ≠ some child →
    (upTo t' level).reached q = (upTo t level).reached q
  inside : ∀ q l b a, leafBlocks t.node level t.root = b ++ l :: child :: a →
    (upTo t level).reached q = some child → (upTo t' level).reached q = some l
  check : ∀ cursor, OnPath t'.node t'.depth t'.root cursor.path cursor.leaf →
    cursorCheck t' cursor = true

section
variable {t : Tree} {n level child : ℕ} {upper : List PathLevel} {last : PathLevel}

theorem path_blocks_nodup {node : Nodes} {depth block leaf : ℕ} {path : List PathLevel}
    (h : OnPath node depth block path leaf) (hnodup : (blocksOf node depth block).Nodup) :
    (path.map PathLevel.block).Nodup ∧ ∀ p ∈ path, 0 < p.next := by
  induction h with
  | leaf block => exact ⟨List.nodup_nil, fun p hp => nomatch hp⟩
  | @level depth block next e path leaf hnext hentry h ih =>
      obtain ⟨hself, hsub, -⟩ := entry_apart hnodup hnext hentry
      obtain ⟨hpath, hpos⟩ := ih hsub
      refine ⟨List.nodup_cons.mpr ⟨fun hin => hself (h.blocks_sub block hin), hpath⟩,
        fun p hp => ?_⟩
      rcases List.mem_cons.mp hp with rfl | hp
      · exact hnext
      · exact hpos p hp

/-- The conditions under which an entry is removed. -/
structure Removable (t : Tree) (n level : ℕ) (upper : List PathLevel) (last : PathLevel)
    (child : ℕ) : Prop where
  wellFormed : t.WellFormed n
  inOrder : KeysInOrder t.node t.depth 0 t.root
  level_le : level ≤ t.depth
  onPath : OnPath t.node level t.root (upper ++ [last]) child
  keep : 1 < (t.node last.block).length

theorem Removable.nodup (h : Removable t n level upper last child) :
    (blocksOf t.node level t.root).Nodup := by
  have hfull := h.wellFormed.nodup
  rw [← Nat.add_sub_cancel' h.level_le] at hfull
  exact hfull.sublist blocksOf_sublist

theorem Removable.sized (h : Removable t n level upper last child) :
    Sized t.node n level t.root := by
  have hfull := h.wellFormed.sized
  rw [← Nat.add_sub_cancel' h.level_le] at hfull
  exact sized_upTo hfull

theorem Removable.sorted (h : Removable t n level upper last child) :
    ((leaves t.node level 0 t.root).map Prod.fst).Pairwise (· ≤ ·) := by
  have hfull := h.wellFormed.sized
  have hsorted := h.wellFormed.sorted
  rw [← Nat.add_sub_cancel' h.level_le] at hfull hsorted
  exact hsorted.sublist (separators_sublist hfull 0)

theorem Removable.removed (h : Removable t n level upper last child) :
    Removed t.node (withoutIndex t (upper ++ [last])).node (upper ++ [last]) ∧
      ∀ y, y ∉ (upper ++ [last]).map PathLevel.block →
        (withoutIndex t (upper ++ [last])).node y = t.node y := by
  obtain ⟨hblocks, hpos⟩ := path_blocks_nodup h.onPath h.nodup
  refine ⟨removeIndex_removed hpos hblocks, fun y hy => removeIndex_frame hpos ?_⟩
  rintro p hp rfl
  exact hy (List.mem_map_of_mem hp)

theorem path_ne_nil : upper ++ [last] ≠ [] :=
  List.append_ne_nil_of_right_ne_nil _ (List.cons_ne_nil _ _)

theorem Removable.keep_last (h : Removable t n level upper last child) :
    ∀ p ∈ (upper ++ [last]).getLast?, 1 < (t.node p.block).length := by
  intro p hp
  rw [List.getLast?_append_of_ne_nil _ (List.cons_ne_nil _ _)] at hp
  cases hp
  exact h.keep

theorem Removable.sized_after (h : Removable t n level upper last child) {m : ℕ}
    (hm : level + m ≤ t.depth) :
    Sized (withoutIndex t (upper ++ [last])).node n (level + m) t.root := by
  obtain ⟨hR, hother⟩ := h.removed
  have hs := h.wellFormed.sized
  have hnodup := h.wellFormed.nodup
  rw [← Nat.add_sub_cancel' hm] at hs hnodup
  exact hR.sized h.onPath path_ne_nil (hnodup.sublist blocksOf_sublist)
    (fun y _ hy => hother y hy) h.keep_last (sized_upTo hs)

theorem Removable.children (h : Removable t n level upper last child) :
    ∃ b k a, leaves t.node level 0 t.root = b ++ (k, child) :: a ∧
      (leaves (withoutIndex t (upper ++ [last])).node level 0 t.root = b ++ a ∨
        ∃ sep y rest, b = [] ∧ k = 0 ∧ a = (sep, y) :: rest ∧
          leaves (withoutIndex t (upper ++ [last])).node level 0 t.root =
            (0, y) :: rest) := by
  obtain ⟨hR, hother⟩ := h.removed
  obtain ⟨hnone, hsome⟩ := hR.leaves_eq h.onPath path_ne_nil h.nodup (fun y _ hy => hother y hy)
    h.keep_last
  have hchildren := leaves_path h.onPath 0
  refine ⟨_, _, _, hchildren, ?_⟩
  cases hsep : rising t.node (upper ++ [last]) with
  | none => exact .inl (hnone hsep 0)
  | some sep =>
      obtain ⟨y, rest, hafter, hall⟩ := hsome sep hsep
      obtain ⟨c, tail, hfirst⟩ := leaves_ne_nil h.sized 0
      refine .inr ⟨sep, y, rest, (hall 0).1, ?_, hafter, (hall 0).2⟩
      rw [(hall 0).1, List.nil_append, hfirst] at hchildren
      exact (congrArg Prod.fst (List.cons.inj hchildren).1).symm

theorem Removable.sorted_after (h : Removable t n level upper last child) :
    ((leaves (withoutIndex t (upper ++ [last])).node level 0 t.root).map Prod.fst).Pairwise
      (· ≤ ·) := by
  obtain ⟨b, k, a, hchildren, hafter | ⟨sep, y, rest, rfl, rfl, rfl, hafter⟩⟩ := h.children
  · rw [hafter]
    refine h.sorted.sublist (List.Sublist.map _ ?_)
    rw [hchildren]
    exact (List.sublist_cons_self _ a).append_left b
  · have hsorted := h.sorted
    rw [hchildren, List.nil_append] at hsorted
    rw [hafter]
    simp only [List.map_cons, List.pairwise_cons] at hsorted ⊢
    exact ⟨fun x _ => Nat.zero_le x, hsorted.2.2⟩

theorem Removable.reached_before (h : Removable t n level upper last child) (q : ℕ) :
    (upTo t level).reached q = routed q (leaves t.node level 0 t.root) :=
  probe_leaf h.sized h.sorted (Nat.zero_le q)

theorem Removable.reached_after (h : Removable t n level upper last child) (q : ℕ) :
    (upTo (withoutIndex t (upper ++ [last])) level).reached q =
      routed q (leaves (withoutIndex t (upper ++ [last])).node level 0 t.root) :=
  probe_leaf (@Removable.sized_after t n level child upper last h 0 h.level_le) h.sorted_after
    (Nat.zero_le q)

theorem Removable.outside (h : Removable t n level upper last child) (q : ℕ)
    (hq : (upTo t level).reached q ≠ some child) :
    (upTo (withoutIndex t (upper ++ [last])) level).reached q = (upTo t level).reached q := by
  rw [h.reached_before] at hq
  rw [h.reached_before, h.reached_after]
  obtain ⟨b, k, a, hchildren, heq | ⟨sep, y, rest, rfl, rfl, rfl, heq⟩⟩ := h.children
  · rw [hchildren] at hq ⊢
    rw [heq]
    exact routed_other hq
  · rw [hchildren, List.nil_append] at hq ⊢
    rw [heq]
    exact routed_first (Nat.zero_le q) hq

theorem Removable.inside (h : Removable t n level upper last child) (q : ℕ) {l : ℕ}
    {left right : List ℕ} (hchild : leafBlocks t.node level t.root = left ++ l :: child :: right)
    (hq : (upTo t level).reached q = some child) :
    (upTo (withoutIndex t (upper ++ [last])) level).reached q = some l := by
  have hnodup : ((leaves t.node level 0 t.root).map Prod.snd).Nodup := by
    rw [leaves_leafBlocks]
    exact h.nodup.sublist leafBlocks_sublist
  rw [← leaves_leafBlocks 0] at hchild
  rw [h.reached_before] at hq
  rw [h.reached_after]
  obtain ⟨b, k, a, hchildren, hafter⟩ := h.children
  have hsorted := h.sorted
  rw [hchildren] at hq hchild hnodup hsorted
  have hleft : b.map Prod.snd = left ++ [l] := by
    rw [List.map_append, List.map_cons] at hchild hnodup
    obtain ⟨-, hright, hapart⟩ := List.nodup_append.mp hnodup
    rw [List.append_cons left l] at hchild
    exact ((List.append_cons_inj_of_notMem
      (fun hin => hapart _ hin child List.mem_cons_self rfl) (List.nodup_cons.mp hright).1).mp
        hchild).1
  have hlast : (b.map Prod.snd).getLast? = some l := by
    rw [hleft, List.getLast?_concat]
  rcases hafter with hafter | ⟨sep, y, rest, rfl, -⟩
  · rw [hafter]
    exact routed_left hsorted hnodup hlast hq
  · cases hlast

/-- A removal repairs the separators exactly when the first entry below the one that is changed is
not under the new key. -/
theorem removeIndex_repairs (h : Removable t n level upper last child) :
    Repaired t (withoutIndex t (upper ++ [last])) level child ↔
      Covered t.node (upper ++ [last]) := by
  obtain ⟨hR, hother⟩ := h.removed
  have hdepth := Nat.add_sub_cancel' h.level_le
  have hs := @Removable.sized_after t n level child upper last h (t.depth - level) (by omega)
  have hnodup := h.wellFormed.nodup
  have hkeys := h.inOrder
  rw [← hdepth] at hnodup hkeys
  have hchecked := (hR.checked_iff h.onPath path_ne_nil hnodup (fun y _ hy => hother y hy) hkeys
    0).trans (and_iff_right fun f _ => Nat.zero_le f.key)
  rw [← hchecked, ← check_iff hs, hdepth]
  constructor
  · exact fun hall path leaf hpath => hall.check ⟨path, leaf⟩ hpath
  · exact fun hall => ⟨h.outside, fun q l b a => h.inside q,
      fun cursor => hall cursor.path cursor.leaf⟩

theorem removeIndex_repairs_parent : ∃ t : Tree,
    t.node 1 = [⟨0, 2⟩, ⟨10, 3⟩] ∧ t.node 3 = [⟨10, 22⟩, ⟨15, 23⟩] ∧
      Repaired t (withoutIndex t [⟨1, 2⟩, ⟨3, 1⟩]) 2 22 := by
  refine ⟨⟨fun b => match b with
    | 1 => [⟨0, 2⟩, ⟨10, 3⟩]
    | 2 => [⟨0, 20⟩, ⟨5, 21⟩]
    | 3 => [⟨10, 22⟩, ⟨15, 23⟩]
    | _ => [], 1, 2⟩, rfl, rfl, ?_⟩
  refine (@removeIndex_repairs _ 2 2 22 [⟨1, 2⟩] ⟨3, 1⟩ ?_).mpr ?_
  · refine ⟨⟨by simp [Sized], by decide, by decide⟩, by simp [KeysInOrder], by decide, ?_,
      by decide⟩
    exact .level (by decide) rfl (.level (by decide) rfl (.leaf 22))
  · simp [Covered]

/-- The first leaf goes from a node that is the first of its parent: the root takes the new key, and
the node below still starts with the old one. -/
theorem removeIndex_stale : ∃ (t : Tree) (n level : ℕ) (upper : List PathLevel) (last : PathLevel)
    (child : ℕ), Removable t n level upper last child ∧
      ¬ Repaired t (withoutIndex t (upper ++ [last])) level child := by
  refine ⟨⟨fun b => match b with
    | 1 => [⟨0, 2⟩, ⟨10, 3⟩]
    | 2 => [⟨0, 4⟩]
    | 3 => [⟨10, 5⟩, ⟨20, 6⟩]
    | 4 => [⟨0, 20⟩]
    | 5 => [⟨10, 21⟩, ⟨15, 22⟩]
    | 6 => [⟨20, 23⟩]
    | _ => [], 1, 3⟩, 2, 3, [⟨1, 2⟩, ⟨3, 1⟩], ⟨5, 1⟩, 21, ?_, fun h => ?_⟩
  · refine ⟨⟨by simp [Sized], by decide, by decide⟩, by simp [KeysInOrder], by decide, ?_,
      by decide⟩
    exact .level (by decide) rfl (.level (by decide) rfl (.level (by decide) rfl (.leaf 21)))
  · have hpath := h.check ⟨[⟨1, 2⟩, ⟨3, 1⟩, ⟨5, 1⟩], 22⟩
      (.level (by decide) rfl (.level (by decide) rfl (.level (by decide) rfl (.leaf 22))))
    revert hpath
    decide

end

end Tux3.TreeChop
