import Tux3.BtreeProbe
import Mathlib.Data.List.Perm.Basic

/-!
# Index insertion

A level with a pending child is one or two entries of the level above. Insertion puts these in
place of the entry that the cursor follows, so the leaves read from left to right gain exactly the
new one.
-/
namespace Tux3.Btree

/-- The entries that stand for a level in the level above. -/
def grown (e : IndexEntry) (child : Option Child) : List IndexEntry :=
  e :: (child.map fun c => ⟨c.key, c.block⟩).toList

section
variable {node : Nodes} {n depth block low leaf : ℕ} {path : List PathLevel}
  {es : List IndexEntry} {at' : PathLevel} {s s' : Loop} {child : Child}

/-! ## One level -/

theorem addChild_length {p b k : ℕ} : (addChild es p b k).length = es.length + 1 := by
  rw [addChild, List.length_append, List.length_cons, List.length_take, List.length_drop]
  omega

theorem addChild_ne_nil {p b k : ℕ} : addChild es p b k ≠ [] := by
  intro h
  have hlen := congrArg List.length h
  rw [addChild_length] at hlen
  cases hlen

/-- The entries around a place, with the child behind the entry before it. -/
theorem keyed_addChild {next : ℕ} {e : IndexEntry} (hnext : 0 < next)
    (hentry : es[next - 1]? = some e) :
    keyed low (addChild es next child.block child.key) =
      (keyed low es).take (next - 1) ++
        grown ⟨if next = 1 then low else e.key, e.block⟩ (some child) ++ es.drop next := by
  have hkey : (if next - 1 = 0 then low else e.key) = if next = 1 then low else e.key := by
    congr 1
    exact propext ⟨fun h => by omega, fun h => by omega⟩
  have hne : es.take next ≠ [] := by
    intro h
    rcases List.take_eq_nil_iff.mp h with rfl | rfl
    · exact absurd hnext (Nat.lt_irrefl 0)
    · cases hentry
  have hlt := (List.getElem?_eq_some_iff.mp hentry).1
  have htake : keyed low (es.take next) = (keyed low es).take next := by
    have hlen : (keyed low (es.take next)).length = next := by
      rw [keyed_length, List.length_take]
      omega
    calc keyed low (es.take next)
        = (keyed low (es.take next) ++ es.drop next).take next := (List.take_left' hlen).symm
      _ = (keyed low (es.take next ++ es.drop next)).take next := by rw [keyed_append hne]
      _ = (keyed low es).take next := by rw [List.take_append_drop]
  have hlast : (keyed low es).take next =
      (keyed low es).take (next - 1) ++ [⟨if next = 1 then low else e.key, e.block⟩] := by
    conv_lhs => rw [← Nat.sub_add_cancel hnext]
    rw [List.take_add_one, keyed_getElem low hentry, hkey]
    rfl
  rw [addChild, keyed_append hne, htake, hlast, grown]
  simp

theorem addChild_left {half next b k : ℕ} (h : next ≤ half) :
    addChild (es.take half) next b k ++ es.drop half = addChild es next b k := by
  have hdrop : (es.take half).drop next ++ es.drop half = es.drop next := by
    conv_rhs => rw [← List.take_append_drop half es]
    rcases Nat.le_total half es.length with hle | hle
    · rw [List.drop_append_of_le_length (by rw [List.length_take]; omega)]
    · rw [List.take_of_length_le hle, List.drop_eq_nil_of_le hle, List.append_nil, List.append_nil]
  rw [addChild, addChild, List.take_take, Nat.min_eq_left h, List.append_assoc, List.cons_append,
    hdrop]

theorem addChild_right {half next b k : ℕ} (h : half ≤ next) (hle : half ≤ es.length) :
    es.take half ++ addChild (es.drop half) (next - half) b k = addChild es next b k := by
  have htake : es.take half ++ (es.drop half).take (next - half) = es.take next := by
    conv_rhs => rw [← List.take_append_drop half es, List.take_append, List.take_take,
      List.length_take, Nat.min_eq_left hle, Nat.min_eq_right h]
  rw [addChild, addChild, ← List.append_assoc, htake, List.drop_drop, Nat.add_sub_cancel' h]

theorem keyed_right {half next b k : ℕ} (h : half < es.length) (hnext : half < next) :
    keyed ((es[half]?.map IndexEntry.key).getD 0) (es.drop half) = es.drop half ∧
      keyed ((es[half]?.map IndexEntry.key).getD 0) (addChild (es.drop half) (next - half) b k) =
        addChild (es.drop half) (next - half) b k := by
  have hhead : (es.drop half).head? = es[half]? := List.head?_drop
  rw [List.getElem?_eq_getElem h] at hhead ⊢
  refine ⟨keyed_self hhead rfl, keyed_self ?_ rfl⟩
  obtain ⟨m, hm⟩ := Nat.exists_eq_succ_of_ne_zero (Nat.sub_ne_zero_of_lt hnext)
  rw [addChild, hm, List.drop_eq_getElem_cons h, List.take_succ_cons]
  rfl

theorem addChild_getElem_prev {next b k : ℕ} (hnext : 0 < next) (h : next ≤ es.length) :
    (addChild es next b k)[next - 1]? = es[next - 1]? := by
  rw [addChild, List.getElem?_append_left (by rw [List.length_take]; omega),
    List.getElem?_take_of_lt (by omega)]

theorem addChild_getElem_self {next b k : ℕ} (h : next ≤ es.length) :
    (addChild es next b k)[next]? = some ⟨k, b⟩ := by
  have hlen : (es.take next).length = next := by
    rw [List.length_take]
    omega
  rw [addChild, List.getElem?_append_right (by omega), hlen, Nat.sub_self]
  rfl

/-- A round at a full level: the two halves with the child, and the place of the cursor. -/
theorem insertLevel_split (hfull : n ≤ (s.node at'.block).length) (hfresh : at'.block ∉ s.blocks)
    (h : insertLevel n at' s child = some s') :
    let es := s.node at'.block
    let half := es.length / 2
    ∃ newbuf l r, s.blocks = newbuf :: s'.blocks ∧ newbuf ≠ at'.block ∧
      s'.child = some ⟨(es[half]?.map IndexEntry.key).getD 0, newbuf,
        child.keep || decide (at'.next ≤ half)⟩ ∧
      s'.node at'.block = l ∧ s'.node newbuf = r ∧
      (∀ x, x ≠ at'.block → x ≠ newbuf → s'.node x = s.node x) ∧
      if at'.next ≤ half then
        l = addChild (es.take half) at'.next child.block child.key ∧ r = es.drop half ∧
          s'.path = ⟨at'.block, if child.keep then at'.next else at'.next + 1⟩ :: s.path
      else
        l = es.take half ∧ r = addChild (es.drop half) (at'.next - half) child.block child.key ∧
          s'.path = ⟨newbuf, if child.keep then at'.next - half else at'.next - half + 1⟩ ::
            s.path := by
  intro es half
  unfold insertLevel at h
  dsimp only at h
  rw [if_neg (by omega)] at h
  split at h
  · cases h
  · next newbuf blocks hblocks =>
      have hne : newbuf ≠ at'.block := by
        rintro rfl
        exact hfresh (hblocks ▸ List.mem_cons_self)
      by_cases hleft : at'.next ≤ half
      · simp only [half, es] at hleft
        simp only [hleft, decide_true, if_true] at h
        obtain rfl := Option.some.inj h
        refine ⟨newbuf, _, _, hblocks, hne, ?_, rfl, rfl, fun x hx hx' => ?_, ?_⟩
        · simp only [half, es, hleft, decide_true]
        · simp only [Function.update_of_ne hx, Function.update_of_ne hx']
        · rw [if_pos hleft]
          simp only [Function.update_self, Function.update_of_ne hne]
          refine ⟨rfl, rfl, ?_⟩
          split <;> rfl
      · simp only [half, es] at hleft
        simp only [hleft, decide_false, if_false] at h
        obtain rfl := Option.some.inj h
        refine ⟨newbuf, _, _, hblocks, hne, ?_, rfl, rfl, fun x hx hx' => ?_, ?_⟩
        · simp only [half, es, hleft, decide_false]
        · simp only [Function.update_of_ne hx, Function.update_of_ne hx']
        · rw [if_neg hleft]
          simp only [Function.update_self, Function.update_of_ne hne,
            Function.update_of_ne hne.symm]
          refine ⟨rfl, rfl, ?_⟩
          split <;> rfl

theorem insertLevel_room (hroom : (s.node at'.block).length < n) :
    insertLevel n at' s child = some { s with
      node := Function.update s.node at'.block
        (addChild (s.node at'.block) at'.next child.block child.key)
      path := ⟨at'.block, if child.keep then at'.next else at'.next + 1⟩ :: s.path
      child := none } := by
  unfold insertLevel
  dsimp only
  rw [if_pos hroom]
  split <;> rfl

/-- What one round does to the nodes: the level and its new node together hold the entries with the
child. -/
theorem insertLevel_nodes (hn : 2 ≤ n) (hlen : (s.node at'.block).length ≤ n)
    (hnext : at'.next ≤ (s.node at'.block).length) (hfresh : at'.block ∉ s.blocks)
    (h : insertLevel n at' s child = some s') :
    ∃ used, s.blocks = used ++ s'.blocks ∧
      (∀ x, x ≠ at'.block → x ∉ used → s'.node x = s.node x) ∧
      (∀ low, (grown ⟨low, at'.block⟩ s'.child).flatMap (fun e => keyed e.key (s'.node e.block)) =
        keyed low (addChild (s.node at'.block) at'.next child.block child.key)) ∧
      (∀ low, (grown ⟨low, at'.block⟩ s'.child).map IndexEntry.block = at'.block :: used) ∧
      ∀ low, ∀ e ∈ grown ⟨low, at'.block⟩ s'.child,
        s'.node e.block ≠ [] ∧ (s'.node e.block).length ≤ n := by
  rcases Nat.lt_or_ge (s.node at'.block).length n with hroom | hfull
  · rw [insertLevel_room hroom] at h
    obtain rfl := Option.some.inj h
    refine ⟨[], rfl, fun x hx _ => Function.update_of_ne hx _ _, fun low => ?_, fun low => rfl,
      fun low e he => ?_⟩
    · simp [grown]
    · obtain rfl := List.mem_singleton.mp he
      dsimp only
      rw [Function.update_self]
      exact ⟨addChild_ne_nil, by rw [addChild_length]; omega⟩
  · obtain ⟨newbuf, l, r, hblocks, hne, hchild, hl, hr, hframe, hhalves⟩ :=
      insertLevel_split hfull hfresh h
    set es := s.node at'.block with hes
    set half := es.length / 2 with hhalf
    have hparts : l ≠ [] ∧ r ≠ [] ∧ l.length ≤ n ∧ r.length ≤ n ∧
        l ++ r = addChild es at'.next child.block child.key ∧
        keyed ((es[half]?.map IndexEntry.key).getD 0) r = r := by
      split at hhalves
      · next hleft =>
          obtain ⟨rfl, rfl, -⟩ := hhalves
          refine ⟨addChild_ne_nil, ?_, ?_, ?_, addChild_left hleft,
            (keyed_right (b := 0) (k := 0) (by omega) (Nat.lt_succ_self half)).1⟩
          · intro hnil
            rw [List.drop_eq_nil_iff] at hnil
            omega
          · rw [addChild_length, List.length_take]
            omega
          · rw [List.length_drop]
            omega
      · next hright =>
          obtain ⟨rfl, rfl, -⟩ := hhalves
          refine ⟨?_, addChild_ne_nil, ?_, ?_, addChild_right (by omega) (by omega),
            (keyed_right (by omega) (by omega)).2⟩
          · intro hnil
            rcases List.take_eq_nil_iff.mp hnil with hnil | hnil
            · omega
            · rw [hnil] at hfull
              exact absurd hfull (by rw [List.length_nil]; omega)
          · rw [List.length_take]
            omega
          · rw [addChild_length, List.length_drop]
            omega
    obtain ⟨hl0, hr0, hln, hrn, hlr, hkr⟩ := hparts
    rw [hchild]
    refine ⟨[newbuf], hblocks, fun x hx hx' => hframe x hx fun heq => hx' ?_, fun low => ?_,
      fun low => rfl, fun low e he => ?_⟩
    · exact heq ▸ List.mem_singleton_self newbuf
    · simp only [grown, Option.map_some, Option.toList_some, List.flatMap_cons,
        List.flatMap_nil, List.append_nil, hl, hr, hkr]
      rw [← hlr, keyed_append hl0]
    · simp only [grown, Option.map_some, Option.toList_some, List.mem_cons,
        List.not_mem_nil, or_false] at he
      rcases he with rfl | rfl
      · exact ⟨hl ▸ hl0, hl ▸ hln⟩
      · exact ⟨hr ▸ hr0, hr ▸ hrn⟩

/-! ## All levels -/

theorem keyed_flatMap {β : Type} (f : ℕ → List β) :
    (keyed low es).flatMap (fun e => f e.block) = es.flatMap fun e => f e.block := by
  cases es with
  | nil => rfl
  | cons e es => rfl

theorem keyed_take {m : ℕ} : (keyed low es).take m = keyed low (es.take m) := by
  cases es with
  | nil => rw [keyed, List.take_nil, keyed]
  | cons e es =>
      cases m with
      | zero => rfl
      | succ m => rfl

theorem mem_keyed (low : ℕ) {e : IndexEntry} (h : e ∈ es) : ∃ e' ∈ keyed low es, e'.block = e.block := by
  cases es with
  | nil => cases h
  | cons a es =>
      rcases List.mem_cons.mp h with rfl | h
      · exact ⟨_, List.mem_cons_self, rfl⟩
      · exact ⟨e, List.mem_cons_of_mem _ h, rfl⟩

theorem OnPath.blocks_sub (h : OnPath node depth block path leaf) :
    ∀ x ∈ path.map PathLevel.block, x ∈ blocksOf node depth block := by
  induction h with
  | leaf block =>
      intro x hx
      cases hx
  | level hnext hentry h ih =>
      intro x hx
      rcases List.mem_cons.mp hx with rfl | hx
      · exact List.mem_cons_self
      · exact mem_child (List.mem_of_getElem? hentry) (ih x hx)

/-- What the levels below have become: the child waiting for the level above belongs to them. -/
structure Inserted (node : Nodes) (n depth block leaf : ℕ) (path : List PathLevel) (child : Child)
    (blocks : List ℕ) (s : Loop) (used : List ℕ) : Prop where
  blocks_eq : blocks = used ++ s.blocks
  frame : ∀ x, x ∉ path.map PathLevel.block → x ∉ used → s.node x = node x
  leaves_eq : ∀ low, (grown ⟨low, block⟩ s.child).flatMap
      (fun e => leaves s.node depth e.key e.block) =
    before node depth path low ++
      (lowKey node path low, leaf) :: (child.key, child.block) :: after node depth path
  perm : ∀ low, ((grown ⟨low, block⟩ s.child).flatMap fun e => blocksOf s.node depth e.block).Perm
    (child.block :: used ++ blocksOf node depth block)
  sized : ∀ low, ∀ e ∈ grown ⟨low, block⟩ s.child, Sized s.node n depth e.block

theorem insertLevels_cons {blocks : List ℕ}
    (h : insertLevels node n blocks child (at' :: path) = some s') :
    ∃ s, insertLevels node n blocks child path = some s ∧
      ((s.child = none ∧ s' = { s with path := at' :: s.path }) ∨
        ∃ c, s.child = some c ∧ insertLevel n at' s c = some s') := by
  rw [insertLevels] at h
  split at h
  · cases h
  · next s hs =>
      refine ⟨s, hs, ?_⟩
      split at h
      · next hc => exact Or.inl ⟨hc, (Option.some.inj h).symm⟩
      · next c hc => exact Or.inr ⟨c, hc, h⟩

/-- A level takes in what the levels below have become. -/
theorem insertLevels_nodes {next : ℕ} {e : IndexEntry} (hn : 2 ≤ n)
    (hself : s.node block = node block) (hlen : (node block).length ≤ n) (hne : node block ≠ [])
    (hnext : 0 < next) (hentry : (node block)[next - 1]? = some e) (hfresh : block ∉ s.blocks)
    (h : (s.child = none ∧ s' = { s with path := ⟨block, next⟩ :: s.path }) ∨
        ∃ c, s.child = some c ∧ insertLevel n ⟨block, next⟩ s c = some s') :
    ∃ used, s.blocks = used ++ s'.blocks ∧
      (∀ x, x ≠ block → x ∉ used → s'.node x = s.node x) ∧
      (∀ low, (grown ⟨low, block⟩ s'.child).flatMap (fun e => keyed e.key (s'.node e.block)) =
        (keyed low (node block)).take (next - 1) ++
          grown ⟨if next = 1 then low else e.key, e.block⟩ s.child ++ (node block).drop next) ∧
      (∀ low, (grown ⟨low, block⟩ s'.child).map IndexEntry.block = block :: used) ∧
      ∀ low, ∀ e ∈ grown ⟨low, block⟩ s'.child,
        s'.node e.block ≠ [] ∧ (s'.node e.block).length ≤ n := by
  have hlt := (List.getElem?_eq_some_iff.mp hentry).1
  rcases h with ⟨hc, rfl⟩ | ⟨c, hc, h⟩
  · refine ⟨[], rfl, fun _ _ _ => rfl, fun low => ?_, fun low => ?_, fun low x hx => ?_⟩
    · have hkeyed := split_at hnext (keyed_getElem low hentry)
      have hkey : (if next - 1 = 0 then low else e.key) = if next = 1 then low else e.key := by
        congr 1
        exact propext ⟨fun h => by omega, fun h => by omega⟩
      rw [hkey, keyed_drop hnext] at hkeyed
      simp only [hc, grown, Option.map_none, Option.toList_none, List.flatMap_cons,
        List.flatMap_nil, List.append_nil, hself]
      rw [List.append_assoc, List.singleton_append, ← hkeyed]
    · simp [hc, grown]
    · simp only [hc, grown, Option.map_none, Option.toList_none, List.mem_singleton] at hx
      subst hx
      exact ⟨hself ▸ hne, hself ▸ hlen⟩
  · obtain ⟨used, hused, hframe, hkeyed, hblocks, hsized⟩ :=
      insertLevel_nodes hn (hself ▸ hlen) (by rw [hself]; dsimp only; omega) hfresh h
    refine ⟨used, hused, hframe, fun low => ?_, hblocks, hsized⟩
    rw [hkeyed, hself, hc, keyed_addChild hnext hentry]

theorem blocksOf_split {next : ℕ} {e : IndexEntry} (hnext : 0 < next)
    (hentry : (node block)[next - 1]? = some e) : blocksOf node (depth + 1) block =
      block :: (((node block).take (next - 1)).flatMap (fun x => blocksOf node depth x.block) ++
        (blocksOf node depth e.block ++
          ((node block).drop next).flatMap fun x => blocksOf node depth x.block)) := by
  rw [blocksOf]
  conv_lhs => rw [split_at hnext hentry]
  rw [List.flatMap_append, List.flatMap_cons]

/-- What a level and the levels below it leave alone: the subtrees to the left and to the right of
the child, and what the child has become. -/
structure Beside (node : Nodes) (depth block next : ℕ) (e : IndexEntry) (s₀ s : Loop) : Prop where
  left : ∀ a ∈ (node block).take (next - 1), ∀ x ∈ blocksOf node depth a.block, s.node x = node x
  right : ∀ a ∈ (node block).drop next, ∀ x ∈ blocksOf node depth a.block, s.node x = node x
  grown : ∀ low, ∀ a ∈ grown ⟨low, e.block⟩ s₀.child, ∀ x ∈ blocksOf s₀.node depth a.block,
    s.node x = s₀.node x

theorem Inserted.beside {blocks used used' : List ℕ} {next : ℕ} {e : IndexEntry} {s₀ : Loop}
    (hI : Inserted node n depth e.block leaf path child blocks s₀ used)
    (hpath : OnPath node depth e.block path leaf) (hnext : 0 < next)
    (hentry : (node block)[next - 1]? = some e)
    (hnodup : (child.block :: blocks ++ blocksOf node (depth + 1) block).Nodup)
    (hused' : s₀.blocks = used' ++ s.blocks)
    (hframe' : ∀ x, x ≠ block → x ∉ used' → s.node x = s₀.node x) :
    Beside node depth block next e s₀ s := by
  rw [blocksOf_split hnext hentry] at hnodup
  set L := ((node block).take (next - 1)).flatMap fun x => blocksOf node depth x.block with hL
  set S := blocksOf node depth e.block with hS
  set R := ((node block).drop next).flatMap fun x => blocksOf node depth x.block with hR
  obtain ⟨hnew, htree, hdisj⟩ := List.nodup_append.mp hnodup
  obtain ⟨hblock, htree⟩ := List.nodup_cons.mp htree
  obtain ⟨-, hSR, hdisjL⟩ := List.nodup_append.mp htree
  obtain ⟨-, -, hdisjR⟩ := List.nodup_append.mp hSR
  have hused : ∀ x ∈ used, x ∈ blocks := fun x hx => hI.blocks_eq ▸ List.mem_append_left _ hx
  have hrest : ∀ x ∈ s₀.blocks, x ∈ blocks := fun x hx =>
    hI.blocks_eq ▸ List.mem_append_right _ hx
  have hnew' : ∀ x ∈ used', x ∈ blocks := fun x hx => hrest x (hused' ▸ List.mem_append_left _ hx)
  have hside : ∀ x, x ∈ L ∨ x ∈ R → s.node x = node x := by
    intro x hx
    have hx' : x ∈ L ++ (S ++ R) := by
      simp only [List.mem_append]
      tauto
    have hxb : x ∉ blocks := fun hb => hdisj x (List.mem_cons_of_mem _ hb) x
      (List.mem_cons_of_mem _ hx') rfl
    rw [hframe' x (fun heq => hblock (heq ▸ hx')) fun hu => hxb (hnew' x hu)]
    refine hI.frame x (fun hp => ?_) fun hu => hxb (hused x hu)
    have hxS := hpath.blocks_sub x hp
    rcases hx with hx | hx
    · exact hdisjL x hx x (List.mem_append_left _ hxS) rfl
    · exact hdisjR x hxS x hx rfl
  refine ⟨fun a ha x hx => hside x (Or.inl (List.mem_flatMap.mpr ⟨a, ha, hx⟩)),
    fun a ha x hx => hside x (Or.inr (List.mem_flatMap.mpr ⟨a, ha, hx⟩)), fun low a ha x hx => ?_⟩
  have hmem := (hI.perm low).mem_iff.mp (List.mem_flatMap.mpr ⟨a, ha, hx⟩)
  rw [List.mem_append, List.mem_cons] at hmem
  obtain ⟨hchild, hblocks⟩ := List.nodup_cons.mp hnew
  refine hframe' x (fun heq => ?_) fun hu => ?_
  · subst heq
    rcases hmem with (rfl | hx) | hx
    · exact hdisj _ List.mem_cons_self _ List.mem_cons_self rfl
    · exact hdisj x (List.mem_cons_of_mem _ (hused x hx)) x List.mem_cons_self rfl
    · exact hblock (List.mem_append_right _ (List.mem_append_left _ hx))
  · rcases hmem with (rfl | hx) | hx
    · exact hchild (hnew' _ hu)
    · rw [hI.blocks_eq, hused'] at hblocks
      exact (List.nodup_append.mp hblocks).2.2 x hx x (List.mem_append_left _ hu) rfl
    · exact hdisj x (List.mem_cons_of_mem _ (hnew' x hu)) x (List.mem_cons_of_mem _
        (List.mem_append_right _ (List.mem_append_left _ hx))) rfl

/-- The subtree of a level from what its child has become. -/
theorem Inserted.level {blocks used used' : List ℕ} {next : ℕ} {e : IndexEntry} {s₀ : Loop}
    (hI : Inserted node n depth e.block leaf path child blocks s₀ used)
    (hs : Sized node n (depth + 1) block) (hnext : 0 < next)
    (hentry : (node block)[next - 1]? = some e) (hused' : s₀.blocks = used' ++ s.blocks)
    (hframe' : ∀ x, x ≠ block → x ∉ used' → s.node x = s₀.node x)
    (hentries : ∀ low, (grown ⟨low, block⟩ s.child).flatMap (fun e => keyed e.key (s.node e.block)) =
      (keyed low (node block)).take (next - 1) ++
        grown ⟨if next = 1 then low else e.key, e.block⟩ s₀.child ++ (node block).drop next)
    (hheads : ∀ low, (grown ⟨low, block⟩ s.child).map IndexEntry.block = block :: used')
    (hfits : ∀ low, ∀ e ∈ grown ⟨low, block⟩ s.child,
      s.node e.block ≠ [] ∧ (s.node e.block).length ≤ n)
    (hbeside : Beside node depth block next e s₀ s) :
    Inserted node n (depth + 1) block leaf (⟨block, next⟩ :: path) child blocks s
      (used ++ used') := by
  have hlow : ∀ low, (if next = 1 then low
      else ((node block)[next - 1]?.map IndexEntry.key).getD 0) =
      if next = 1 then low else e.key := by
    intro low
    rw [hentry]
    rfl
  refine ⟨?_, fun x hx hxu => ?_, fun low => ?_, fun low => ?_,
    fun low a ha => ⟨(hfits low a ha).1, (hfits low a ha).2, fun x hx => ?_⟩⟩
  · rw [hI.blocks_eq, hused', List.append_assoc]
  · rw [List.map_cons, List.mem_cons, not_or] at hx
    rw [List.mem_append, not_or] at hxu
    rw [hframe' x hx.1 hxu.2, hI.frame x hx.2 hxu.1]
  · rw [before, lowKey, after]
    dsimp only
    rw [hlow]
    simp only [leaves]
    rw [← List.flatMap_assoc, hentries low, List.flatMap_append, List.flatMap_append]
    rw [List.flatMap_congr (g := fun a => leaves node depth a.key a.block)
        (l := (keyed low (node block)).take (next - 1)) fun a ha => ?_,
      List.flatMap_congr (g := fun a => leaves s₀.node depth a.key a.block)
        (l := grown _ s₀.child) fun a ha => (subtree_congr (hbeside.grown _ a ha)).2.1 a.key,
      List.flatMap_congr (g := fun a => leaves node depth a.key a.block)
        (l := (node block).drop next) fun a ha => (subtree_congr (hbeside.right a ha)).2.1 a.key,
      hI.leaves_eq]
    · simp only [List.append_assoc, List.cons_append]
    · rw [keyed_take] at ha
      obtain ⟨a', ha', heq⟩ := keyed_mem ha
      exact (subtree_congr (heq ▸ hbeside.left a' ha')).2.1 a.key
  · have hinner : ∀ a : IndexEntry, blocksOf s.node (depth + 1) a.block =
        a.block :: (keyed a.key (s.node a.block)).flatMap
          fun x => blocksOf s.node depth x.block := by
      intro a
      rw [blocksOf, keyed_flatMap]
    simp only [hinner]
    refine (List.map_append_flatMap_perm _ _ _).symm.trans ?_
    rw [hheads low, ← List.flatMap_assoc, hentries low, List.flatMap_append,
      List.flatMap_append, blocksOf_split hnext hentry, keyed_take, keyed_flatMap]
    rw [List.flatMap_congr (g := fun a => blocksOf node depth a.block)
        (l := (node block).take (next - 1)) fun a ha => (subtree_congr (hbeside.left a ha)).1,
      List.flatMap_congr (g := fun a => blocksOf s₀.node depth a.block)
        (l := grown _ s₀.child) fun a ha => (subtree_congr (hbeside.grown _ a ha)).1,
      List.flatMap_congr (g := fun a => blocksOf node depth a.block)
        (l := (node block).drop next) fun a ha => (subtree_congr (hbeside.right a ha)).1]
    refine (((hI.perm _).append_left _).append_right _ |>.append_left (block :: used')).trans ?_
    refine List.perm_iff_count.mpr fun x => ?_
    simp only [List.count_append, List.count_cons]
    omega
  · obtain ⟨x', hx', heq⟩ := mem_keyed a.key hx
    have hmem : x' ∈ (grown ⟨low, block⟩ s.child).flatMap
        fun e => keyed e.key (s.node e.block) := List.mem_flatMap.mpr ⟨a, ha, hx'⟩
    rw [hentries low, List.mem_append, List.mem_append, keyed_take] at hmem
    rw [← heq]
    rcases hmem with (hm | hm) | hm
    · obtain ⟨y, hy, hyx⟩ := keyed_mem hm
      rw [← hyx]
      exact ((subtree_congr (hbeside.left y hy)).2.2 n).mpr (hs.2.2 y (List.mem_of_mem_take hy))
    · exact ((subtree_congr (hbeside.grown _ x' hm)).2.2 n).mpr (hI.sized _ x' hm)
    · exact ((subtree_congr (hbeside.right x' hm)).2.2 n).mpr (hs.2.2 x' (List.mem_of_mem_drop hm))

/-- Every level up to the root. -/
theorem insertLevels_spec {blocks : List ℕ} (hn : 2 ≤ n) (hs : Sized node n depth block)
    (hpath : OnPath node depth block path leaf)
    (hnodup : (child.block :: blocks ++ blocksOf node depth block).Nodup)
    (h : insertLevels node n blocks child path = some s) :
    ∃ used, Inserted node n depth block leaf path child blocks s used := by
  induction hpath generalizing s with
  | leaf block =>
      obtain rfl := Option.some.inj h
      refine ⟨[], rfl, fun _ _ _ => rfl, fun low => rfl, fun low => ?_, fun low e he => trivial⟩
      exact List.Perm.swap _ _ _
  | @level depth block next e path leaf hnext hentry hpath ih =>
      obtain ⟨s₀, hs₀, hlevel⟩ := insertLevels_cons h
      have he : e ∈ node block := List.mem_of_getElem? hentry
      have hB := @blocksOf_split node depth block next e hnext hentry
      have hsub : (child.block :: blocks ++ blocksOf node depth e.block).Nodup := by
        refine hnodup.sublist (List.Sublist.append_left ?_ _)
        rw [hB]
        exact ((List.sublist_append_left _ _).trans (List.sublist_append_right _ _)).trans
          (List.sublist_cons_self block _)
      obtain ⟨used, hI⟩ := ih (hs.2.2 e he) hsub hs₀
      obtain ⟨-, htree, hdisj⟩ := List.nodup_append.mp hnodup
      rw [hB] at htree hdisj
      have hblock := (List.nodup_cons.mp htree).1
      -- the block of the level is none of those below, and none of the new ones
      have hout : ∀ x ∈ blocks, x ≠ block := fun x hx heq =>
        hdisj x (List.mem_cons_of_mem _ hx) block List.mem_cons_self heq
      have hself : s₀.node block = node block := by
        refine hI.frame block (fun hx => hblock ?_) fun hx => ?_
        · exact List.mem_append_right _ (List.mem_append_left _ (hpath.blocks_sub block hx))
        · exact hout block (hI.blocks_eq ▸ List.mem_append_left _ hx) rfl
      obtain ⟨used', hused', hframe', hentries, hheads, hfits⟩ := insertLevels_nodes hn hself hs.2.1
        hs.1 hnext hentry (fun hx => hout block (hI.blocks_eq ▸ List.mem_append_right _ hx) rfl)
          hlevel
      exact ⟨used ++ used', hI.level hs hnext hentry hused' hframe' hentries hheads hfits
        (hI.beside hpath hnext hentry hnodup hused' hframe')⟩

end

section
variable {t t' : Tree} {n q k leafbuf : ℕ} {blocks : List ℕ} {cursor cursor' : Cursor} {keep : Bool}

/-! ## The tree -/

theorem insertLeaf_cases (h : insertLeaf t n blocks cursor k leafbuf keep = some (t', cursor')) :
    let leaf := if keep then cursor.leaf else leafbuf
    ∃ s, insertLevels t.node n blocks ⟨k, leafbuf, keep⟩ cursor.path = some s ∧
      ((s.child = none ∧ t' = { t with node := s.node } ∧ cursor' = ⟨s.path, leaf⟩) ∨
        ∃ c newroot rest, s.child = some c ∧ s.blocks = newroot :: rest ∧
          t' = ⟨Function.update s.node newroot [⟨0, t.root⟩, ⟨c.key, c.block⟩], newroot,
            t.depth + 1⟩ ∧
          cursor' = ⟨⟨newroot, if topBlock s.path leaf ≠ c.block then 1 else 2⟩ :: s.path,
            leaf⟩) := by
  intro leaf
  rw [insertLeaf] at h
  dsimp only at h
  split at h
  · cases h
  · next s hs =>
      refine ⟨s, hs, ?_⟩
      split at h
      · next hc =>
          obtain ⟨rfl, rfl⟩ := Prod.mk.inj (Option.some.inj h)
          exact Or.inl ⟨hc, rfl, rfl⟩
      · next c hc =>
          split at h
          · cases h
          · next newroot rest hrest =>
              obtain ⟨rfl, rfl⟩ := Prod.mk.inj (Option.some.inj h)
              exact Or.inr ⟨c, newroot, rest, hc, hrest, rfl, rfl⟩

/-- The tree after `insert_leaf`. -/
theorem insertLeaf_tree (hn : 2 ≤ n) (hw : t.WellFormed n)
    (hpath : OnPath t.node t.depth t.root cursor.path cursor.leaf)
    (hfresh : (leafbuf :: blocks ++ blocksOf t.node t.depth t.root).Nodup)
    (h : insertLeaf t n blocks cursor k leafbuf keep = some (t', cursor')) :
    leaves t'.node t'.depth 0 t'.root = before t.node t.depth cursor.path 0 ++
        (lowKey t.node cursor.path 0, cursor.leaf) :: (k, leafbuf) ::
          after t.node t.depth cursor.path ∧
      (blocksOf t'.node t'.depth t'.root).Nodup ∧ Sized t'.node n t'.depth t'.root := by
  obtain ⟨s, hs, hcase⟩ := insertLeaf_cases h
  obtain ⟨used, hI⟩ := insertLevels_spec hn hw.sized hpath (by exact hfresh) hs
  have hnodup : (leafbuf :: used ++ s.blocks ++ blocksOf t.node t.depth t.root).Nodup := by
    rw [hI.blocks_eq] at hfresh
    rw [List.cons_append]
    exact hfresh
  have hnodup' : ((leafbuf :: used ++ blocksOf t.node t.depth t.root) ++ s.blocks).Nodup := by
    refine (List.Perm.nodup_iff ?_).mp hnodup
    refine List.perm_iff_count.mpr fun x => ?_
    simp only [List.count_append, List.count_cons]
    omega
  obtain ⟨hold, -, hdisj⟩ := List.nodup_append.mp hnodup'
  have hleaves := hI.leaves_eq 0
  have hperm := hI.perm 0
  have hsized := hI.sized 0
  rcases hcase with ⟨hc, rfl, -⟩ | ⟨c, newroot, rest, hc, hrest, rfl, -⟩
  · simp only [hc, grown, Option.map_none, Option.toList_none, List.flatMap_cons, List.flatMap_nil,
      List.append_nil] at hleaves hperm hsized
    exact ⟨hleaves, hperm.nodup_iff.mpr hold, hsized _ (List.mem_singleton_self _)⟩
  · have hroot : newroot ∉ (grown ⟨0, t.root⟩ s.child).flatMap
        fun e => blocksOf s.node t.depth e.block := by
      intro hx
      exact hdisj newroot (hperm.mem_iff.mp hx) newroot (hrest ▸ List.mem_cons_self) rfl
    have hcongr : ∀ e ∈ grown ⟨0, t.root⟩ s.child, ∀ x ∈ blocksOf s.node t.depth e.block,
        Function.update s.node newroot [⟨0, t.root⟩, ⟨c.key, c.block⟩] x = s.node x := by
      intro e he x hx
      refine Function.update_of_ne (fun heq => hroot ?_) _ _
      exact heq ▸ List.mem_flatMap.mpr ⟨e, he, hx⟩
    have hgrown : grown ⟨0, t.root⟩ s.child = [⟨0, t.root⟩, ⟨c.key, c.block⟩] := by
      rw [hc]
      rfl
    have hentries : Function.update s.node newroot [⟨0, t.root⟩, ⟨c.key, c.block⟩] newroot =
        grown ⟨0, t.root⟩ s.child := by
      rw [Function.update_self, hgrown]
    dsimp only
    refine ⟨?_, ?_, ?_⟩
    · rw [leaves, hentries]
      rw [show keyed 0 (grown ⟨0, t.root⟩ s.child) = grown ⟨0, t.root⟩ s.child from rfl,
        List.flatMap_congr fun e he => (subtree_congr (hcongr e he)).2.1 e.key]
      exact hleaves
    · rw [blocksOf, hentries, List.flatMap_congr fun e he => (subtree_congr (hcongr e he)).1]
      exact List.nodup_cons.mpr ⟨hroot, hperm.nodup_iff.mpr hold⟩
    · rw [Sized, hentries]
      refine ⟨List.cons_ne_nil _ _, ?_, fun e he => ?_⟩
      · rw [hgrown]
        exact hn
      · exact ((subtree_congr (hcongr e he)).2.2 n).mpr (hsized e he)

theorem lt_after (hw : t.WellFormed n)
    (hpath : OnPath t.node t.depth t.root cursor.path cursor.leaf)
    (hnext : ∀ u ∈ nextKeyp t.node cursor.path, k < u) :
    ∀ x ∈ after t.node t.depth cursor.path, k < x.1 := by
  rw [nextKeyp_eq hw.sized hpath] at hnext
  have hsorted := hw.sorted
  rw [leaves_path hpath, List.map_append, List.map_cons] at hsorted
  have hafter := (List.pairwise_cons.mp (List.pairwise_append.mp hsorted).2.1).2
  intro x hx
  cases hl : after t.node t.depth cursor.path with
  | nil =>
      rw [hl] at hx
      cases hx
  | cons y ys =>
      rw [hl] at hx hnext hafter
      have hy : k < y.1 := hnext y.1 rfl
      rcases List.mem_cons.mp hx with rfl | hx
      · exact hy
      · exact Nat.lt_of_lt_of_le hy
          ((List.pairwise_cons.mp hafter).1 x.1 (List.mem_map.mpr ⟨x, hx, rfl⟩))

theorem lt_nextKeyp (h : k < nextKey t.node cursor.path) :
    ∀ u ∈ nextKeyp t.node cursor.path, k < u := by
  intro u hu
  rw [nextKey, Option.mem_def.mp hu] at h
  exact h

theorem sorted_insert {b a : List (ℕ × ℕ)} {low leaf : ℕ}
    (h : ((b ++ (low, leaf) :: a).map Prod.fst).Pairwise (· ≤ ·)) (hlow : low ≤ k)
    (hafter : ∀ x ∈ a, k ≤ x.1) :
    ((b ++ (low, leaf) :: (k, leafbuf) :: a).map Prod.fst).Pairwise (· ≤ ·) := by
  rw [List.map_append, List.map_cons] at h
  obtain ⟨hb, hla, hba⟩ := List.pairwise_append.mp h
  obtain ⟨hl, ha⟩ := List.pairwise_cons.mp hla
  rw [List.map_append, List.map_cons, List.map_cons]
  refine List.pairwise_append.mpr ⟨hb, ?_, fun x hx y hy => ?_⟩
  · refine List.pairwise_cons.mpr ⟨fun y hy => ?_, List.pairwise_cons.mpr ⟨fun y hy => ?_, ha⟩⟩
    · rcases List.mem_cons.mp hy with rfl | hy
      · exact hlow
      · exact hl y hy
    · obtain ⟨x, hx, rfl⟩ := List.mem_map.mp hy
      exact hafter x hx
  · rcases List.mem_cons.mp hy with rfl | hy
    · exact hba x hx _ List.mem_cons_self
    · rcases List.mem_cons.mp hy with rfl | hy
      · exact Nat.le_trans (hba x hx _ List.mem_cons_self) hlow
      · exact hba x hx y (List.mem_cons_of_mem _ hy)

theorem insertLeaf_after (hn : 2 ≤ n) (hw : t.WellFormed n)
    (hcursor : probeFrom t.node t.depth t.root q = some cursor)
    (hfresh : (leafbuf :: blocks ++ blocksOf t.node t.depth t.root).Nodup)
    (hlow : lowKey t.node cursor.path 0 < k) (hnext : ∀ u ∈ nextKeyp t.node cursor.path, k < u)
    (h : insertLeaf t n blocks cursor k leafbuf keep = some (t', cursor')) :
    t'.WellFormed n ∧
      (∃ b a, leaves t.node t.depth 0 t.root =
          b ++ (lowKey t.node cursor.path 0, cursor.leaf) :: a ∧
        leaves t'.node t'.depth 0 t'.root =
          b ++ (lowKey t.node cursor.path 0, cursor.leaf) :: (k, leafbuf) :: a) ∧
      ∀ x, t'.reached x = if k ≤ x ∧ ∀ u ∈ nextKeyp t.node cursor.path, x < u then some leafbuf
        else t.reached x := by
  obtain ⟨c, hc, hpath, -, -⟩ := probe_spec hw.sized hw.sorted (Nat.zero_le q)
  obtain rfl := Option.some.inj (hc.symm.trans hcursor)
  obtain ⟨hleaves, hnodup, hsized⟩ := insertLeaf_tree hn hw hpath hfresh h
  have hold := leaves_path hpath 0
  have hafter := lt_after hw hpath hnext
  have hsorted : ((leaves t'.node t'.depth 0 t'.root).map Prod.fst).Pairwise (· ≤ ·) := by
    rw [hleaves]
    exact sorted_insert (hold ▸ hw.sorted) (Nat.le_of_lt hlow) fun x hx => Nat.le_of_lt (hafter x hx)
  have hw' : t'.WellFormed n := ⟨hsized, hnodup, hsorted⟩
  refine ⟨hw', ⟨_, _, hold, hleaves⟩, fun x => ?_⟩
  rw [hw'.reached_eq, hw.reached_eq, hleaves, hold, List.filter_append, List.filter_append]
  split
  · next hx =>
      obtain ⟨hkx, hxu⟩ := hx
      have hright : (after t.node t.depth c.path).filter (fun y => decide (y.1 ≤ x)) = [] := by
        refine List.filter_eq_nil_iff.mpr fun y hy => ?_
        have hlt := lt_after hw hpath hxu y hy
        simp only [decide_eq_true_eq]
        omega
      rw [List.filter_cons_of_pos (by simp only [decide_eq_true_eq]; omega),
        List.filter_cons_of_pos (by simpa using hkx), hright, List.getLast?_append]
      rfl
  · next hx =>
      rcases Nat.lt_or_ge x k with hlt | hge
      · have hkx : ¬ k ≤ x := Nat.not_le.mpr hlt
        simp only [List.filter_cons, decide_eq_true_eq, hkx, if_false]
      · obtain ⟨u, hu, hux⟩ : ∃ u ∈ nextKeyp t.node c.path, u ≤ x := by
          by_contra hno
          refine hx ⟨hge, fun u hu => ?_⟩
          by_contra hux
          exact hno ⟨u, hu, Nat.not_lt.mp hux⟩
        rw [nextKeyp_eq hw.sized hpath] at hu
        cases hl : after t.node t.depth c.path with
        | nil =>
            rw [hl] at hu
            cases hu
        | cons y ys =>
            rw [hl] at hu
            cases hu
            have hlx : lowKey t.node c.path 0 ≤ x := by omega
            simp only [List.filter_cons, decide_eq_true_eq, hlx, hge, hux, if_true,
              List.getLast?_append, List.getLast?_cons_cons]

/-- `insert_leaf` puts the new leaf behind the leaf of the cursor, and only the keys between the new
separator and the next one go to it. -/
theorem insertLeaf_inserts (hn : 2 ≤ n) (hw : t.WellFormed n)
    (hcursor : probeFrom t.node t.depth t.root q = some cursor)
    (hfresh : (leafbuf :: blocks ++ blocksOf t.node t.depth t.root).Nodup)
    (hlow : lowKey t.node cursor.path 0 < k) (hnext : k < nextKey t.node cursor.path)
    (h : insertLeaf t n blocks cursor k leafbuf keep = some (t', cursor')) :
    t'.WellFormed n ∧
      (∃ b a, leaves t.node t.depth 0 t.root =
          b ++ (lowKey t.node cursor.path 0, cursor.leaf) :: a ∧
        leaves t'.node t'.depth 0 t'.root =
          b ++ (lowKey t.node cursor.path 0, cursor.leaf) :: (k, leafbuf) :: a) ∧
      ∀ x, t'.reached x = if k ≤ x ∧ ∀ u ∈ nextKeyp t.node cursor.path, x < u then some leafbuf
        else t.reached x :=
  insertLeaf_after hn hw hcursor hfresh hlow (lt_nextKeyp hnext) h

theorem insertLeaf_inserts_root :
    ∃ t' c, insertLeaf ⟨fun b => if b = 1 then [⟨0, 10⟩, ⟨5, 11⟩] else [], 1, 1⟩ 2 [2, 3]
        ⟨[⟨1, 1⟩], 10⟩ 3 12 true = some (t', c) ∧ t'.WellFormed 2 ∧ t'.reached 4 = some 12 := by
  refine ⟨_, _, rfl, ?_⟩
  have h := insertLeaf_inserts (t := ⟨fun b => if b = 1 then [⟨0, 10⟩, ⟨5, 11⟩] else [], 1, 1⟩)
    (q := 0) (by decide) ⟨by simp [Sized], by decide, by decide⟩ (by decide) (by decide) (by decide)
    (by decide) (rfl : insertLeaf _ 2 [2, 3] ⟨[⟨1, 1⟩], 10⟩ 3 12 true = some _)
  refine ⟨h.1, (h.2.2 4).trans (if_pos ⟨by decide, ?_⟩)⟩
  intro u hu
  cases hu
  decide

end

end Tux3.Btree
