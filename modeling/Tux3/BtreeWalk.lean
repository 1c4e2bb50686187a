import Tux3.BtreeProbe

/-!
# Walking a btree

A cursor at a leaf is a place in the list of leaves. `advance` climbs the levels that are finished
and goes down to the first leaf of the next entry, which is the next place, so repeated calls visit
the rest of the list.
-/
namespace Tux3.Btree

section
variable (node : Nodes)

/-- The keys of a node are in order, and the first is not below the key of the entry above. -/
def KeysInOrder : ℕ → ℕ → ℕ → Prop
  | 0, _, _ => True
  | depth + 1, key, block =>
      ((node block).map IndexEntry.key).Pairwise (· ≤ ·) ∧
        (∀ e ∈ (node block).head?, key ≤ e.key) ∧
        ∀ e ∈ node block, KeysInOrder depth e.key e.block

end

section
variable {node : Nodes} {n depth block key low leaf : ℕ} {path acc : List PathLevel}

/-! ## Checks -/

theorem KeysInOrder.le {e : IndexEntry} (h : KeysInOrder node (depth + 1) key block)
    (he : e ∈ node block) : key ≤ e.key := by
  obtain ⟨hsorted, hhead, -⟩ := h
  cases hes : node block with
  | nil =>
      rw [hes] at he
      cases he
  | cons a es =>
      rw [hes] at he hsorted hhead
      rw [List.map_cons] at hsorted
      have ha := hhead a rfl
      rcases List.mem_cons.mp he with rfl | he
      · exact ha
      · exact Nat.le_trans ha ((List.pairwise_cons.mp hsorted).1 _ (List.mem_map.mpr ⟨e, he, rfl⟩))

/-- Every path passes `cursor_check`. -/
theorem OnPath.check (h : OnPath node depth block path leaf)
    (hkeys : KeysInOrder node depth key block) : checkFrom node key block path leaf = true := by
  induction h generalizing key with
  | leaf block => exact beq_self_eq_true block
  | level hnext hentry h ih =>
      have hlt := (List.getElem?_eq_some_iff.mp hentry).1
      have hmem := List.mem_of_getElem? hentry
      have hle := hkeys.le hmem
      rw [checkFrom, hentry]
      simp only [Bool.and_eq_true, decide_eq_true_eq, beq_self_eq_true, true_and]
      exact ⟨⟨hnext, by omega⟩, hle, ih (hkeys.2.2 _ hmem)⟩

/-! ## Down to the first leaf -/

/-- The path to the first leaf below an entry. -/
theorem descend_spec {below next : ℕ} {e : IndexEntry} (hs : Sized node n below e.block)
    (hentry : (node block)[next]? = some e) :
    ∃ path leaf, descend node below ⟨block, next⟩ acc =
        some (path.reverse ++ ⟨block, next + 1⟩ :: acc, leaf) ∧
      OnPath node below e.block path leaf ∧
      ∀ low, leaves node below low e.block = (low, leaf) :: after node below path := by
  induction below generalizing block next e acc with
  | zero =>
      refine ⟨[], e.block, ?_, OnPath.leaf _, fun low => rfl⟩
      rw [descend, hentry]
      rfl
  | succ below ih =>
      obtain ⟨hne, -, hsub⟩ := hs
      obtain ⟨a, es, hes⟩ := List.exists_cons_of_ne_nil hne
      have hfirst : (node e.block)[0]? = some a := by
        rw [hes]
        rfl
      obtain ⟨path, leaf, hdescend, hpath, hleaves⟩ :=
        @ih e.block (⟨block, next + 1⟩ :: acc) 0 a (hsub a (hes ▸ List.mem_cons_self)) hfirst
      refine ⟨⟨e.block, 1⟩ :: path, leaf, ?_, OnPath.level Nat.one_pos hfirst hpath, fun low => ?_⟩
      · rw [descend, hentry]
        dsimp only
        rw [hdescend, List.reverse_cons, List.append_assoc]
        rfl
      · rw [leaves, hes, keyed, List.flatMap_cons, hleaves, after, hes, List.cons_append]
        rfl

theorem first_before {es : List (ℕ × ℕ)} {x y : ℕ × ℕ} {l : List (ℕ × ℕ)}
    (h : l ++ x :: es = y :: es) : l = [] ∧ x = y := by
  have hlen := congrArg List.length h
  rw [List.length_append, List.length_cons, List.length_cons] at hlen
  obtain rfl := List.eq_nil_of_length_eq_zero (show l.length = 0 by omega)
  exact ⟨rfl, (List.cons.inj h).1⟩

theorem take_keyed {next : ℕ} {e : IndexEntry} (hnext : 0 < next)
    (hentry : (node block)[next - 1]? = some e) :
    (keyed low (node block)).take next = (keyed low (node block)).take (next - 1) ++
      [⟨if next = 1 then low else e.key, e.block⟩] := by
  have hkey : (if next - 1 = 0 then low else e.key) = if next = 1 then low else e.key := by
    congr 1
    exact propext ⟨fun h => by omega, fun h => by omega⟩
  conv_lhs => rw [← Nat.sub_add_cancel hnext]
  rw [List.take_add_one, keyed_getElem low hentry, hkey]
  rfl

/-! ## The next leaf -/

/-- A path one place to the right of another. -/
structure Next (node : Nodes) (depth block : ℕ) (path : List PathLevel) (leaf : ℕ)
    (path' : List PathLevel) (leaf' : ℕ) : Prop where
  onPath : OnPath node depth block path' leaf'
  before_eq : ∀ low, before node depth path' low =
    before node depth path low ++ [(lowKey node path low, leaf)]
  after_eq : ∀ low, after node depth path = (lowKey node path' low, leaf') :: after node depth path'

/-- The step within a node: from the last leaf below an entry to the first one below the next. -/
theorem next_entry {next : ℕ} {e e' : IndexEntry} {path' : List PathLevel} {leaf' : ℕ}
    (hnext : 0 < next) (hentry : (node block)[next - 1]? = some e)
    (hentry' : (node block)[next]? = some e') (hpath : OnPath node depth e.block path leaf)
    (hpath' : OnPath node depth e'.block path' leaf') (hlast : after node depth path = [])
    (hfirst : ∀ low, leaves node depth low e'.block = (low, leaf') :: after node depth path') :
    Next node (depth + 1) block (⟨block, next⟩ :: path) leaf (⟨block, next + 1⟩ :: path') leaf' := by
  have hstart : ∀ low, before node depth path' low = [] ∧ (lowKey node path' low, leaf') = (low, leaf') :=
    fun low => first_before ((leaves_path hpath' low).symm.trans (hfirst low))
  obtain ⟨hlt, heq⟩ := List.getElem?_eq_some_iff.mp hentry'
  refine ⟨OnPath.level (Nat.succ_pos next) hentry' hpath', fun low => ?_, fun low => ?_⟩
  · rw [before, before, lowKey]
    dsimp only
    rw [Nat.add_sub_cancel, hentry, hentry', (hstart _).1, List.append_nil, take_keyed hnext hentry,
      List.flatMap_append, List.append_assoc]
    congr 1
    rw [List.flatMap_singleton, leaves_path hpath, hlast]
    rfl
  · rw [after, after, hlast, lowKey]
    dsimp only
    rw [Nat.add_sub_cancel, hentry', List.drop_eq_getElem_cons hlt, heq, List.flatMap_cons, hfirst,
      (hstart _).2, if_neg (by omega)]
    rfl

/-- The levels that `advance` climbs, and where it goes down. -/
theorem climb_spec (h : OnPath node depth block path leaf) (hs : Sized node n depth block) :
    (after node depth path = [] → climb node (path.reverse ++ acc) = climb node acc) ∧
      (after node depth path ≠ [] → ∃ at' upper path' leaf',
        climb node (path.reverse ++ acc) = at' :: upper ∧
        descend node (depth + acc.length - (upper.length + 1)) at' upper =
          some (path'.reverse ++ acc, leaf') ∧ Next node depth block path leaf path' leaf') := by
  induction h generalizing acc with
  | leaf block => exact ⟨fun _ => rfl, fun hne => absurd rfl hne⟩
  | @level depth block next e path leaf hnext hentry hpath ih =>
      obtain ⟨hlast, hmore⟩ := @ih (⟨block, next⟩ :: acc) (hs.2.2 e (List.mem_of_getElem? hentry))
      have hlt := (List.getElem?_eq_some_iff.mp hentry).1
      have happend : (⟨block, next⟩ :: path).reverse ++ acc = path.reverse ++ ⟨block, next⟩ :: acc := by
        rw [List.reverse_cons, List.append_assoc]
        rfl
      rw [happend]
      by_cases hp : after node depth path = []
      · rw [hlast hp, climb]
        dsimp only
        by_cases hend : next = (node block).length
        · rw [if_pos hend]
          refine ⟨fun _ => rfl, fun hne => absurd ?_ hne⟩
          rw [after, hp]
          dsimp only
          rw [hend, List.drop_length]
          rfl
        · rw [if_neg hend]
          have hlt' : next < (node block).length := by omega
          have hentry' := List.getElem?_eq_getElem hlt'
          obtain ⟨path', leaf', hdescend, hpath', hfirst⟩ :=
            @descend_spec node n block acc depth next _ (hs.2.2 _ (List.getElem_mem hlt')) hentry'
          refine ⟨fun hnil => ?_, fun _ => ⟨⟨block, next⟩, acc, ⟨block, next + 1⟩ :: path', leaf', rfl,
            ?_, next_entry hnext hentry hentry' hpath hpath' hp hfirst⟩⟩
          · rw [after, hp, List.nil_append] at hnil
            dsimp only at hnil
            rw [List.drop_eq_getElem_cons hlt', List.flatMap_cons, hfirst] at hnil
            cases hnil
          · rw [show depth + 1 + acc.length - (acc.length + 1) = depth by omega, hdescend,
              List.reverse_cons, List.append_assoc]
            rfl
      · obtain ⟨at', upper, path', leaf', hclimb, hdescend, hN⟩ := hmore hp
        refine ⟨fun hnil => absurd (List.append_eq_nil_iff.mp hnil).1 hp, fun _ =>
          ⟨at', upper, ⟨block, next⟩ :: path', leaf', hclimb, ?_, ?_, fun low => ?_, fun low => ?_⟩⟩
        · rw [List.reverse_cons, List.append_assoc]
          rw [List.length_cons] at hdescend
          rw [show depth + 1 + acc.length = depth + (acc.length + 1) by omega]
          exact hdescend
        · exact OnPath.level hnext hentry hN.onPath
        · rw [before, before, lowKey]
          dsimp only
          rw [hN.before_eq, List.append_assoc]
        · rw [after, after, lowKey]
          dsimp only
          rw [hN.after_eq, List.cons_append]

end

section
variable {t : Tree} {n q : ℕ} {cursor : Cursor}

/-! ## The walk -/

/-- The stops of repeated calls of `advance`, with the leaf and a valid cursor at each. -/
inductive Walk (t : Tree) : Cursor → List ℕ → Prop where
  | empty {cursor : Cursor} (h : advance t cursor = some .empty) : Walk t cursor []
  | leaf {cursor cursor' : Cursor} {ls : List ℕ} (h : advance t cursor = some (.leaf cursor'))
      (hcheck : cursorCheck t cursor' = true) (hrest : Walk t cursor' ls) :
      Walk t cursor (cursor'.leaf :: ls)

/-- One call of `advance`. -/
theorem advance_spec (hs : Sized t.node n t.depth t.root)
    (h : OnPath t.node t.depth t.root cursor.path cursor.leaf) :
    (after t.node t.depth cursor.path = [] → advance t cursor = some .empty) ∧
      (after t.node t.depth cursor.path ≠ [] → ∃ cursor', advance t cursor = some (.leaf cursor') ∧
        Next t.node t.depth t.root cursor.path cursor.leaf cursor'.path cursor'.leaf) := by
  obtain ⟨hlast, hmore⟩ := @climb_spec t.node n t.depth t.root cursor.leaf cursor.path [] h hs
  rw [List.append_nil] at hlast hmore
  refine ⟨fun hnil => ?_, fun hne => ?_⟩
  · rw [advance, hlast hnil]
    rfl
  · obtain ⟨at', upper, path', leaf', hclimb, hdescend, hN⟩ := hmore hne
    rw [List.length_nil, Nat.add_zero, List.append_nil] at hdescend
    refine ⟨⟨path', leaf'⟩, ?_, hN⟩
    rw [advance, hclimb]
    dsimp only
    rw [hdescend, Option.map_some, List.reverse_reverse]

theorem walk_spec (hs : Sized t.node n t.depth t.root) (hkeys : KeysInOrder t.node t.depth 0 t.root)
    (h : OnPath t.node t.depth t.root cursor.path cursor.leaf) :
    Walk t cursor ((after t.node t.depth cursor.path).map Prod.snd) := by
  generalize hl : after t.node t.depth cursor.path = l
  induction l generalizing cursor with
  | nil => exact Walk.empty ((advance_spec hs h).1 hl)
  | cons y ys ih =>
      obtain ⟨cursor', hadvance, hN⟩ := (advance_spec hs h).2 (by rw [hl]; exact List.cons_ne_nil y ys)
      have hafter := hN.after_eq 0
      rw [hl] at hafter
      obtain ⟨rfl, hys⟩ := List.cons.inj hafter
      exact Walk.leaf hadvance (hN.onPath.check hkeys) (ih hN.onPath hys.symm)

/-- A probe ends in the last leaf whose separator is not above the key, `next_key` is the next
separator, and repeated calls of `advance` visit the leaves to the right in order. -/
theorem probe_walk (hs : Sized t.node n t.depth t.root)
    (hsorted : ((leaves t.node t.depth 0 t.root).map Prod.fst).Pairwise (· ≤ ·))
    (hkeys : KeysInOrder t.node t.depth 0 t.root) (key : ℕ) :
    ∃ cursor low b a, probeFrom t.node t.depth t.root key = some cursor ∧
      cursorCheck t cursor = true ∧
      leaves t.node t.depth 0 t.root = b ++ (low, cursor.leaf) :: a ∧
      low ≤ key ∧ (∀ y ∈ a, key < y.1) ∧
      nextKey t.node cursor.path = (a.head?.map Prod.fst).getD (2 ^ 64 - 1) ∧
      Walk t cursor (a.map Prod.snd) := by
  obtain ⟨cursor, hcursor, hpath, hlow, hafter⟩ := probe_spec hs hsorted (Nat.zero_le key)
  refine ⟨cursor, lowKey t.node cursor.path 0, before t.node t.depth cursor.path 0,
    after t.node t.depth cursor.path, hcursor, hpath.check hkeys, leaves_path hpath 0, hlow, hafter,
    ?_, walk_spec hs hkeys hpath⟩
  rw [nextKey, nextKeyp_eq hs hpath]

theorem probe_walk_root : ∃ cursor leaves,
    probeFrom (fun b => if b = 1 then [⟨0, 10⟩, ⟨5, 11⟩] else []) 1 1 4 = some cursor ∧
      Walk ⟨fun b => if b = 1 then [⟨0, 10⟩, ⟨5, 11⟩] else [], 1, 1⟩ cursor leaves := by
  obtain ⟨cursor, -, -, a, hcursor, -, -, -, -, -, hwalk⟩ :=
    probe_walk (n := 2) (t := ⟨fun b => if b = 1 then [⟨0, 10⟩, ⟨5, 11⟩] else [], 1, 1⟩)
      (by simp [Sized]) (by decide) (by simp [KeysInOrder]) 4
  exact ⟨cursor, _, hcursor, hwalk⟩

end

end Tux3.Btree
