import Tux3.Btree

/-!
# The order of a btree

A tree read from left to right is a list of separators and leaves. A cursor is a place in this
list, and probing finds the last separator that is not above the key.
-/
namespace Tux3.Btree

/-- The entries of a node whose first key is the separator of the node itself. -/
def keyed (low : ℕ) : List IndexEntry → List IndexEntry
  | [] => []
  | e :: es => ⟨low, e.block⟩ :: es

section
variable (node : Nodes)

/-- The separators and leaves below a block, in order. -/
def leaves : ℕ → ℕ → ℕ → List (ℕ × ℕ)
  | 0, low, block => [(low, block)]
  | depth + 1, low, block => (keyed low (node block)).flatMap fun e => leaves depth e.key e.block

/-- The blocks below a block. -/
def blocksOf : ℕ → ℕ → List ℕ
  | 0, block => [block]
  | depth + 1, block => block :: (node block).flatMap fun e => blocksOf depth e.block

/-- Every node has between one entry and as many as fit. -/
def Sized (entriesPerNode : ℕ) : ℕ → ℕ → Prop
  | 0, _ => True
  | depth + 1, block =>
      node block ≠ [] ∧ (node block).length ≤ entriesPerNode ∧
        ∀ e ∈ node block, Sized entriesPerNode depth e.block

/-- The path follows the entries before `->next` from a block to the leaf. -/
inductive OnPath : ℕ → ℕ → List PathLevel → ℕ → Prop where
  | leaf (block : ℕ) : OnPath 0 block [] block
  | level {depth block next : ℕ} {e : IndexEntry} {path : List PathLevel} {leaf : ℕ}
      (hnext : 0 < next) (hentry : (node block)[next - 1]? = some e)
      (h : OnPath depth e.block path leaf) : OnPath (depth + 1) block (⟨block, next⟩ :: path) leaf

/-- The separator of the leaf of a path. -/
def lowKey : List PathLevel → ℕ → ℕ
  | [], low => low
  | at' :: rest, low =>
      lowKey rest (if at'.next = 1 then low
        else ((node at'.block)[at'.next - 1]?.map IndexEntry.key).getD 0)

/-- The leaves to the left of a path. -/
def before : ℕ → List PathLevel → ℕ → List (ℕ × ℕ)
  | _, [], _ => []
  | 0, _, _ => []
  | depth + 1, at' :: rest, low =>
      ((keyed low (node at'.block)).take (at'.next - 1)).flatMap
          (fun e => leaves node depth e.key e.block) ++
        before depth rest (if at'.next = 1 then low
          else ((node at'.block)[at'.next - 1]?.map IndexEntry.key).getD 0)

/-- The leaves to the right of a path. -/
def after : ℕ → List PathLevel → List (ℕ × ℕ)
  | _, [] => []
  | 0, _ => []
  | depth + 1, at' :: rest =>
      after depth rest ++ ((node at'.block).drop at'.next).flatMap
        fun e => leaves node depth e.key e.block

end

/-- A well-formed tree: nodes of the right size, no block in two places, separators in order. -/
structure Tree.WellFormed (t : Tree) (entriesPerNode : ℕ) : Prop where
  sized : Sized t.node entriesPerNode t.depth t.root
  nodup : (blocksOf t.node t.depth t.root).Nodup
  sorted : ((leaves t.node t.depth 0 t.root).map Prod.fst).Pairwise (· ≤ ·)

section
variable {node node' : Nodes} {depth block low leaf : ℕ} {path : List PathLevel}
  {es : List IndexEntry}

/-! ## Entries and keys -/

@[simp] theorem keyed_length : (keyed low es).length = es.length := by
  cases es <;> rfl

theorem keyed_append {es' : List IndexEntry} (h : es ≠ []) :
    keyed low (es ++ es') = keyed low es ++ es' := by
  cases es with
  | nil => exact absurd rfl h
  | cons e es => rfl

theorem keyed_self {e : IndexEntry} (h : es.head? = some e) (hlow : low = e.key) :
    keyed low es = es := by
  cases es with
  | nil => rfl
  | cons a es =>
      cases h
      rw [keyed, hlow]

theorem keyed_getElem (low : ℕ) {n : ℕ} {e : IndexEntry} (h : es[n]? = some e) :
    (keyed low es)[n]? = some ⟨if n = 0 then low else e.key, e.block⟩ := by
  cases es with
  | nil => cases h
  | cons a es =>
      cases n with
      | zero =>
          cases h
          rfl
      | succ n =>
          rw [List.getElem?_cons_succ] at h
          rw [keyed, List.getElem?_cons_succ, h, if_neg (Nat.succ_ne_zero n)]

theorem keyed_drop {n : ℕ} (h : 0 < n) : (keyed low es).drop n = es.drop n := by
  cases es with
  | nil => rfl
  | cons a es =>
      obtain ⟨n, rfl⟩ := Nat.exists_eq_succ_of_ne_zero (Nat.pos_iff_ne_zero.mp h)
      rw [keyed, List.drop_succ_cons, List.drop_succ_cons]

theorem split_at {α : Type} {l : List α} {next : ℕ} {e : α} (hnext : 0 < next)
    (h : l[next - 1]? = some e) : l = l.take (next - 1) ++ e :: l.drop next := by
  obtain ⟨hlt, heq⟩ := List.getElem?_eq_some_iff.mp h
  have hdrop := List.drop_eq_getElem_cons hlt
  rw [heq, Nat.sub_add_cancel hnext] at hdrop
  rw [← hdrop, List.take_append_drop]

/-! ## Frames -/

theorem keyed_mem {e : IndexEntry} (h : e ∈ keyed low es) : ∃ e' ∈ es, e'.block = e.block := by
  cases es with
  | nil => cases h
  | cons a es =>
      rcases List.mem_cons.mp h with rfl | h
      · exact ⟨a, List.mem_cons_self, rfl⟩
      · exact ⟨e, List.mem_cons_of_mem a h, rfl⟩

theorem mem_child {e : IndexEntry} {x : ℕ} (he : e ∈ node block)
    (hx : x ∈ blocksOf node depth e.block) : x ∈ blocksOf node (depth + 1) block :=
  List.mem_cons_of_mem _ (List.mem_flatMap.mpr ⟨e, he, hx⟩)

/-- The subtree depends only on its blocks. -/
theorem subtree_congr (h : ∀ x ∈ blocksOf node depth block, node' x = node x) :
    blocksOf node' depth block = blocksOf node depth block ∧
      (∀ low, leaves node' depth low block = leaves node depth low block) ∧
      ∀ n, Sized node' n depth block ↔ Sized node n depth block := by
  induction depth generalizing block with
  | zero => exact ⟨rfl, fun _ => rfl, fun _ => Iff.rfl⟩
  | succ depth ih =>
      have hself : node' block = node block := h block List.mem_cons_self
      have hsub : ∀ e ∈ node block, ∀ x ∈ blocksOf node depth e.block, node' x = node x :=
        fun e he x hx => h x (mem_child he hx)
      refine ⟨?_, fun low => ?_, fun n => ?_⟩
      · rw [blocksOf, blocksOf, hself]
        congr 1
        exact List.flatMap_congr fun e he => (ih (hsub e he)).1
      · rw [leaves, leaves, hself]
        refine List.flatMap_congr fun e he => ?_
        obtain ⟨e', he', heq⟩ := keyed_mem he
        exact heq ▸ (ih (hsub e' he')).2.1 e.key
      · rw [Sized, Sized, hself]
        refine and_congr_right fun _ => and_congr_right fun _ => ?_
        exact forall₂_congr fun e he => (ih (hsub e he)).2.2 n

/-! ## Places -/

theorem leaves_path (h : OnPath node depth block path leaf) (low : ℕ) :
    leaves node depth low block =
      before node depth path low ++ (lowKey node path low, leaf) :: after node depth path := by
  induction h generalizing low with
  | leaf block => rfl
  | @level depth block next e path leaf hnext hentry h ih =>
      have hkeyed := split_at hnext (keyed_getElem low hentry)
      have hkey : (if next - 1 = 0 then low else e.key) =
          if next = 1 then low else ((node block)[next - 1]?.map IndexEntry.key).getD 0 := by
        rw [hentry]
        by_cases h1 : next = 1
        · rw [if_pos (by omega), if_pos h1]
        · rw [if_neg (by omega), if_neg h1]
          rfl
      rw [leaves, hkeyed, List.flatMap_append, List.flatMap_cons, keyed_drop hnext, ih, before,
        lowKey, after]
      dsimp only
      rw [hkey]
      simp only [List.append_assoc, List.cons_append]

theorem leaves_ne_nil {n : ℕ} (h : Sized node n depth block) (low : ℕ) :
    ∃ b rest, leaves node depth low block = (low, b) :: rest := by
  induction depth generalizing block low with
  | zero => exact ⟨block, [], rfl⟩
  | succ depth ih =>
      obtain ⟨hne, -, hsub⟩ := h
      match hes : node block with
      | [] => exact absurd hes hne
      | e :: es =>
          obtain ⟨b, rest, heq⟩ := ih (hsub e (hes ▸ List.mem_cons_self)) low
          refine ⟨b, rest ++ es.flatMap fun e => leaves node depth e.key e.block, ?_⟩
          rw [leaves, hes, keyed, List.flatMap_cons, heq, List.cons_append]

/-- `next_key` is the separator right of the leaf. -/
theorem nextKeyp_eq {n : ℕ} (hs : Sized node n depth block)
    (h : OnPath node depth block path leaf) :
    nextKeyp node path = (after node depth path).head?.map Prod.fst := by
  induction h with
  | leaf block => rfl
  | @level depth block next e path leaf hnext hentry h ih =>
      have hsub := hs.2.2 e (List.mem_of_getElem? hentry)
      rw [nextKeyp, after, ih hsub, List.head?_append]
      cases after node depth path with
      | cons x xs => rfl
      | nil =>
          rw [List.head?_nil, Option.map_none, Option.none_or, Option.none_or]
          cases hd : (node block)[next]? with
          | none =>
              rw [List.drop_eq_nil_of_le (List.getElem?_eq_none_iff.mp hd)]
              rfl
          | some e' =>
              obtain ⟨hlt, heq⟩ := List.getElem?_eq_some_iff.mp hd
              obtain ⟨b, rest, hl⟩ := leaves_ne_nil
                (hs.2.2 e' (heq ▸ List.getElem_mem hlt)) e'.key
              rw [List.drop_eq_getElem_cons hlt, heq, List.flatMap_cons, hl]
              rfl

end

end Tux3.Btree
