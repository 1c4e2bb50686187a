import Tux3.Basic
import Mathlib.Logic.Function.Basic

/-!
# The btree index

Index nodes, probing and index insertion of `btree.c`. The volume map holds the entries of each
index node; a leaf is its block. A cursor is the path of index levels, root first, and the leaf
level. A pointer `->next` into a node is the number of the entry.
-/
namespace Tux3.Btree

structure IndexEntry where
  key : ℕ
  block : ℕ
  deriving DecidableEq, Repr

/-- The index nodes by block; the count of a node is the length of its list. -/
abbrev Nodes := ℕ → List IndexEntry

structure Tree where
  node : Nodes
  root : ℕ
  depth : ℕ

/-- `struct path_level` of an index node. -/
structure PathLevel where
  block : ℕ
  next : ℕ
  deriving DecidableEq, Repr

structure Cursor where
  path : List PathLevel
  leaf : ℕ
  deriving DecidableEq, Repr

section
variable (node : Nodes)

/-! ## Probing -/

/-- The loop of `probe` over the entries of one node. -/
def probeNext (entries : List IndexEntry) (key : ℕ) : ℕ :=
  1 + ((entries.drop 1).takeWhile fun e => e.key ≤ key).length

/-- The levels below a block. -/
def probeFrom : ℕ → ℕ → ℕ → Option Cursor
  | 0, block, _ => some ⟨[], block⟩
  | depth + 1, block, key =>
      let next := probeNext (node block) key
      match (node block)[next - 1]? with
      | none => none
      | some entry =>
          (probeFrom depth entry.block key).map fun c => ⟨⟨block, next⟩ :: c.path, c.leaf⟩

/-- The separators of the levels that are not finished, lowest level first. -/
def nextKeyp : List PathLevel → Option ℕ
  | [] => none
  | at' :: rest => (nextKeyp rest).or ((node at'.block)[at'.next]?.map IndexEntry.key)

/-- `next_key`: `-1` without a separator. -/
def nextKey (path : List PathLevel) : ℕ := (nextKeyp node path).getD (2 ^ 64 - 1)

/-- The assertions of `cursor_check`, from a level with its block and the key of the entry above. -/
def checkFrom : ℕ → ℕ → List PathLevel → ℕ → Bool
  | _, block, [], leaf => leaf == block
  | key, block, at' :: rest, leaf =>
      at'.block == block && decide (0 < at'.next) && decide (at'.next ≤ (node at'.block).length) &&
        match (node at'.block)[at'.next - 1]? with
        | none => false
        | some entry => decide (key ≤ entry.key) && checkFrom entry.key entry.block rest leaf

/-! ## Walking -/

/-- The first loop of `advance`: the levels from the lowest one that is not finished. -/
def climb : List PathLevel → List PathLevel
  | [] => []
  | at' :: upper => if at'.next = (node at'.block).length then climb upper else at' :: upper

/-- The second loop, with as many levels below; `none` reads behind the entries of a node. -/
def descend : ℕ → PathLevel → List PathLevel → Option (List PathLevel × ℕ)
  | 0, at', upper =>
      (node at'.block)[at'.next]?.map fun entry =>
        ({ at' with next := at'.next + 1 } :: upper, entry.block)
  | below + 1, at', upper =>
      match (node at'.block)[at'.next]? with
      | none => none
      | some entry => descend below ⟨entry.block, 0⟩ ({ at' with next := at'.next + 1 } :: upper)

/-! ## Insertion -/

def addChild (entries : List IndexEntry) (p block key : ℕ) : List IndexEntry :=
  entries.take p ++ ⟨key, block⟩ :: entries.drop p

/-- A child that a level still has to take in: `childkey`, `childblock` and `keep`. -/
structure Child where
  key : ℕ
  block : ℕ
  keep : Bool
  deriving DecidableEq, Repr

/-- The state of the loop of `insert_leaf`: the levels done, the child for the level above, and
the blocks that the allocator gives next. -/
structure Loop where
  node : Nodes
  path : List PathLevel
  child : Option Child
  blocks : List ℕ

/-- One round of the loop. -/
def insertLevel (entriesPerNode : ℕ) (at' : PathLevel) (s : Loop) (child : Child) : Option Loop :=
  let parent := s.node at'.block
  if parent.length < entriesPerNode then
    some { s with
      node := Function.update s.node at'.block (addChild parent at'.next child.block child.key)
      path := (if child.keep then at' else { at' with next := at'.next + 1 }) :: s.path
      child := none }
  else
    match s.blocks with
    | [] => none
    | newbuf :: blocks =>
        let half := parent.length / 2
        let newkey := (parent[half]?.map IndexEntry.key).getD 0
        let node := Function.update (Function.update s.node newbuf (parent.drop half)) at'.block
          (parent.take half)
        let childIsLeft := at'.next ≤ half
        let at' := if childIsLeft then at' else ⟨newbuf, at'.next - half⟩
        let node := Function.update node at'.block
          (addChild (node at'.block) at'.next child.block child.key)
        let at' := if child.keep then at' else { at' with next := at'.next + 1 }
        some ⟨node, at' :: s.path, some ⟨newkey, newbuf, child.keep || childIsLeft⟩, blocks⟩

/-- The loop of `insert_leaf`, from the lowest level up. -/
def insertLevels (entriesPerNode : ℕ) (blocks : List ℕ) (child : Child) :
    List PathLevel → Option Loop
  | [] => some ⟨node, [], some child, blocks⟩
  | at' :: rest =>
      match insertLevels entriesPerNode blocks child rest with
      | none => none
      | some s =>
          match s.child with
          | none => some { s with path := at' :: s.path }
          | some child => insertLevel entriesPerNode at' s child

/-- The nodes at the label `eek` when the loop gets there. -/
def eekLevels (entriesPerNode : ℕ) (blocks : List ℕ) (child : Child) :
    List PathLevel → Option Nodes
  | [] => none
  | at' :: rest =>
      match insertLevels node entriesPerNode blocks child rest with
      | none => eekLevels entriesPerNode blocks child rest
      | some s =>
          match s.child with
          | none => none
          | some child =>
              match insertLevel entriesPerNode at' s child with
              | none => some s.node
              | some _ => none

end

def cursorCheck (t : Tree) (cursor : Cursor) : Bool :=
  checkFrom t.node 0 t.root cursor.path cursor.leaf

/-- How `advance` returns: 1, or 0 with an empty cursor. -/
inductive Advanced where
  | leaf (cursor : Cursor)
  | empty
  deriving DecidableEq, Repr

def advance (t : Tree) (cursor : Cursor) : Option Advanced :=
  match climb t.node cursor.path.reverse with
  | [] => some .empty
  | at' :: upper =>
      (descend t.node (t.depth - (upper.length + 1)) at' upper).map fun r =>
        .leaf ⟨r.1.reverse, r.2⟩

/-- The block of the first level. -/
def topBlock (path : List PathLevel) (leaf : ℕ) : ℕ := (path.head?.map PathLevel.block).getD leaf

/-- `insert_leaf`; a result `none` is a failed allocation of a node. -/
def insertLeaf (t : Tree) (entriesPerNode : ℕ) (blocks : List ℕ) (cursor : Cursor)
    (childkey leafbuf : ℕ) (keep : Bool) : Option (Tree × Cursor) :=
  let leaf := if keep then cursor.leaf else leafbuf
  match insertLevels t.node entriesPerNode blocks ⟨childkey, leafbuf, keep⟩ cursor.path with
  | none => none
  | some s =>
      match s.child with
      | none => some ({ t with node := s.node }, ⟨s.path, leaf⟩)
      | some child =>
          match s.blocks with
          | [] => none
          | newroot :: _ =>
              let leftNode := topBlock s.path leaf ≠ child.block
              let next := if leftNode then 1 else 2
              some (⟨Function.update s.node newroot [⟨0, t.root⟩, ⟨child.key, child.block⟩],
                newroot, t.depth + 1⟩, ⟨⟨newroot, next⟩ :: s.path, leaf⟩)

/-- The tree that `insert_leaf` leaves behind at `eek`. -/
def eek (t : Tree) (entriesPerNode : ℕ) (blocks : List ℕ) (cursor : Cursor)
    (childkey leafbuf : ℕ) (keep : Bool) : Option Tree :=
  match insertLevels t.node entriesPerNode blocks ⟨childkey, leafbuf, keep⟩ cursor.path with
  | none =>
      (eekLevels t.node entriesPerNode blocks ⟨childkey, leafbuf, keep⟩ cursor.path).map fun node =>
        { t with node := node }
  | some s =>
      match s.child, s.blocks with
      | some _, [] => some { t with node := s.node }
      | _, _ => none

end Tux3.Btree
