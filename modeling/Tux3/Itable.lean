import Tux3.IleafRecords
import Tux3.BtreeFailure

/-!
# Growing the inode table

`tree_expand` over the leaves of the inode table, without redirects. The table is the btree and the
leaves by block; `blocks` are the blocks that the allocator gives next, the leaf first.
-/
namespace Tux3.Itable

open Tux3.Btree

structure Table where
  tree : Tree
  leaf : ℕ → Ileaf

/-- How `tree_expand` ends. -/
inductive Expanded where
  | space (t : Table) (block offset : ℕ)
  | error
  /-- `assert(!i)` -/
  | assertion

/-- `alloc_empty_btree`. -/
def allocEmptyBtree (node : Nodes) (leaf : ℕ → Ileaf) (rootblock leafblock : ℕ) : Table :=
  ⟨⟨Function.update node rootblock [⟨0, leafblock⟩], rootblock, 1⟩,
    Function.update leaf leafblock ileafInit⟩

section
variable (blockbits entriesPerNode : ℕ) (t : Table) (blocks : List ℕ) (cursor : Cursor) (key : ℕ)

/-- `btree_leaf_split`. -/
def btreeLeafSplit : Option (Table × Cursor) :=
  match blocks with
  | [] => none
  | newbuf :: blocks =>
      let (from', into) := ileafSplit blockbits (t.leaf cursor.leaf) key
      let newkey := into.ibase
      let leaf := Function.update (Function.update t.leaf newbuf into) cursor.leaf from'
      match insertLeaf t.tree entriesPerNode blocks cursor newkey newbuf (key < newkey) with
      | none => none
      | some (tree, cursor) => some (⟨tree, leaf⟩, cursor)

/-- `leaf_resize` of the leaf of a cursor. -/
def resizeAt (newsize : ℕ) : Option (Table × ℕ × ℕ) :=
  (ileafResize blockbits (t.leaf cursor.leaf) key newsize).map fun r =>
    ({ t with leaf := Function.update t.leaf cursor.leaf r.2 }, cursor.leaf, r.1)

def treeExpand (newsize : ℕ) : Expanded :=
  match resizeAt blockbits t cursor key newsize with
  | some (t, block, offset) => .space t block offset
  | none =>
      match btreeLeafSplit blockbits entriesPerNode t blocks cursor key with
      | none => .error
      | some (t, cursor) =>
          match resizeAt blockbits t cursor key newsize with
          | some (t, block, offset) => .space t block offset
          | none => .assertion

/-- The table that `btree_leaf_split` leaves behind when it fails. -/
def leafSplitEek : Option Table :=
  match blocks with
  | [] => some t
  | newbuf :: blocks =>
      let (from', into) := ileafSplit blockbits (t.leaf cursor.leaf) key
      let newkey := into.ibase
      let leaf := Function.update (Function.update t.leaf newbuf into) cursor.leaf from'
      (eek t.tree entriesPerNode blocks cursor newkey newbuf (key < newkey)).map fun tree =>
        ⟨tree, leaf⟩

/-- The table that `tree_expand` leaves behind when it returns an error. -/
def expandEek (newsize : ℕ) : Option Table :=
  match resizeAt blockbits t cursor key newsize with
  | some _ => none
  | none => leafSplitEek blockbits entriesPerNode t blocks cursor key

end

/-- The caller of `tree_expand` writes the attributes to the space. -/
def Table.write (t : Table) (block offset : ℕ) (data : List UInt8) : Table :=
  { t with leaf := Function.update t.leaf block { t.leaf block with
      table := fun x => if offset ≤ x ∧ x < offset + data.length then data.getD (x - offset) 0
        else (t.leaf block).table x } }

/-- The attributes that a probe and `ileaf_lookup` find; `none` where an assertion fails. -/
def Table.lookup (blockbits : ℕ) (t : Table) (inum : ℕ) : Option (List UInt8) :=
  match t.tree.reached inum with
  | none => none
  | some block => (ileafLookup blockbits (t.leaf block) inum).map fun r =>
      bytes (t.leaf block).table r.2 r.1

end Tux3.Itable
