import Tux3.BtreeWalk
import Tux3.Dleaf

/-!
# Truncating a file btree

`tree_chop` of `btree.c` over the leaves of `dleaf.c`, without `ATOMIC` and without a limit of
blocks. It walks the leaves from the one of the key to the right, and merges each leaf and each
node that is done into the one before it. The buffers that it holds are block numbers, and the state
keeps the calls of `bfree`.
-/
namespace Tux3.TreeChop

open Btree Dleaf

/-- A file btree: the index and its leaves. -/
structure Dtree extends Tree where
  leaf : ℕ → Leaf

/-- The variables of `tree_chop`; `prev` is from the root level down. -/
structure Chop where
  node : Nodes
  leaf : ℕ → Leaf
  root : ℕ
  depth : ℕ
  prev : List (Option ℕ)
  leafprev : Option ℕ
  freed : List (ℕ × ℕ)

/-- Where the loops are: with a leaf in hand, at the condition of the loop that pops the levels, or
out of them. The cursor is the path, lowest level first. -/
inductive Control where
  | atLeaf (path : List PathLevel) (leafbuf : ℕ)
  | popping (path : List PathLevel)
  | finished

/-- The climb of `remove_index` to the common parent. -/
def setSeparator (node : Nodes) (sep : ℕ) : List PathLevel → Nodes
  | [] => node
  | at' :: upper =>
      if at'.next - 1 = 0 then setSeparator node sep upper
      else Function.update node at'.block
        ((node at'.block).modify (at'.next - 1) fun e => { e with key := sep })

/-- `remove_index` at the lowest level of a path. -/
def removeIndex (node : Nodes) : List PathLevel → Nodes × List PathLevel
  | [] => (node, [])
  | at' :: upper =>
      let entries := (node at'.block).eraseIdx (at'.next - 1)
      let node := Function.update node at'.block entries
      let next := at'.next - 1
      match entries[next]? with
      | none => (node, ⟨at'.block, next⟩ :: upper)
      | some first =>
          (if next = 0 then setSeparator node first.key upper else node,
            ⟨at'.block, next⟩ :: upper)

section
variable (blocksize entriesPerNode key : ℕ)

/-- The part of the loop that chops a leaf and tries to merge it; `none` where an assertion
fails. -/
def chopLeaf (s : Chop) (path : List PathLevel) (leafbuf : ℕ) : Option (Chop × Control) :=
  match dleafChop blocksize (s.leaf leafbuf) key with
  | none => none
  | some (this, freed) =>
      let s := { s with
        leaf := Function.update s.leaf leafbuf this
        freed := s.freed ++ freed }
      match s.leafprev with
      | none => some ({ s with leafprev := some leafbuf }, .popping path)
      | some leafprev =>
          if dleafNeed blocksize this ≤ dleafFree (s.leaf leafprev) then
            (dleafMerge blocksize (s.leaf leafprev) this).map fun merged =>
              let removed := removeIndex s.node path
              ({ s with
                node := removed.1
                leaf := Function.update s.leaf leafprev merged
                freed := s.freed ++ [(leafbuf, 1)] }, .popping removed.2)
          else some ({ s with leafprev := some leafbuf }, .popping path)

/-- The loop that drops root levels with one entry, with the depth. -/
def dropLevels : ℕ → Chop → Option Chop
  | 0, s => some s
  | 1, s => some s
  | depth + 2, s =>
      match s.prev with
      | some top :: some below :: rest =>
          if (s.node top).length = 1 then
            dropLevels (depth + 1) { s with
              root := below
              depth := depth + 1
              prev := some below :: rest
              freed := s.freed ++ [(top, 1)] }
          else some s
      | _ => none

/-- Above a level that is popped, the loop goes on, or it is done with the root. -/
def popped (s : Chop) (upper : List PathLevel) : Option (Chop × Control) :=
  match upper with
  | [] => (dropLevels s.depth s).map fun s => (s, .finished)
  | _ => some (s, .popping upper)

/-- A round of the loop that pops a finished level and tries to merge its node. -/
def popLevel (s : Chop) (at' : PathLevel) (upper : List PathLevel) : Option (Chop × Control) :=
  let level := upper.length
  let this := s.node at'.block
  match (s.prev[level]?).join with
  | none => popped { s with prev := s.prev.set level (some at'.block) } upper
  | some that =>
      if level = 0 then none
      else if this.length ≤ entriesPerNode - (s.node that).length then
        let node := Function.update s.node that (s.node that ++ this)
        let removed := removeIndex node upper
        popped { s with
          node := removed.1
          freed := s.freed ++ [(at'.block, 1)] } removed.2
      else popped { s with prev := s.prev.set level (some at'.block) } upper

/-- One round of `tree_chop` between two places of control. -/
def chopStep : Chop × Control → Option (Chop × Control)
  | (_, .finished) => none
  | (s, .atLeaf path leafbuf) => chopLeaf blocksize key s path leafbuf
  | (_, .popping []) => none
  | (s, .popping (at' :: upper)) =>
      if at'.next = (s.node at'.block).length then popLevel entriesPerNode s at' upper
      else
        (descend s.node (s.depth - (upper.length + 1)) at' upper).map fun r =>
          (s, .atLeaf r.1 r.2)

/-- At most so many rounds. -/
def chopRun : ℕ → Chop × Control → Option (Chop × Control)
  | 0, c => some c
  | rounds + 1, c =>
      match c.2 with
      | .finished => some c
      | _ => (chopStep blocksize entriesPerNode key c).bind (chopRun rounds)

def Dtree.hasRoot (t : Dtree) : Bool := t.root != 0 || t.depth != 0

/-- The variables at the start of the loop. -/
def Dtree.chop (t : Dtree) : Chop :=
  ⟨t.node, t.leaf, t.root, t.depth, List.replicate t.depth none, none, []⟩

/-- The tree that is left. -/
def Chop.tree (s : Chop) : Dtree := ⟨⟨s.node, s.root, s.depth⟩, s.leaf⟩

/-- `tree_chop` in so many rounds; `none` where an assertion fails or the rounds are not enough. -/
def treeChop (rounds : ℕ) (t : Dtree) : Option Chop :=
  if t.hasRoot = false then some t.chop
  else
    match probeFrom t.node t.depth t.root key with
    | none => none
    | some cursor =>
        match chopRun blocksize entriesPerNode key rounds
            (t.chop, .atLeaf cursor.path.reverse cursor.leaf) with
        | some (s, .finished) => some s
        | _ => none

end

/-- `free_empty_btree`: the calls of `bfree`; `none` where an assertion fails. -/
def freeEmptyBtree (t : Dtree) : Option (List (ℕ × ℕ)) :=
  if t.hasRoot = false then some []
  else if t.depth = 1 then
    match t.node t.root with
    | [entry] => some [(entry.block, 1), (t.root, 1)]
    | _ => none
  else none

end Tux3.TreeChop
