import Tux3.TreeChop
import Tux3.DleafAdd

/-!
# Mapping file regions

`map_region` of `filemap.c`, without `ATOMIC`, so that `cursor_redirect` does nothing. The allocator
is the list of the blocks that it hands out, and fails where the list ends.
-/
namespace Tux3.MapRegion

open Btree Dleaf TreeChop

/-- `seg.state`: 0, `SEG_HOLE` or `SEG_NEW`. -/
inductive SegState where
  | mapped
  | hole
  | new
  deriving DecidableEq, Repr

structure Seg where
  block : ℕ
  count : ℕ
  state : SegState
  deriving DecidableEq, Repr

/-- What the allocator hands out: to `alloc_empty_btree`, to the holes, and to each new leaf with
the index nodes that its insertion takes. -/
structure Supply where
  root : List ℕ
  data : List ℕ
  leaves : List (ℕ × List ℕ)

/-! ## The segments of a region -/

/-- The loop over the extents, with so many segments left: the segments, and the index and the walk
after it. -/
def walkSegs (leaf : Leaf) (limit : ℕ) : ℕ → ℕ → Dwalk → List Seg × ℕ × Dwalk
  | 0, index, walk => ([], index, walk)
  | left + 1, index, walk =>
      if index < limit then
        let exIndex := if dwalkEnd walk then limit else dwalkIndex leaf walk
        if index < exIndex then
          let exIndex := min exIndex limit
          let r := walkSegs leaf limit left exIndex walk
          (⟨0, exIndex - index, .hole⟩ :: r.1, r.2)
        else
          let extent := leaf.extentAt walk.extent
          let r := walkSegs leaf limit left (exIndex + extent.count) (dwalkNext leaf walk).1
          (⟨extent.block, extent.count, .mapped⟩ :: r.1, r.2)
      else ([], index, walk)

/-- The blocks below and above the region are cut off. -/
def trim (below above : ℕ) (map : List Seg) : List Seg :=
  let map := map.modify 0 fun s =>
    { s with
      block := s.block + below
      count := s.count - below }
  map.modify (map.length - 1) fun s => { s with count := s.count - above }

def total (map : List Seg) : ℕ := (map.map Seg.count).sum

/-- The calls of `map_bfree` when a region is redirected. -/
def overwritten (map : List Seg) : List (ℕ × ℕ) :=
  (map.filter fun s => s.state ≠ .hole).map fun s => (s.block, s.count)

/-- The loop of `balloc` over the holes: the segments, unless it fails, and the blocks allocated. -/
def fillHoles (state : SegState) : List ℕ → List Seg → Option (List Seg) × List (ℕ × ℕ)
  | _, [] => (some [], [])
  | blocks, s :: map =>
      if s.state = .hole then
        match blocks with
        | [] => (none, [])
        | block :: blocks =>
            let r := fillHoles state blocks map
            (r.1.map (⟨block, s.count, state⟩ :: ·), (block, s.count) :: r.2)
      else
        let r := fillHoles state blocks map
        (r.1.map (s :: ·), r.2)

/-! ## Packing -/

/-- What a round of the packing loop gets: `index` when the round starts, and the arguments of
`dwalk_add`. -/
structure Piece where
  key : ℕ
  index : ℕ
  extent : Extent

def segPieces : ℕ → List Seg → List Piece
  | _, [] => []
  | index, s :: map => ⟨index, index, ⟨s.block, s.count⟩⟩ :: segPieces (index + s.count) map

/-- The rounds of the packing loop: the part below the region, the segments and the part above. -/
def pieces (start below belowBlock above aboveBlock : ℕ) (map : List Seg) : List Piece :=
  (if below = 0 then [] else [⟨start, start - below, ⟨belowBlock, below⟩⟩]) ++
    segPieces start map ++
      if above = 0 then []
      else [⟨start + total map, start + total map, ⟨aboveBlock, above⟩⟩]

/-- The state of the packing loop: `headwalk` is at the leaf of the cursor. -/
structure PackState where
  tree : Dtree
  cursor : Cursor
  walk : Dwalk
  leaves : List (ℕ × List ℕ)

/-- How a new leaf is put behind the leaf of the cursor: it is not allocated, it is allocated but
`btree_insert_leaf` fails, or the cursor is at it. -/
inductive Inserted where
  | refused
  | unlinked (tree : Dtree)
  | linked (s : PackState)

section
variable (blocksize entriesPerNode : ℕ)

/-- `new_leaf` and `btree_insert_leaf`; `none` where `cursor_check` fails below a new root. -/
def insertNewLeaf (key : ℕ) (content : Leaf) (s : PackState) : Option Inserted :=
  match s.leaves with
  | [] => some .refused
  | (leafbuf, blocks) :: leaves =>
      let leaf := Function.update s.tree.leaf leafbuf content
      match insertLeaf s.tree.toTree entriesPerNode blocks s.cursor key leafbuf false with
      | none =>
          (eek s.tree.toTree entriesPerNode blocks s.cursor key leafbuf false).map fun tree =>
            .unlinked ⟨tree, leaf⟩
      | some (tree, cursor) =>
          if tree.depth = s.tree.depth ∨ cursorCheck tree cursor = true then
            some (.linked ⟨⟨tree, leaf⟩, cursor, (dwalkProbe content key).1, leaves⟩)
          else none

/-- How the packing loop and the tail end: with a tree, or with an error and the tree so far. -/
inductive Packed where
  | done (s : PackState)
  | failed (tree : Dtree)

/-- A round of the packing loop; `none` where an assertion fails, or where `btree_insert_leaf` fails
and the loop goes on with a cursor that is released. -/
def packPiece (p : Piece) (s : PackState) : Option Packed :=
  let add (s : PackState) : Option Packed :=
    (dwalkAdd blocksize (s.tree.leaf s.cursor.leaf) s.walk p.index p.extent).map fun r =>
      .done { s with
        tree := { s.tree with leaf := Function.update s.tree.leaf s.cursor.leaf r.1 }
        walk := r.2 }
  if dleafFree (s.tree.leaf s.cursor.leaf) < DLEAF_MAX_EXTENT_SIZE then
    match insertNewLeaf entriesPerNode p.key (dleafInit blocksize) s with
    | none => none
    | some .refused => some (.failed s.tree)
    | some (.unlinked _) => none
    | some (.linked s) => add s
  else add s

def packAll : List Piece → PackState → Option Packed
  | [], s => some (.done s)
  | p :: ps, s =>
      match packPiece blocksize entriesPerNode p s with
      | some (.done s) => packAll ps s
      | r => r

/-- The extents behind the region go into the leaf, or into a leaf of their own. -/
def packTail (tailkey : ℕ) (tail : Leaf) (s : PackState) : Option Packed :=
  let leaf := s.tree.leaf s.cursor.leaf
  if dleafNeed blocksize tail < dleafFree leaf then
    (dleafMerge blocksize leaf tail).map fun merged =>
      .done { s with
        tree := { s.tree with leaf := Function.update s.tree.leaf s.cursor.leaf merged } }
  else if tail.groups.length < 1 then none
  else
    match insertNewLeaf entriesPerNode tailkey tail s with
    | none => none
    | some .refused => some (.failed s.tree)
    | some (.unlinked tree) => some (.failed tree)
    | some (.linked s) => some (.done s)

/-- From the chop of the leaf on. -/
def repack (ps : List Piece) (walk headwalk : Dwalk) (leaves : List (ℕ × List ℕ)) (t : Dtree)
    (cursor : Cursor) : Option Packed :=
  let leaf := t.leaf cursor.leaf
  match dwalkCopy blocksize leaf walk (dleafInit blocksize), dwalkChop blocksize leaf headwalk with
  | some tail, some (head, headwalk) =>
      let t := { t with leaf := Function.update t.leaf cursor.leaf head }
      match packAll blocksize entriesPerNode ps ⟨t, cursor, headwalk, leaves⟩ with
      | some (.done s) =>
          if dwalkEnd walk then some (.done s)
          else packTail blocksize entriesPerNode (dwalkIndex leaf walk) tail s
      | r => r
  | _, _ => none

/-! ## `map_region` -/

/-- What a call returns, and leaves behind: the segments, or `none` for an error, the tree, the
calls of `balloc` for the holes and those of `map_bfree`. -/
structure Mapped where
  map : Option (List Seg)
  tree : Dtree
  allocated : List (ℕ × ℕ)
  freed : List (ℕ × ℕ)

/-- The region is read, and written unless `create` is 0. -/
def mapLeaf (t : Dtree) (cursor : Cursor) (supply : Supply) (start count maxSegs create : ℕ) :
    Option Mapped :=
  let leaf := t.leaf cursor.leaf
  let walk := (dwalkProbe leaf start).1
  let limit := min (start + count) (nextKey t.node cursor.path)
  let segStart :=
    if !dwalkEnd walk && decide (dwalkIndex leaf walk < start) then dwalkIndex leaf walk else start
  match walkSegs leaf limit maxSegs start walk with
  | (map, index, walk') =>
      let below := start - segStart
      let above := index - min index limit
      let map := trim below above map
      if map = [] then none
      else if create = 0 then some ⟨some map, t, [], []⟩
      else
        let belowBlock := (map.head?.map Seg.block).getD 0 - below
        let aboveBlock := (map.getLast?.map fun s => s.block + s.count).getD 0
        let freed := if create = 2 then overwritten map else []
        let map := if create = 2 then [⟨0, total map, .hole⟩] else map
        let state := if create = 2 then .mapped else .new
        match fillHoles state supply.data map with
        | (none, allocated) => some ⟨none, t, allocated, freed⟩
        | (some map, allocated) =>
            (repack blocksize entriesPerNode (pieces start below belowBlock above aboveBlock map)
                walk' walk supply.leaves t cursor).map fun
              | .done s => ⟨some map, s.tree, allocated, freed⟩
              | .failed tree => ⟨none, tree, allocated, freed⟩

/-- `alloc_empty_btree`. -/
def emptyBtree (root leaf : ℕ) (t : Dtree) : Dtree :=
  ⟨⟨Function.update t.node root [⟨0, leaf⟩], root, 1⟩,
    Function.update t.leaf leaf (dleafInit blocksize)⟩

/-- `map_region` of a btree with a root. -/
def mapProbed (t : Dtree) (supply : Supply) (start count maxSegs create : ℕ) : Option Mapped :=
  match probeFrom t.node t.depth t.root start with
  | none => none
  | some cursor => mapLeaf blocksize entriesPerNode t cursor supply start count maxSegs create

/-- `map_region`; `none` where an assertion fails, or where the cursor is used after its release. A
btree without a root is one hole to read. -/
def mapRegion (t : Dtree) (supply : Supply) (start count maxSegs create : ℕ) : Option Mapped :=
  if t.hasRoot = true then mapProbed blocksize entriesPerNode t supply start count maxSegs create
  else if create = 0 then
    if count = 0 then none else some ⟨some [⟨0, count, .hole⟩], t, [], []⟩
  else
    match supply.root with
    | root :: leaf :: _ =>
        mapProbed blocksize entriesPerNode (emptyBtree blocksize root leaf t) supply start count
          maxSegs create
    | _ => some ⟨none, t, [], []⟩

end

end Tux3.MapRegion
