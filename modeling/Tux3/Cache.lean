import Tux3.Bitops

/-!
# Buffers of the bitmap file

The buffer cache of `user/buffer.c` for one mapping, `blockdirty` of `user/filemap.c` and
`clean_buffer` of `kernel/commit.c`. A buffer is a number, its address. Memory suffices for
new buffers, in the pool or by eviction of clean ones; a failed `assert` stops the program.
-/
namespace Tux3.Cache

/-- Why a program stops: an assertion of the buffer code or of `write_bitmap`, or one of the
allocator (which also stops on a double free). -/
inductive Stop where
  | buffer
  | balloc
  deriving DecidableEq, Repr

/-- `BUFFER_FREED`, `BUFFER_EMPTY`, `BUFFER_CLEAN` and `BUFFER_DIRTY + cycle`. -/
inductive State where
  | freed
  | empty
  | clean
  | dirty (cycle : ℕ)
  deriving DecidableEq, Repr

/-- `BUFFER_DIRTY_STATES`. -/
def dirtyStates : ℕ := 4

/-- `struct buffer_head`. -/
structure Buffer where
  count : ℕ
  state : State
  index : ℕ
  data : Bytes

/-- The mapping of the bitmap file: all buffers by address, the hash by block index, the list
`map->dirty`, the list `io_buffers` of `rollup_log`, and the first address never used. -/
structure Map where
  buffer : ℕ → Buffer
  hash : ℕ → Option ℕ
  dirty : List ℕ
  io : List ℕ
  fresh : ℕ

/-- What the bitmap file shares with the rest of the program: the buffers `new_buffer` looks at
to evict, in LRU order, and the blocks the read side of `filemap_extent_io` finds on disk
from a block on, none when it fails. -/
structure Env where
  victims : Map → List ℕ
  load : Map → ℕ → List Bytes

section
variable (env : Env) (map : Map) (id : ℕ)

def Map.setBuffer (buffer : Buffer) : Map :=
  { map with buffer := Function.update map.buffer id buffer }

def getBh : Map := map.setBuffer id { map.buffer id with count := (map.buffer id).count + 1 }

def setData (data : Bytes) : Map := map.setBuffer id { map.buffer id with data := data }

/-- The lists of the other states are not modelled. -/
def setBufferState (state : State) : Map :=
  { map.setBuffer id { map.buffer id with state := state } with
    dirty := map.dirty.erase id
    io := map.io.erase id }

/-- `set_buffer_state_list(buffer, BUFFER_DIRTY + cycle, &map->dirty)`. -/
def setBufferDirty (cycle : ℕ) : Map :=
  { setBufferState map id (.dirty cycle) with dirty := map.dirty.erase id ++ [id] }

def setBufferClean : Except Stop Map :=
  if (map.buffer id).state = .clean then throw .buffer else pure (setBufferState map id .clean)

def blockput : Except Stop Map :=
  if (map.buffer id).count = 0 then throw .buffer
  else pure (map.setBuffer id { map.buffer id with count := (map.buffer id).count - 1 })

def Map.hashed : Bool := map.hash (map.buffer id).index = some id

def insertBufferHash : Map :=
  { map with hash := Function.update map.hash (map.buffer id).index (some id) }

/-- Removal of an unhashed buffer does nothing. -/
def removeBufferHash : Map :=
  if map.hashed id then { map with hash := Function.update map.hash (map.buffer id).index none }
  else map

def evictBuffer : Except Stop Map :=
  if (map.buffer id).state = .clean ∨ (map.buffer id).state = .empty then
    if (map.buffer id).count = 0 then pure (setBufferState (removeBufferHash map id) id .freed)
    else throw .buffer
  else throw .buffer

/-- The eviction loop of `new_buffer` over `lru_buffers`, which holds the hashed buffers. -/
def evictVictims : Map → List ℕ → Except Stop Map
  | map, [] => pure map
  | map, victim :: victims =>
      if map.hashed victim ∧ (map.buffer victim).count = 0 ∧ (map.buffer victim).state = .clean then
        do evictVictims (← evictBuffer map victim) victims
      else evictVictims map victims

def newBuffer : Except Stop (ℕ × Map) := do
  let map ← evictVictims map (env.victims map)
  let id := map.fresh
  return (id, { map.setBuffer id { map.buffer id with state := .empty, count := 1 } with
    fresh := map.fresh + 1 })

def blockget (block : ℕ) : Except Stop (ℕ × Map) :=
  match map.hash block with
  | some id => pure (id, getBh map id)
  | none => do
      let (id, map) ← newBuffer env map
      let map := map.setBuffer id { map.buffer id with index := block }
      return (id, insertBufferHash map id)

/-- The read side of `filemap_extent_io`: the blocks read, up to the first present buffer, which
ends the region of `guess_region`. -/
def readBlocks : Map → ℕ → List Bytes → Except Stop Map
  | map, _, [] => pure map
  | map, block, data :: rest => do
      if (map.hash block).any fun id => (map.buffer id).state ≠ .empty then return map
      let (id, map) ← blockget env map block
      let map := setData map id data
      let map ← setBufferClean map id
      let map ← blockput map id
      readBlocks map (block + 1) rest

/-- No address is the null pointer of a failed read. -/
def blockread (block : ℕ) : Except Stop (Option ℕ × Map) := do
  let (id, map) ← blockget env map block
  if (map.buffer id).state = .empty then
    match env.load map block with
    | [] => return (none, ← blockput map id)
    | data => return (some id, ← readBlocks env map block data)
  return (some id, map)

/-- `BLOCKDIRTY`: a buffer of another cycle is forked. -/
def blockdirty (newdelta : ℕ) : Except Stop (ℕ × Map) :=
  let newdelta := newdelta % dirtyStates
  match (map.buffer id).state with
  | .dirty oldstate =>
      if oldstate = newdelta then pure (id, map)
      else do
        let (clone, map) ← newBuffer env map
        let map := map.setBuffer clone { map.buffer clone with
          data := (map.buffer id).data
          index := (map.buffer id).index }
        let map := insertBufferHash (removeBufferHash map id) clone
        return (clone, setBufferDirty map clone newdelta)
  | _ => pure (id, setBufferDirty map id newdelta)

/-- The deferred `blockput` is the reference `blockdirty` left on a forked buffer. -/
def cleanBuffer : Except Stop Map :=
  if map.hashed id then setBufferClean map id
  else do
    let map ← setBufferClean map id
    let map ← blockput map id
    evictBuffer map id

end

end Tux3.Cache
