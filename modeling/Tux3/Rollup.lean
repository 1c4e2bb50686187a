import Tux3.Cache
import Tux3.Balloc

/-!
# Writing the bitmap in a rollup

`balloc_from_range`, `balloc`, `bfree` and `update_bitmap` on the buffers of the bitmap file,
`write_bitmap` of `user/filemap.c` and `rollup_log` of `kernel/commit.c`. What else runs inside
`rollup_log` is a list of calls of these functions: those of the flush of the bnodes, and those of
`map_region` when it places a bitmap block. I/O and `map_region` succeed there.
-/
namespace Tux3.Cache

open Balloc (scanBytes)

/-- A change of the data of a bitmap block, kept as history. -/
structure Change where
  block : ℕ
  before : Bytes
  after : Bytes

/-- The part of `struct sb` that a rollup works on. `writes` are the blocks of the bitmap file
written, with their data; `changes` are the changes made. Both are history. -/
structure Sb where
  blockbits : ℕ
  volblocks : ℕ
  freeblocks : ℤ
  nextalloc : ℕ
  rollup : ℕ
  bitmap : Map
  writes : List (ℕ × Bytes)
  changes : List Change

def Sb.blocksize (sb : Sb) : ℕ := 2 ^ sb.blockbits

def Sb.mapsize (sb : Sb) : ℕ := 2 ^ (sb.blockbits + 3)

/-! ## The allocator -/

/-- Under `ATOMIC` an assertion; under `BLOCKDIRTY` alone it does nothing to a dirty buffer. -/
def markBufferDirtyNon (map : Map) (id : ℕ) : Except Stop Map :=
  match (map.buffer id).state with
  | .dirty _ => pure map
  | _ => throw .buffer

def markBufferDirty (map : Map) (id : ℕ) : Map :=
  match (map.buffer id).state with
  | .dirty _ => map
  | _ => setBufferDirty map id 0

section
variable (env : Env)

/-- What `balloc_from_range` and `bfree` do to the buffer they found: `blockdirty`, the change,
`mark_buffer_dirty_non` and `blockput`. -/
def Sb.change (sb : Sb) (id : ℕ) (bits : Bytes → Bytes) : Except Stop Sb := do
  let (id, map) ← blockdirty env sb.bitmap id sb.rollup
  let buffer := map.buffer id
  let map ← markBufferDirtyNon (setData map id (bits buffer.data)) id
  let map ← blockput map id
  return { sb with
    bitmap := map
    changes := sb.changes ++ [⟨buffer.index, buffer.data, bits buffer.data⟩] }

/-- The `mapblock` loop, with `n` blocks left. -/
def searchMap (blocks limit mapblocks : ℕ) :
    ℕ → ℕ → ℕ → ℕ → ℕ → Sb → Except Stop (ℤ × Sb)
  | 0, _, _, _, _, sb => pure (-1, sb)
  | n + 1, mapblock, offset, startbit, tail, sb => do
      let (buffer, map) ← blockread env sb.bitmap mapblock
      let sb := { sb with bitmap := map }
      match buffer with
      | none => return (-1, sb)
      | some id =>
          let bytes := min (sb.blocksize - offset) tail
          match scanBytes (map.buffer id).data blocks (List.range' offset bytes) startbit 0 with
          | .run _ => do
              let map ← blockput map id
              searchMap blocks limit mapblocks n (mapblock + 1) 0
                (if bytes = 0 then startbit else 0) (tail - bytes) { sb with bitmap := map }
          | .hit run at' =>
              if run ≠ blocks then throw .balloc
              else
                let found := at' + u32 (mapblock * sb.mapsize)
                if limit ≤ found then
                  if mapblock = mapblocks - 1 then do
                    let map ← blockput map id
                    return (-1, { sb with bitmap := map })
                  else throw .balloc
                else do
                  let found := found - (run - 1)
                  let sb ← sb.change env id fun data => setBits data (found % sb.mapsize) run
                  return (found, { sb with
                    nextalloc := found + run
                    freeblocks := sb.freeblocks - run })

def ballocFromRange (sb : Sb) (start count blocks : ℕ) : Except Stop (ℤ × Sb) :=
  if blocks = 0 then throw .balloc
  else
    let limit := start + count
    let mapblocks := u32 ((limit + (sb.mapsize - 1)) / sb.mapsize)
    let mapblock := u32 (start / sb.mapsize)
    let offset := start % sb.mapsize / 8
    let startbit := start % 8
    let tail := u32 (count + startbit + 7) / 8
    searchMap env blocks limit mapblocks (mapblocks - mapblock) mapblock offset startbit tail sb

def balloc (sb : Sb) (blocks : ℕ) : Except Stop (ℤ × ℤ × Sb) :=
  if blocks = 0 then throw .balloc
  else do
    let goal := sb.nextalloc
    let total := sb.volblocks
    let (block, sb) ← ballocFromRange env sb goal (((total : ℤ) - goal) % 2 ^ 32).toNat blocks
    if 0 ≤ block then return (0, block, sb)
    let (block, sb) ← ballocFromRange env sb 0 (u32 goal) blocks
    if 0 ≤ block then return (0, block, sb)
    return (-enospc, block, sb)

def bfree (sb : Sb) (start blocks : ℕ) : Except Stop (ℤ × Sb) :=
  if blocks = 0 then throw .balloc
  else do
    let mapblock := u32 (start / sb.mapsize)
    let (buffer, map) ← blockread env sb.bitmap mapblock
    let sb := { sb with bitmap := map }
    match buffer with
    | none => return (-eio, sb)
    | some id =>
        if !allSet (map.buffer id).data (start % sb.mapsize) blocks then throw .balloc
        else
          let sb ← sb.change env id fun data => clearBits data (start % sb.mapsize) blocks
          return (0, { sb with freeblocks := sb.freeblocks + blocks })

def updateBitmap (sb : Sb) (start count : ℕ) (set : Bool) : Except Stop (ℤ × Sb) := do
  let (buffer, map) ← blockread env sb.bitmap (start / sb.mapsize)
  let sb := { sb with bitmap := map }
  match buffer with
  | none => return (-enomem, sb)
  | some id =>
      let data := (map.buffer id).data
      let at' := start % sb.mapsize
      if !(if set then allClear data at' count else allSet data at' count) then do
        let map ← blockput map id
        return (-einval, { sb with bitmap := map })
      else
        let map := setData map id (if set then setBits data at' count else clearBits data at' count)
        let map ← blockput (markBufferDirty map id) id
        return (0, { sb with
          bitmap := map
          freeblocks := sb.freeblocks + (if set then count else u32 (2 ^ 32 - count) : ℕ) })

/-! ## The rollup -/

/-- What happens to the bitmap buffers while a rollup runs and between rollups: allocations,
frees, and new buffers of other files, which can evict bitmap buffers. -/
inductive Op where
  | balloc (blocks : ℕ)
  | bfree (start blocks : ℕ)
  | newBuffer

def Op.run (sb : Sb) : Op → Except Stop Sb
  | .balloc blocks => do
      let (_, _, sb) ← Cache.balloc env sb blocks
      return sb
  | .bfree start blocks => do
      let (_, sb) ← Cache.bfree env sb start blocks
      return sb
  | .newBuffer => do
      let map ← evictVictims sb.bitmap (env.victims sb.bitmap)
      return { sb with bitmap := map }

def runOps : Sb → List Op → Except Stop Sb
  | sb, [] => pure sb
  | sb, op :: ops => do runOps (← op.run env sb) ops

/-- `map_region` makes the calls `ops`. -/
def writeBitmap (sb : Sb) (id : ℕ) (ops : List Op) : Except Stop Sb := do
  let sb ← runOps env sb ops
  let buffer := sb.bitmap.buffer id
  if buffer.state ≠ .dirty (u32 (sb.rollup + (2 ^ 32 - 1)) % dirtyStates) then throw .buffer
  let map ← cleanBuffer sb.bitmap id
  return { sb with
    bitmap := map
    writes := sb.writes ++ [(buffer.index, buffer.data)] }

/-- The loop over `io_buffers`; `place` are the calls made to place a block. -/
def writeBitmaps (place : ℕ → List Op) : Sb → List ℕ → Except Stop Sb
  | sb, [] => pure sb
  | sb, id :: ids => do
      let sb ← writeBitmap env sb id (place (sb.bitmap.buffer id).index)
      writeBitmaps place sb ids

/-- `rollup_log`; `flush` are the calls made before the bitmap blocks are written. -/
def rollupLog (flush : List Op) (place : ℕ → List Op) (sb : Sb) : Except Stop Sb := do
  let sb := { sb with
    rollup := u32 (sb.rollup + 1)
    bitmap := { sb.bitmap with dirty := [], io := sb.bitmap.dirty } }
  let sb ← runOps env sb flush
  let sb ← writeBitmaps env place sb sb.bitmap.io
  if sb.bitmap.io ≠ [] then throw .buffer
  return sb

/-- The states between rollups: after mount with no bitmap buffer in the cache, replay of a log
before the first rollup, any calls, and any rollups. -/
inductive Reachable : Sb → Prop where
  | mount (sb : Sb) (cold : ∀ m, sb.bitmap.hash m = none) (dirty : sb.bitmap.dirty = [])
      (io : sb.bitmap.io = []) (rollup : sb.rollup = 0) : Reachable sb
  | replay {sb sb' : Sb} (prev : Reachable sb) (first : sb.rollup = 0) (start count : ℕ)
      (set : Bool) {err : ℤ} (run : updateBitmap env sb start count set = .ok (err, sb')) :
      Reachable sb'
  | op {sb sb' : Sb} (prev : Reachable sb) (op : Op) (run : op.run env sb = .ok sb') :
      Reachable sb'
  | rollup {sb sb' : Sb} (prev : Reachable sb) (flush : List Op) (place : ℕ → List Op)
      (run : rollupLog env flush place sb = .ok sb') : Reachable sb'

end

end Tux3.Cache
