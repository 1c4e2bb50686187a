import Tux3.Bitops

/-!
# Block allocation

`balloc_from_range`, `balloc`, `bfree` and `update_bitmap` of `kernel/balloc.c`,
with the 32-bit `unsigned` arithmetic of the source. A result `none` is a failed
`assert` or a call of `error`, which end the program.
-/
namespace Tux3.Balloc

/-- The part of `struct sb` the allocator works on. `bitmap` holds the data of each
block of the bitmap file and `readable` tells which of them `blockread` can get. -/
structure Sb where
  blockbits : ℕ
  volblocks : ℕ
  freeblocks : ℤ
  nextalloc : ℕ
  bitmap : ℕ → Bytes
  readable : ℕ → Bool

def Sb.blocksize (sb : Sb) : ℕ := 2 ^ sb.blockbits

/-- `1 << mapshift`, the number of bits in one block of the bitmap. -/
def Sb.mapsize (sb : Sb) : ℕ := 2 ^ (sb.blockbits + 3)

/-- The state of the search loops: still running, or stopped at a bit with `++run >= blocks`. -/
inductive Scan where
  | run (run : ℕ)
  | hit (run : ℕ) (at' : ℕ)
  deriving DecidableEq, Repr

/-- The `i` loop over the bits of the byte `c`. -/
def scanBits (c : Byte) (blocks : ℕ) : List ℕ → ℕ → Scan
  | [], run => .run run
  | i :: is, run =>
      if c.getLsbD i then scanBits c blocks is 0
      else if run + 1 < blocks then scanBits c blocks is (run + 1)
      else .hit (run + 1) i

/-- The `p` loop over the bytes of one bitmap block; a hit is a bit of the block. -/
def scanBytes (data : Bytes) (blocks : ℕ) : List ℕ → ℕ → ℕ → Scan
  | [], _, run => .run run
  | p :: ps, startbit, run =>
      if data p = 0xff#8 then scanBytes data blocks ps 0 0
      else
        match scanBits (data p) blocks (List.range' startbit (8 - startbit)) run with
        | .run run => scanBytes data blocks ps 0 run
        | .hit run i => .hit run (i + 8 * p)

/-- The `mapblock` loop, with `n` blocks left. -/
def searchMap (sb : Sb) (blocks limit mapblocks : ℕ) : ℕ → ℕ → ℕ → ℕ → ℕ → Option (ℤ × Sb)
  | 0, _, _, _, _ => some (-1, sb)
  | n + 1, mapblock, offset, startbit, tail =>
      if !sb.readable mapblock then some (-1, sb)
      else
        let bytes := min (sb.blocksize - offset) tail
        match scanBytes (sb.bitmap mapblock) blocks (List.range' offset bytes) startbit 0 with
        | .run _ =>
            searchMap sb blocks limit mapblocks n (mapblock + 1) 0
              (if bytes = 0 then startbit else 0) (tail - bytes)
        | .hit run at' =>
            if run ≠ blocks then none
            else
              let found := at' + u32 (mapblock * sb.mapsize)
              if limit ≤ found then
                -- final_partial_byte: `assert(mapblock == mapblocks - 1)`
                if mapblock = mapblocks - 1 then some (-1, sb) else none
              else
                let found := found - (run - 1)
                some (found, { sb with
                  bitmap := Function.update sb.bitmap mapblock
                    (setBits (sb.bitmap mapblock) (found % sb.mapsize) run)
                  nextalloc := found + run
                  freeblocks := sb.freeblocks - run })

def ballocFromRange (sb : Sb) (start count blocks : ℕ) : Option (ℤ × Sb) :=
  if blocks = 0 then none
  else
    let limit := start + count
    let mapblocks := u32 ((limit + (sb.mapsize - 1)) / sb.mapsize)
    let mapblock := u32 (start / sb.mapsize)
    let offset := start % sb.mapsize / 8
    let startbit := start % 8
    let tail := u32 (count + startbit + 7) / 8
    searchMap sb blocks limit mapblocks (mapblocks - mapblock) mapblock offset startbit tail

/-- The return value, `*block` and the new state. -/
def balloc (sb : Sb) (blocks : ℕ) : Option (ℤ × ℤ × Sb) :=
  if blocks = 0 then none
  else
    let goal := sb.nextalloc
    let total := sb.volblocks
    do
      let (block, sb) ← ballocFromRange sb goal (((total : ℤ) - goal) % 2 ^ 32).toNat blocks
      if 0 ≤ block then return (0, block, sb)
      let (block, sb) ← ballocFromRange sb 0 (u32 goal) blocks
      if 0 ≤ block then return (0, block, sb)
      return (-enospc, block, sb)

def bfree (sb : Sb) (start blocks : ℕ) : Option (ℤ × Sb) :=
  if blocks = 0 then none
  else
    let mapblock := u32 (start / sb.mapsize)
    if !sb.readable mapblock then some (-eio, sb)
    else if !allSet (sb.bitmap mapblock) (start % sb.mapsize) blocks then none
    else
      some (0, { sb with
        bitmap := Function.update sb.bitmap mapblock
          (clearBits (sb.bitmap mapblock) (start % sb.mapsize) blocks)
        freeblocks := sb.freeblocks + blocks })

/-- The counter is changed by `set ? count : -count`, an `unsigned` expression. -/
def updateBitmap (sb : Sb) (start count : ℕ) (set : Bool) : ℤ × Sb :=
  let mapblock := start / sb.mapsize
  if !sb.readable mapblock then (-enomem, sb)
  else
    let buffer := sb.bitmap mapblock
    let at' := start % sb.mapsize
    if !(if set then allClear buffer at' count else allSet buffer at' count) then (-einval, sb)
    else
      (0, { sb with
        bitmap := Function.update sb.bitmap mapblock
          (if set then setBits buffer at' count else clearBits buffer at' count)
        freeblocks := sb.freeblocks + (if set then count else u32 (2 ^ 32 - count) : ℕ) })

end Tux3.Balloc
