import Tux3.Basic
import Mathlib.Logic.Function.Basic

/-!
# Directory entries

The entry operations of `dir.c`. A block is what one reads at each offset as a `tux_dirent`; the
pages of the directory are its blocks by index. Block numbers and the returned offset are
`unsigned`, file sizes are not.
-/
namespace Tux3.Dir

/-- `tux_dirent`; `recLen` is the value on disk. -/
structure Dirent where
  inum : ℕ
  recLen : ℕ
  nameLen : ℕ
  type : ℕ
  name : List UInt8
  deriving DecidableEq, Repr

abbrev Block := ℕ → Dirent

/-- The mapping of a directory and its `i_size`. -/
structure Directory where
  block : ℕ → Block
  size : ℕ

inductive Failure where
  | eio
  | enoent
  /-- `error` ends the program. -/
  | die
  deriving DecidableEq, Repr

/-- `TUX_REC_LEN`. -/
def tuxRecLen (nameLen : ℕ) : ℕ := (nameLen + 12 + 7) / 8 * 8

def tuxRecLenFromDisk (dlen : ℕ) : ℕ := if dlen = 65535 then 65536 else dlen

def tuxRecLenToDisk (len : ℕ) : Except Failure ℕ :=
  if len = 65536 then .ok 65535 else if 65536 < len then .error .die else .ok len

def isDeleted (entry : Dirent) : Bool := entry.nameLen = 0

def tuxMatch (name : List UInt8) (entry : Dirent) : Bool :=
  name.length = entry.nameLen && !isDeleted entry && name = entry.name.take name.length

/-- `tux_type_by_mode`, by the file type bits of a mode. -/
def tuxTypeByMode (mode : ℕ) : ℕ :=
  match mode / 2 ^ 12 % 16 with
  | 8 => 1
  | 4 => 2
  | 2 => 3
  | 6 => 4
  | 1 => 5
  | 12 => 6
  | 10 => 7
  | _ => 0

/-- `memcpy` to the name of an entry. -/
def Dirent.copyName (entry : Dirent) (name : List UInt8) : Dirent :=
  { entry with name := name ++ entry.name.drop name.length }

/-- `memset` with zero. -/
def zeroDirent : Dirent := ⟨0, 0, 0, 0, []⟩

/-! ## Scanning -/

/-- How the loop over the entries of a block ends. -/
inductive Scan where
  | past
  | zero
  | found (offset : ℕ)
  deriving DecidableEq, Repr

/-- The loop over the entries of a block, `while (entry <= limit)` for the last place where a
record of length `reclen` fits. -/
def scan (b : Block) (blocksize reclen : ℕ) (stop : Dirent → Bool) : ℕ → ℕ → Scan
  | 0, _ => .past
  | fuel + 1, offset =>
      if blocksize < offset + reclen then .past
      else if (b offset).recLen = 0 then .zero
      else if stop (b offset) then .found offset
      else scan b blocksize reclen stop fuel (offset + tuxRecLenFromDisk (b offset).recLen)

/-- The loop over the blocks of a directory. -/
def scanBlocks (dir : Directory) (blocksize reclen : ℕ) (stop : Dirent → Bool) :
    ℕ → ℕ → Except Failure (Option (ℕ × ℕ))
  | 0, _ => .ok none
  | left + 1, block =>
      match scan (dir.block block) blocksize reclen stop (blocksize + 1) 0 with
      | .zero => .error .eio
      | .found offset => .ok (some (block, offset))
      | .past => scanBlocks dir blocksize reclen stop left (block + 1)

section
variable (blockbits : ℕ)

/-- `unsigned blocks = size >> blockbits`. -/
def blocksOf (size : ℕ) : ℕ := size / 2 ^ blockbits % 2 ^ 32

/-- `tux_find_entry`: block and offset of the entry. -/
def tuxFindEntry (dir : Directory) (name : List UInt8) : Except Failure (ℕ × ℕ) :=
  let reclen := tuxRecLen name.length
  match scanBlocks dir (2 ^ blockbits) reclen (tuxMatch name) (blocksOf blockbits dir.size) 0 with
  | .error err => .error err
  | .ok (some place) => .ok place
  | .ok none => .error .enoent

/-! ## Creation -/

/-- An entry that can take a record of the length. -/
def hasRoom (reclen : ℕ) (entry : Dirent) : Bool :=
  let nameLen := tuxRecLen entry.nameLen
  let recLen := tuxRecLenFromDisk entry.recLen
  (isDeleted entry && reclen ≤ recLen) || nameLen + reclen ≤ recLen

/-- From the label `create` on: the block and the offset of the new entry. -/
def createAt (b : Block) (offset : ℕ) (name : List UInt8) (inum mode : ℕ) :
    Except Failure (Block × ℕ) :=
  let entry := b offset
  if isDeleted entry then
    .ok (Function.update b offset { entry.copyName name with
      nameLen := name.length, inum := inum, type := tuxTypeByMode mode }, offset)
  else do
    let nameLen := tuxRecLen entry.nameLen
    let newRecLen ← tuxRecLenToDisk (tuxRecLenFromDisk entry.recLen - nameLen)
    let oldRecLen ← tuxRecLenToDisk nameLen
    let b := Function.update b offset { entry with recLen := oldRecLen }
    .ok (Function.update b (offset + nameLen) { (b (offset + nameLen)).copyName name with
      recLen := newRecLen, nameLen := name.length, inum := inum, type := tuxTypeByMode mode },
      offset + nameLen)

/-- The place of a new entry: the first with room, else none. -/
def findRoom (dir : Directory) (len : ℕ) : Except Failure (Option (ℕ × ℕ)) :=
  let reclen := tuxRecLen len
  scanBlocks dir (2 ^ blockbits) reclen (hasRoom reclen) (blocksOf blockbits dir.size) 0

/-- `tux_create_entry`: the directory and the offset of the entry in the file, computed in
`unsigned`. -/
def tuxCreateEntry (dir : Directory) (name : List UInt8) (inum mode : ℕ) :
    Except Failure (Directory × ℕ) := do
  let where' (block offset : ℕ) := (block * 2 ^ blockbits % 2 ^ 32 + offset) % 2 ^ 32
  match ← findRoom blockbits dir name.length with
  | some (block, offset) =>
      let (b, offset) ← createAt (dir.block block) offset name inum mode
      .ok ({ dir with block := Function.update dir.block block b }, where' block offset)
  | none =>
      let block := blocksOf blockbits dir.size
      let recLen ← tuxRecLenToDisk (2 ^ blockbits)
      let b : Block := Function.update (fun _ => zeroDirent) 0 { zeroDirent with recLen := recLen }
      let (b, offset) ← createAt b 0 name inum mode
      .ok (⟨Function.update dir.block block b, dir.size + 2 ^ blockbits⟩, where' block offset)

end

/-! ## Deletion -/

/-- The loop of `tux_delete_entry`: the entry before the one at an offset. -/
def findPrev (b : Block) (offset : ℕ) : ℕ → Option ℕ → ℕ → Except Failure (Option ℕ)
  | 0, prev, _ => .ok prev
  | fuel + 1, prev, this =>
      if this < offset then
        if (b this).recLen = 0 then .error .eio
        else findPrev b offset fuel (some this) (this + tuxRecLenFromDisk (b this).recLen)
      else .ok prev

/-- `tux_delete_entry`. -/
def tuxDeleteEntry (b : Block) (offset : ℕ) : Except Failure Block := do
  let entry := b offset
  let b ← match ← findPrev b offset (offset + 1) none 0 with
    | some prev => do
        let recLen ← tuxRecLenToDisk (offset + tuxRecLenFromDisk entry.recLen - prev)
        .ok (Function.update b prev { b prev with recLen := recLen })
    | none => .ok b
  .ok (Function.update b offset { (b offset).copyName (List.replicate entry.nameLen 0) with
    nameLen := 0, type := 0, inum := 0 })

end Tux3.Dir
