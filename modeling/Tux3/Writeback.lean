import Mathlib.Data.Finset.Basic
import Mathlib.Data.List.Nodup
import Mathlib.Logic.Function.Basic
import Mathlib.Tactic.Common

/-!
# Write-back of inodes

The dirty state and the references of the inodes in core, from `writeback.c` and `inode.c` of user
space. A call of `flush_buffers` or `write_inode` may mark any inodes dirty, and may fail. There is
no result where an assertion fails.
-/
namespace Tux3.Writeback

/-- `I_DIRTY_SYNC`, `I_DIRTY_DATASYNC` and `I_DIRTY_PAGES`. -/
inductive Flag where
  | sync
  | datasync
  | pages
  deriving DecidableEq, Repr

def bitmapIno : ℕ := 0
def volmapIno : ℕ := 1

/-- The number, the bits set in `state` and `i_count`, which is zero when the inode is freed. -/
structure Inode where
  inum : ℕ
  state : Finset Flag
  count : ℕ

/-- The calls of `sync_inode`. -/
inductive Call where
  | flushBuffers (id : ℕ)
  | writeInode (id : ℕ)
  deriving DecidableEq, Repr

def Call.inode : Call → ℕ
  | .flushBuffers id => id
  | .writeInode id => id

/-- The call that clears a bit. -/
def Flag.call (id : ℕ) : Flag → Call
  | .pages => .flushBuffers id
  | _ => .writeInode id

/-- What a call does here: the arguments of `__mark_inode_dirty`, and its return value. -/
structure Outcome where
  marks : List (ℕ × Finset Flag)
  err : ℤ

/-- The inodes by address, `dirty_inodes`, the local list of `sync_inodes`, the inodes of bitmap and
volmap, and the calls made, with what they returned. -/
structure Sb where
  inode : ℕ → Inode
  dirty : List ℕ
  syncing : List ℕ
  bitmap : ℕ
  volmap : ℕ
  calls : List (Call × ℤ)

namespace Sb
variable (s : Sb)

/-- The lists that an inode may be on. -/
def listed : List ℕ := s.dirty ++ s.syncing

def setState (id : ℕ) (state : Finset Flag) : Sb :=
  { s with inode := Function.update s.inode id { s.inode id with state := state } }

def setCount (id n : ℕ) : Sb :=
  { s with inode := Function.update s.inode id { s.inode id with count := n } }

/-- `list_del_init` of the list head of an inode. -/
def listDelInit (id : ℕ) : Sb :=
  { s with dirty := s.dirty.erase id, syncing := s.syncing.erase id }

/-- `__iget`; the count is asserted. -/
def iget (id : ℕ) : Option Sb :=
  if (s.inode id).count = 0 then none else some (s.setCount id ((s.inode id).count + 1))

/-- `iput`, with the assertions of `atomic_dec_and_test` and `free_inode`. -/
def iput (id : ℕ) : Option Sb :=
  let inode := s.inode id
  if inode.count = 0 then none
  else if inode.count = 1 ∧ (id ∈ s.listed ∨ inode.state ≠ ∅) then none
  else some (s.setCount id (inode.count - 1))

/-- `new_inode`, at a free address. -/
def newInode (id inum : ℕ) : Sb :=
  { s with inode := Function.update s.inode id ⟨inum, ∅, 1⟩ }

/-- `find_dirty_inode`, which takes a reference. -/
def findDirtyInode (inum : ℕ) : Option (Sb × ℕ) := do
  let id ← s.dirty.find? fun id => (s.inode id).inum = inum
  let s ← s.iget id
  return (s, id)

def clearInode (id : ℕ) : Option Sb :=
  let cleared := (s.listDelInit id).setState id ∅
  if id ∈ s.listed then cleared.iput id else some cleared

/-- `__mark_inode_dirty`. -/
def markInodeDirty (id : ℕ) (flags : Finset Flag) : Option Sb :=
  if flags ⊆ (s.inode id).state then some s
  else
    let s := s.setState id ((s.inode id).state ∪ flags)
    if id ∈ s.listed then some s
    else (s.iget id).map fun s => { s with dirty := s.dirty ++ [id] }

def marks : List (ℕ × Finset Flag) → Sb → Option Sb
  | [], s => some s
  | (id, flags) :: rest, s => (s.markInodeDirty id flags).bind (marks rest)

variable (io : Call → ℕ → Outcome)

/-- A call, with the outcome it has at this place. -/
def perform (call : Call) : Option (Sb × ℤ) :=
  let outcome := io call s.calls.length
  (marks outcome.marks { s with calls := s.calls ++ [(call, outcome.err)] }).map fun s =>
    (s, outcome.err)

/-- The bits that `sync_inode` clears before a call. -/
def syncPart (id : ℕ) (mask : Finset Flag) (call : Call) : Option (Sb × ℤ) :=
  if (s.inode id).state ∩ mask = ∅ then some (s, 0)
  else (s.setState id ((s.inode id).state \ mask)).perform io call

def syncInode (id : ℕ) : Option (Sb × ℤ) := do
  let dirty := (s.inode id).state
  let (s, err) ← s.syncPart io id {.pages} (.flushBuffers id)
  if err ≠ 0 then return (s.setState id dirty, err)
  let (s, err) ← s.syncPart io id {.sync, .datasync} (.writeInode id)
  if err ≠ 0 then return (s.setState id dirty, err)
  if dirty ≠ ∅ ∧ (s.inode id).state = ∅ then
    let s ← (s.listDelInit id).iput id
    return (s, 0)
  return (s, 0)

/-- The loop of `sync_inodes`: only the inode of a round leaves the list there. -/
def syncList : List ℕ → Sb → Option (Sb × ℤ)
  | [], s => some (s, 0)
  | id :: rest, s =>
      if (s.inode id).inum = bitmapIno ∨ (s.inode id).inum = volmapIno then syncList rest s
      else
        match s.syncInode io id with
        | none => none
        | some (s, err) => if err ≠ 0 then some (s, err) else syncList rest s

/-- The error path of `sync_inodes`. -/
def spliceBack : Sb := { s with dirty := s.syncing ++ s.dirty, syncing := [] }

/-- `sync_inodes` after the loop. -/
def syncMaps : Option (Sb × ℤ) := do
  let (s, err) ← s.syncInode io s.bitmap
  if err ≠ 0 then return (s.spliceBack, err)
  let (s, err) ← s.syncInode io s.volmap
  if err ≠ 0 then return (s.spliceBack, err)
  if s.syncing = [] then return (s, 0) else none

def syncInodes : Option (Sb × ℤ) := do
  let list := s.dirty
  let (s, err) ← syncList io list { s with dirty := [], syncing := s.dirty ++ s.syncing }
  if err ≠ 0 then return (s.spliceBack, err)
  s.syncMaps io

end Sb

end Tux3.Writeback
