import Tux3.Basic

/-!
# Inode table leaves

The leaf operations of `ileaf.c`. A leaf is its base inode number, the dictionary with the limit of
each inode's attributes, and the bytes of the attribute table. Limits are `u16`; an inode without
attributes has the limit of the one before.
-/
namespace Tux3.Itable

/-- `struct ileaf`; `icount` is the length of the dictionary. -/
structure Ileaf where
  ibase : ℕ
  dict : List ℕ
  table : ℕ → UInt8

def Ileaf.icount (leaf : Ileaf) : ℕ := leaf.dict.length

/-- `atdict`: zero before the first limit. -/
def atdict (dict : List ℕ) (at' : ℕ) : ℕ := if at' = 0 then 0 else dict.getD (at' - 1) 0

def addIdict (limit : ℕ) (n : ℤ) : ℕ := ((limit + n) % 2 ^ 16).toNat

/-- A difference of two `unsigned`. -/
def sub32 (a b : ℕ) : ℕ := (((a : ℤ) - b) % 2 ^ 32).toNat

def memmove (table : ℕ → UInt8) (dest src n : ℕ) : ℕ → UInt8 :=
  fun x => if dest ≤ x ∧ x < dest + n then table (x - dest + src) else table x

/-- `ileaf_init`, in a new block. -/
def ileafInit : Ileaf := ⟨0, [], fun _ => 0⟩

section
variable (blockbits : ℕ) (leaf : Ileaf)

def entriesPerLeaf : ℕ := 2 ^ (blockbits - 6)

def ileafNeed : ℕ := atdict leaf.dict leaf.icount + leaf.icount * 2

def ileafFree : ℕ := (((2 : ℤ) ^ blockbits - ileafNeed leaf - 16) % 2 ^ 32).toNat

/-- `ileaf_lookup`: the size of the attributes and their place in the table; `none` where an
assertion fails. -/
def ileafLookup (inum : ℕ) : Option (ℕ × ℕ) :=
  if leaf.ibase ≤ inum ∧ inum < leaf.ibase + entriesPerLeaf blockbits then
    let at' := inum - leaf.ibase
    if at' < leaf.icount then
      let offset := atdict leaf.dict at'
      some (sub32 (atdict leaf.dict (at' + 1)) offset, offset)
    else some (0, 0)
  else none

/-- The loop of `ileaf_trim` over the empty inodes at the end. -/
def trimCount (dict : List ℕ) : ℕ → ℕ
  | 0 => 0
  | 1 => if atdict dict 1 = 0 then 0 else 1
  | n + 2 => if atdict dict (n + 2) = atdict dict (n + 1) then trimCount dict (n + 1) else n + 2

def ileafTrim : Ileaf := { leaf with dict := leaf.dict.take (trimCount leaf.dict leaf.icount) }

/-- `ileaf_split` at an inode number: the leaf and the new one, whose base is the separator. -/
def ileafSplit (inum : ℕ) : Ileaf × Ileaf :=
  let at' := min (inum - leaf.ibase) leaf.icount
  let split := atdict leaf.dict at'
  let free := atdict leaf.dict leaf.icount
  -- round down to multiple of entries per leaf above ibase
  let round := inum / entriesPerLeaf blockbits * entriesPerLeaf blockbits
  let dest : Ileaf := {
    ibase := if leaf.ibase + leaf.icount < round then round else inum
    dict := (leaf.dict.drop at').map fun limit => addIdict limit (-split)
    table := fun x => if x < free - split then leaf.table (split + x) else 0 }
  let leaf := { leaf with
    dict := leaf.dict.take at'
    table := fun x => if x < split then leaf.table x else 0 }
  (ileafTrim leaf, dest)

/-- `ileaf_merge` of the second leaf into the first. -/
def ileafMerge (leaf from' : Ileaf) : Ileaf :=
  if from'.icount = 0 then leaf
  else
    let at' := leaf.icount
    let free := atdict leaf.dict at'
    let size := atdict from'.dict from'.icount
    { leaf with
      dict := leaf.dict ++
        from'.dict.map fun limit => if at' = 0 then limit else addIdict limit (atdict leaf.dict at')
      table := fun x => if free ≤ x ∧ x < free + size then from'.table (x - free)
        else leaf.table x }

/-- `ileaf_resize`: the place of the attributes and the leaf; `none` when they do not fit. -/
def ileafResize (inum newsize : ℕ) : Option (ℕ × Ileaf) :=
  if entriesPerLeaf blockbits ≤ inum - leaf.ibase then none
  else
    let at' := inum - leaf.ibase
    let count := leaf.icount
    let extendEmpty := if at' < count then 0 else at' - count + 1
    let offset := if 0 < at' ∧ 0 < count then atdict leaf.dict (min at' count) else 0
    let size := if at' < count then sub32 (atdict leaf.dict (at' + 1)) offset else 0
    let more : ℤ := ((newsize : ℤ) - size).bmod (2 ^ 32)
    if 0 < more ∧ (ileafFree blockbits leaf : ℤ) < 2 * extendEmpty + more then none
    else
      let dict := leaf.dict ++ List.replicate extendEmpty (atdict leaf.dict count)
      let itop := atdict dict dict.length
      some (offset, { leaf with
        dict := dict.take at' ++ (dict.drop at').map fun limit => addIdict limit more
        table := memmove leaf.table (offset + newsize) (offset + size) (itop - offset - size) })

/-- `ileaf_purge` of a stored inode. -/
def ileafPurge (inum : ℕ) : Ileaf :=
  let at' := inum - leaf.ibase
  let offset := atdict leaf.dict at'
  let size := sub32 (atdict leaf.dict (at' + 1)) offset
  let free := atdict leaf.dict leaf.icount
  ileafTrim { leaf with
    dict := leaf.dict.take at' ++ (leaf.dict.drop at').map fun limit => addIdict limit (-size)
    table := memmove leaf.table offset (offset + size) (free - offset - size) }

/-- `find_empty_inode`: the loop over the dictionary from an index on. -/
def findEmptyFrom (dict : List ℕ) : ℕ → ℕ → ℕ
  | 0, at' => at'
  | left + 1, at' =>
      if atdict dict at' = atdict dict (at' + 1) then at' else findEmptyFrom dict left (at' + 1)

def findEmptyInode (goal : ℕ) : ℕ :=
  if entriesPerLeaf blockbits ≤ goal - leaf.ibase then goal
  else
    let at' := goal - leaf.ibase
    leaf.ibase + findEmptyFrom leaf.dict (leaf.icount - at') at'

end

end Tux3.Itable
