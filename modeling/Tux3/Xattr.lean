import Tux3.DirMap

/-!
# Extended attributes

The atom table and the attribute caches of `xattr.c`. Names are entries of the atom dictionary; for
each atom there are a reference count in two halves of 16 bits and a slot of the reverse map, which
is also the link of the free list. The dictionary ends below the tables. A cache is the list of its
attributes; its `u16` size in bytes tells where the list ends.
-/
namespace Tux3.Xattr

open Tux3.Dir

/-- `struct xattr`: a `u16` atom and a body with a `u16` size. -/
structure Attr where
  atom : ℕ
  body : List UInt8
  deriving DecidableEq, Repr

/-- The atom table inode, the atom fields of the super block, and the cache of each inode. -/
structure Atable where
  dict : Directory
  unatom : ℕ → ℕ
  lorefs : ℕ → ℕ
  hirefs : ℕ → ℕ
  freeatom : ℕ
  atomgen : ℕ
  xcache : ℕ → List Attr

inductive Errno where
  | enoattr
  | eexist
  | einval
  | enomem
  | erange
  deriving DecidableEq, Repr

/-- The atom `-1`. -/
def noAtom : ℕ := 2 ^ 32 - 1

/-- `xcache->size`. -/
def xcacheSize (xcache : List Attr) : ℕ := 4 + (xcache.map fun x => 4 + x.body.length).sum

section
variable (blockbits : ℕ) (s : Atable)

/-! ## Atoms -/

def getFreeatom : ℕ × Atable :=
  let atom := s.freeatom
  if atom = 0 then (s.atomgen, { s with atomgen := (s.atomgen + 1) % 2 ^ 32 })
  else
    let next := s.unatom atom
    if next / 2 ^ 48 ≠ 0xdead then (noAtom, s)
    else (atom, { s with freeatom := next % 2 ^ 48 % 2 ^ 32 })

/-- `use_atom` from `if (kill)` on. -/
def killAtom (atom : ℕ) : Atable :=
  let where' := s.unatom atom
  let s := { s with
    unatom := Function.update s.unatom atom (s.freeatom ||| 0xdead <<< 48)
    freeatom := atom }
  let block := where' / 2 ^ blockbits
  let offset := where' % 2 ^ blockbits
  if (s.dict.block block offset).inum % 2 ^ 32 = atom then
    match tuxDeleteEntry (s.dict.block block) offset with
    | .ok b => { s with dict := { s.dict with block := Function.update s.dict.block block b } }
    | .error _ => s
  else s

/-- `use_atom`, with the carry from the low half of the count to the high half. -/
def useAtom (atom : ℕ) (use : ℤ) : Atable :=
  let low : ℤ := s.lorefs atom + use
  let s := { s with lorefs := Function.update s.lorefs atom (low % 2 ^ 16).toNat }
  if low = 0 ∨ low < 0 ∨ 2 ^ 16 ≤ low then
    let high : ℤ := s.hirefs atom + low / 2 ^ 16
    let s := { s with hirefs := Function.update s.hirefs atom (high % 2 ^ 16).toNat }
    if low = 0 ∧ high = 0 then killAtom blockbits s atom else s
  else s

def findAtom (name : List UInt8) : ℕ :=
  match tuxFindEntry blockbits s.dict name with
  | .ok (block, offset) => (s.dict.block block offset).inum % 2 ^ 32
  | .error _ => noAtom

/-- `make_atom`; `none` is the end of the program. -/
def makeAtom (name : List UInt8) : Option (ℕ × Atable) :=
  let atom := findAtom blockbits s name
  if atom ≠ noAtom then some (atom, s)
  else
    let (atom, s) := getFreeatom s
    match tuxCreateEntry blockbits s.dict name atom 0 with
    | .error .die => none
    | .error _ => some (noAtom, s)
    | .ok (dict, where') =>
        some (atom, { s with dict := dict, unatom := Function.update s.unatom atom where' })

/-- `unatom`: the name of an atom. -/
def unatomName (atom : ℕ) : Option (List UInt8) :=
  let where' := s.unatom atom
  let entry := s.dict.block (where' / 2 ^ blockbits) (where' % 2 ^ blockbits)
  if entry.inum % 2 ^ 32 ≠ atom then none else some (entry.name.take entry.nameLen)

/-! ## Attribute caches -/

def xcacheLookup (xcache : List Attr) (atom : ℕ) : Option Attr :=
  xcache.find? fun x => x.atom = atom

/-- `remove_old` of the attribute that was found. -/
def removeOld (xcache : List Attr) (atom : ℕ) : List Attr := xcache.eraseP fun x => x.atom = atom

/-- `xcache_update`; `none` when `xcache->size` wraps and the bytes are no list of attributes any
more. `xattr->size` is the length modulo `2 ^ 16`, and `memcpy` copies as much. -/
def xcacheUpdate (inode atom : ℕ) (data : List UInt8) (create replace : Bool) :
    Option (Except Errno Atable) :=
  let xcache := s.xcache inode
  let old := (xcacheLookup xcache atom).isSome
  if !old && replace then some (.error .enoattr)
  else if old && create then some (.error .eexist)
  else
    let xattr := ⟨atom % 2 ^ 16, data.take (data.length % 2 ^ 16)⟩
    let xcache := removeOld xcache atom ++ [xattr]
    if 2 ^ 16 ≤ xcacheSize xcache then none
    else
      let s := { s with xcache := Function.update s.xcache inode xcache }
      some (.ok (if old then s else useAtom blockbits s atom 1))

/-- `get_xattr` with a buffer that is large enough. -/
def getXattr (inode : ℕ) (name : List UInt8) : Except Errno (List UInt8) :=
  let atom := findAtom blockbits s name
  if atom = noAtom then .error .enoattr
  else
    match xcacheLookup (s.xcache inode) atom with
    | none => .error .enoattr
    | some xattr => .ok xattr.body

/-- `set_xattr`; an error of `xcache_update` leaves the atom that `make_atom` made. -/
def setXattr (inode : ℕ) (name data : List UInt8) (create replace : Bool) :
    Option (Atable × Option Errno) :=
  match makeAtom blockbits s name with
  | none => none
  | some (atom, s) =>
      if atom = noAtom then some (s, some .einval)
      else
        match xcacheUpdate blockbits s inode atom data create replace with
        | none => none
        | some (.error err) => some (s, some err)
        | some (.ok s) => some (s, none)

def delXattr (inode : ℕ) (name : List UInt8) : Atable × Option Errno :=
  let atom := findAtom blockbits s name
  if atom = noAtom then (s, some .enoattr)
  else if (xcacheLookup (s.xcache inode) atom).isNone then (s, some .enoattr)
  else
    let s := { s with
      xcache := Function.update s.xcache inode (removeOld (s.xcache inode) atom) }
    (useAtom blockbits s atom (-1), none)

end

end Tux3.Xattr
