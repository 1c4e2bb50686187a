import Tux3.Codec

/-!
# Inode attributes

The encoders and decoders of `iattr.c` and of the xattrs in `xattr.c`, over the bytes of an
inode table leaf. A pointer is an offset into these bytes.
-/
namespace Tux3.Iattr

open Segment

def encode64 (val : ℕ) : List Byte := encode32 (val / 2 ^ 32) ++ encode32 val

def decode64 (data : Bytes) (at' : ℕ) : ℕ := decode32 data at' * 2 ^ 32 + decode32 data (at' + 4)

def rdevAttr : ℕ := 0
def modeOwnerAttr : ℕ := 1
def dataBtreeAttr : ℕ := 2
def ctimeSizeAttr : ℕ := 3
def linkCountAttr : ℕ := 4
def mtimeAttr : ℕ := 5
def varAttrs : ℕ := 11
def idataAttr : ℕ := 11
def xattrAttr : ℕ := 12

/-- The table `atsize`. -/
def atsize : ℕ → ℕ
  | 0 => 8
  | 1 => 12
  | 2 => 8
  | 3 => 14
  | 4 => 4
  | 5 => 6
  | 11 => 2
  | 12 => 4
  | _ => 0

structure Timespec where
  sec : ℕ
  nsec : ℕ
  deriving DecidableEq, Repr

structure Root where
  depth : ℕ
  block : ℕ
  deriving DecidableEq, Repr

/-- `struct xattr`: the size is the length of the body. -/
structure Xattr where
  atom : BitVec 16
  body : List Byte
  deriving DecidableEq, Repr

/-- `struct xcache`: the xattrs stand one after the other. -/
structure Xcache where
  size : ℕ
  maxsize : ℕ
  xattrs : List Xattr
  deriving DecidableEq, Repr

/-- The attributes of `struct inode` and `tuxnode_t`. -/
structure Inode where
  present : ℕ
  rdev : ℕ
  mode : BitVec 32
  uid : BitVec 32
  gid : BitVec 32
  ctime : Timespec
  size : BitVec 64
  root : Root
  nlink : BitVec 32
  mtime : Timespec
  xcache : Option Xcache
  deriving DecidableEq, Repr

/-! ## Packed fields -/

/-- `new_encode_dev` in 32 bits. -/
def newEncodeDev (dev : ℕ) : BitVec 32 :=
  let major := BitVec.ofNat 32 (dev >>> 20)
  let minor := BitVec.ofNat 32 (dev &&& (2 ^ 20 - 1))
  minor &&& 0xff#32 ||| major <<< 8 ||| (minor &&& ~~~0xff#32) <<< 12

def newDecodeDev (dev : BitVec 32) : ℕ :=
  let major := (dev &&& 0xfff00#32) >>> 8
  let minor := dev &&& 0xff#32 ||| dev >>> 12 &&& 0xfff00#32
  (major <<< 20 ||| minor).toNat

def hugeEncodeDev (dev : ℕ) : ℕ := (newEncodeDev dev).toNat

def hugeDecodeDev (dev : ℕ) : ℕ := newDecodeDev (BitVec.ofNat 32 dev)

def packRoot (root : Root) : ℕ := (root.depth <<< 48 ||| root.block) % 2 ^ 64

def unpackRoot (v : ℕ) : Root := ⟨v >>> 48, v &&& (2 ^ 48 - 1)⟩

def timeAttrShift : ℕ := 16

def high32 (val : ℕ) : ℕ := val >>> 32

def billionths (val : ℕ) : ℕ := ((val &&& 0xffffffff) * 1000000000 + 0x80000000) >>> 32

def spectime (time : ℕ) : Timespec := ⟨high32 time, billionths time⟩

/-- `tuxtime` in 64 bits. -/
def tuxtime (time : Timespec) : ℕ :=
  let mult := 2 ^ 63 / 1000000000
  (time.sec <<< 32 + ((time.nsec * mult + 3 <<< 29) % 2 ^ 64) >>> 31) % 2 ^ 64

/-! ## Sizes -/

def encodeAsize (bits : ℕ) : ℕ :=
  (List.range varAttrs).foldl (fun need kind =>
    if bits.testBit kind then need + (atsize kind + 2) else need) 0

def sizeofXattr : ℕ := 4
def sizeofXcache : ℕ := 4

def encodeXsize (inode : Inode) : ℕ :=
  match inode.xcache with
  | none => 0
  | some xcache =>
      xcache.xattrs.foldl (fun size xattr => size + (2 + atsize xattrAttr + xattr.body.length)) 0

/-- `new_xcache`; the field `maxsize` has 16 bits. -/
def newXcache (maxsize : ℕ) : Xcache := ⟨sizeofXcache, maxsize % 2 ^ 16, []⟩

/-! ## Encoding -/

def encodeKind (kind version : ℕ) : List Byte := encode16 (kind <<< 12 ||| version)

/-- The bytes that the `switch` of `encode_attrs` writes. -/
def encodeAttr (inode : Inode) (kind : ℕ) : List Byte :=
  if kind = rdevAttr then encode64 (hugeEncodeDev inode.rdev)
  else if kind = modeOwnerAttr then
    encode32 inode.mode.toNat ++ encode32 inode.uid.toNat ++ encode32 inode.gid.toNat
  else if kind = ctimeSizeAttr then
    encode48 (tuxtime inode.ctime >>> timeAttrShift) ++ encode64 inode.size.toNat
  else if kind = dataBtreeAttr then encode64 (packRoot inode.root)
  else if kind = linkCountAttr then encode32 inode.nlink.toNat
  else if kind = mtimeAttr then encode48 (tuxtime inode.mtime >>> timeAttrShift)
  else []

/-- The loop of `encode_attrs` over the kinds; `limit` is `attrs + size` at the call. -/
def encodeAttrsFrom (inode : Inode) (version limit : ℕ) : List ℕ → Bytes × ℕ → Bytes × ℕ
  | [], (data, attrs) => (data, attrs)
  | kind :: kinds, (data, attrs) =>
      if !inode.present.testBit kind then encodeAttrsFrom inode version limit kinds (data, attrs)
      else if limit ≤ attrs + 3 then (data, attrs)
      else
        let bytes := encodeKind kind version ++ encodeAttr inode kind
        encodeAttrsFrom inode version limit kinds (put data attrs bytes, attrs + bytes.length)

def encodeAttrs (inode : Inode) (version : ℕ) (data : Bytes) (attrs size : ℕ) : Bytes × ℕ :=
  encodeAttrsFrom inode version (attrs + size) (List.range varAttrs) (data, attrs)

/-- The loop of `encode_xattrs`; `limit` is `attrs + size` at the call. -/
def encodeXattrsFrom (version limit : ℕ) : List Xattr → Bytes × ℕ → Bytes × ℕ
  | [], (data, attrs) => (data, attrs)
  | xattr :: xattrs, (data, attrs) =>
      if limit ≤ attrs + 3 then (data, attrs)
      else
        let bytes := encodeKind xattrAttr version ++ encode16 (xattr.body.length + 2) ++
          encode16 xattr.atom.toNat ++ xattr.body
        encodeXattrsFrom version limit xattrs (put data attrs bytes, attrs + bytes.length)

def encodeXattrs (inode : Inode) (version : ℕ) (data : Bytes) (attrs size : ℕ) : Bytes × ℕ :=
  match inode.xcache with
  | none => (data, attrs)
  | some xcache => encodeXattrsFrom version (attrs + size) xcache.xattrs (data, attrs)

/-- `encode_attrs` followed by `encode_xattrs`, as `store_attrs` calls them. -/
def encodeInode (inode : Inode) (version : ℕ) (data : Bytes) (base size : ℕ) : Bytes × ℕ :=
  let (data, attr) := encodeAttrs inode version data base size
  encodeXattrs inode version data attr (base + size - attr)

/-- What `store_attrs` writes at `base`; a result `none` is a failed assertion. -/
def storeAttrs (inode : Inode) (version : ℕ) (data : Bytes) (base : ℕ) : Option Bytes :=
  let size := encodeAsize inode.present + encodeXsize inode
  if size = 0 then none
  else
    let (data, attr) := encodeInode inode version data base size
    if attr = base + size then some data else none

/-! ## Decoding -/

/-- The loop of `decode_xsize`, with as many steps as there can be. -/
def decodeXsizeFrom (version : ℕ) (data : Bytes) (limit : ℕ) : ℕ → ℕ → ℕ → ℕ
  | 0, _, total => total
  | fuel + 1, attrs, total =>
      if limit ≤ attrs + 1 then total
      else
        let head := decode16 data attrs
        let kind := head >>> 12
        if kind = xattrAttr ∨ kind = idataAttr then
          let bytes := decode16 data (attrs + 2)
          decodeXsizeFrom version data limit fuel (attrs + 4 + bytes)
            (if head &&& 0xfff = version then u32 (total + sizeofXattr + bytes + (2 ^ 32 - 2))
              else total)
        else decodeXsizeFrom version data limit fuel (attrs + 2 + atsize kind) total

def decodeXsize (version : ℕ) (data : Bytes) (attrs size : ℕ) : ℕ :=
  let total := decodeXsizeFrom version data (attrs + size) size attrs 0
  if total ≠ 0 then u32 (total + sizeofXcache) else 0

/-- `count` bytes from `attrs`. -/
def readBytes (data : Bytes) (attrs count : ℕ) : List Byte :=
  (List.range count).map fun i => data (attrs + i)

/-- One case of the `switch` of `decode_attrs`: the inode and the bytes read. A result `none` is
the `default` case, a failed assertion or a missing xcache. -/
def decodeAttr (inode : Inode) (kind : ℕ) (data : Bytes) (attrs : ℕ) : Option (Inode × ℕ) :=
  if kind = rdevAttr then some ({ inode with rdev := hugeDecodeDev (decode64 data attrs) }, 8)
  else if kind = modeOwnerAttr then
    some ({ inode with
      mode := BitVec.ofNat 32 (decode32 data attrs)
      uid := BitVec.ofNat 32 (decode32 data (attrs + 4))
      gid := BitVec.ofNat 32 (decode32 data (attrs + 8)) }, 12)
  else if kind = ctimeSizeAttr then
    some ({ inode with
      ctime := spectime (decode48 data attrs <<< timeAttrShift)
      size := BitVec.ofNat 64 (decode64 data (attrs + 6)) }, 14)
  else if kind = dataBtreeAttr then
    some ({ inode with root := unpackRoot (decode64 data attrs) }, 8)
  else if kind = linkCountAttr then
    some ({ inode with nlink := BitVec.ofNat 32 (decode32 data attrs) }, 4)
  else if kind = mtimeAttr then
    some ({ inode with mtime := spectime (decode48 data attrs <<< timeAttrShift) }, 6)
  else if kind = xattrAttr then do
    let bytes := decode16 data attrs
    let atom := BitVec.ofNat 16 (decode16 data (attrs + 2))
    let xcache ← inode.xcache
    let xsize := (bytes + (2 ^ 16 - 2)) % 2 ^ 16
    if xcache.size + (sizeofXattr + xsize) ≤ xcache.maxsize then
      some ({ inode with
        xcache := some { xcache with
          size := (xcache.size + (sizeofXattr + xsize)) % 2 ^ 16
          xattrs := xcache.xattrs ++ [⟨atom, readBytes data (attrs + 4) xsize⟩] } }, 4 + xsize)
    else none
  else none

/-- The loop of `decode_attrs`, with as many steps as there can be. -/
def decodeAttrsFrom (version : ℕ) (data : Bytes) (limit : ℕ) :
    ℕ → ℕ → Inode → Option (Inode × ℕ)
  | 0, attrs, inode => some (inode, attrs)
  | fuel + 1, attrs, inode =>
      if limit ≤ attrs + 1 then some (inode, attrs)
      else do
        let head := decode16 data attrs
        let kind := head >>> 12
        if head &&& 0xfff ≠ version then
          decodeAttrsFrom version data limit fuel (attrs + 2 + atsize kind) inode
        else
          let (inode, count) ← decodeAttr inode kind data (attrs + 2)
          decodeAttrsFrom version data limit fuel (attrs + 2 + count)
            { inode with present := inode.present ||| 1 <<< kind }

def decodeAttrs (inode : Inode) (version : ℕ) (data : Bytes) (attrs size : ℕ) :
    Option (Inode × ℕ) :=
  decodeAttrsFrom version data (attrs + size) size attrs inode

/-- The part of `open_inode` that reads the attributes of a fresh inode. -/
def openAttrs (fresh : Inode) (version : ℕ) (data : Bytes) (attrs size : ℕ) :
    Option (Inode × ℕ) :=
  let xsize := decodeXsize version data attrs size
  let inode := { fresh with xcache := if xsize ≠ 0 then some (newXcache xsize) else none }
  decodeAttrs inode version data attrs size

end Tux3.Iattr
