import Tux3.Iattr
import Mathlib.Tactic.IntervalCases

/-!
# Inode attributes survive save and open

The encoders write the bytes that the size functions count, and the decoders read from them the
attributes back.
-/
namespace Tux3.Iattr

open Segment

/-! ## Packed fields -/

theorem decode64_encode64 {data : Bytes} {at' val : ℕ} (h : Holds data at' (encode64 val))
    (hv : val < 2 ^ 64) : decode64 data at' = val := by
  obtain ⟨hhigh, hlow⟩ := holds_append.mp h
  rw [encode32_length] at hlow
  rw [decode64, decode32_encode32 hhigh, decode32_encode32 hlow]
  omega

/-- The place in a packed device number where bit `i` of the number is. -/
def devBit (i : ℕ) : ℕ := if i < 8 then i else if i < 20 then i + 12 else i - 12

theorem encodeDev_bit (x : BitVec 32) {i : ℕ} (hi : i < 32) :
    ((x &&& 0xfffff#32) &&& 0xff#32 ||| (x >>> 20) <<< 8 |||
      ((x &&& 0xfffff#32) &&& ~~~0xff#32) <<< 12).getLsbD i = x.getLsbD (devBit i) := by
  interval_cases i <;> simp [devBit]

theorem decodeDev_bit (x : BitVec 32) {i : ℕ} (hi : i < 32) :
    (((x &&& 0xfff00#32) >>> 8) <<< 20 ||| (x &&& 0xff#32 ||| x >>> 12 &&& 0xfff00#32)).getLsbD i =
      x.getLsbD (devBit i) := by
  interval_cases i <;> simp [devBit]

theorem dev_roundTrip (x : BitVec 32) :
    let dev := (x &&& 0xfffff#32) &&& 0xff#32 ||| (x >>> 20) <<< 8 |||
      ((x &&& 0xfffff#32) &&& ~~~0xff#32) <<< 12
    ((dev &&& 0xfff00#32) >>> 8) <<< 20 |||
      (dev &&& 0xff#32 ||| dev >>> 12 &&& 0xfff00#32) = x := by
  refine BitVec.eq_of_getLsbD_eq fun i hi => ?_
  have hlt : devBit i < 32 := by
    unfold devBit
    split
    · omega
    · split <;> omega
  have hself : devBit (devBit i) = i := by
    unfold devBit
    split_ifs <;> omega
  rw [decodeDev_bit _ hi, encodeDev_bit _ hlt, hself]

theorem newDecodeDev_encode {dev : ℕ} (h : dev < 2 ^ 32) :
    newDecodeDev (newEncodeDev dev) = dev := by
  have hmajor : BitVec.ofNat 32 (dev >>> 20) = BitVec.ofNat 32 dev >>> 20 := by
    refine BitVec.eq_of_toNat_eq ?_
    rw [BitVec.toNat_ushiftRight, BitVec.toNat_ofNat, BitVec.toNat_ofNat, Nat.mod_eq_of_lt h]
    refine Nat.mod_eq_of_lt (Nat.lt_of_le_of_lt ?_ h)
    rw [Nat.shiftRight_eq_div_pow]
    exact Nat.div_le_self _ _
  have hminor : BitVec.ofNat 32 (dev &&& (2 ^ 20 - 1)) = BitVec.ofNat 32 dev &&& 0xfffff#32 := by
    refine BitVec.eq_of_toNat_eq ?_
    rw [BitVec.toNat_and, BitVec.toNat_ofNat, BitVec.toNat_ofNat, Nat.mod_eq_of_lt h]
    exact Nat.mod_eq_of_lt (Nat.lt_of_le_of_lt Nat.and_le_left h)
  have hround := dev_roundTrip (BitVec.ofNat 32 dev)
  dsimp only at hround
  rw [newDecodeDev, newEncodeDev, hmajor, hminor, hround, BitVec.toNat_ofNat, Nat.mod_eq_of_lt h]

theorem hugeDecodeDev_encode {dev : ℕ} (h : dev < 2 ^ 32) :
    hugeDecodeDev (hugeEncodeDev dev) = dev := by
  rw [hugeDecodeDev, hugeEncodeDev, BitVec.ofNat_toNat, BitVec.setWidth_eq, newDecodeDev_encode h]

theorem unpackRoot_pack {root : Root} (hdepth : root.depth < 2 ^ 16)
    (hblock : root.block < 2 ^ 48) :
    unpackRoot (packRoot root) = root := by
  have hsum : root.depth <<< 48 ||| root.block = root.depth * 2 ^ 48 + root.block := by
    rw [← Nat.shiftLeft_add_eq_or_of_lt hblock, Nat.shiftLeft_eq]
  have hpack : packRoot root = root.depth * 2 ^ 48 + root.block := by
    rw [packRoot, hsum]
    omega
  rw [unpackRoot, hpack, Nat.and_two_pow_sub_one_eq_mod, Nat.shiftRight_eq_div_pow]
  have h1 : (root.depth * 2 ^ 48 + root.block) / 2 ^ 48 = root.depth := by omega
  have h2 : (root.depth * 2 ^ 48 + root.block) % 2 ^ 48 = root.block := by omega
  rw [h1, h2]

theorem tuxtime_lt (t : Timespec) : tuxtime t >>> timeAttrShift < 2 ^ 48 := by
  have h : tuxtime t < 2 ^ 64 := Nat.mod_lt _ (Nat.two_pow_pos 64)
  rw [timeAttrShift, Nat.shiftRight_eq_div_pow]
  omega

theorem kind_split {kind version : ℕ} (hkind : kind < 16) (hversion : version < 2 ^ 12) :
    ((kind <<< 12 ||| version) % 2 ^ 16) >>> 12 = kind ∧
      (kind <<< 12 ||| version) % 2 ^ 16 &&& 0xfff = version := by
  have hsum : kind <<< 12 ||| version = kind * 2 ^ 12 + version := by
    rw [← Nat.shiftLeft_add_eq_or_of_lt hversion, Nat.shiftLeft_eq]
  have hmask : (0xfff : ℕ) = 2 ^ 12 - 1 := by norm_num
  rw [hsum, hmask, Nat.and_two_pow_sub_one_eq_mod, Nat.shiftRight_eq_div_pow]
  constructor <;> omega

/-! ## What is written -/

/-- The fixed kinds of an inode in ascending order. -/
def kinds (inode : Inode) : List ℕ := (List.range varAttrs).filter inode.present.testBit

def attrRecord (inode : Inode) (version kind : ℕ) : List Byte :=
  encodeKind kind version ++ encodeAttr inode kind

def attrBytes (inode : Inode) (version : ℕ) (ks : List ℕ) : List Byte :=
  ks.flatMap (attrRecord inode version)

def xattrRecord (version : ℕ) (xattr : Xattr) : List Byte :=
  encodeKind xattrAttr version ++ encode16 (xattr.body.length + 2) ++ encode16 xattr.atom.toNat ++
    xattr.body

def xattrBytes (version : ℕ) (xattrs : List Xattr) : List Byte :=
  xattrs.flatMap (xattrRecord version)

def xattrList (inode : Inode) : List Xattr := inode.xcache.elim [] Xcache.xattrs

section
variable {inode : Inode} {version kind : ℕ}

theorem mem_kinds (h : inode.present < 2 ^ 6) :
    kind ∈ kinds inode ↔ inode.present.testBit kind = true := by
  rw [kinds, List.mem_filter, List.mem_range]
  refine ⟨And.right, fun hb => ⟨?_, hb⟩⟩
  by_contra hge
  have hle : 2 ^ 6 ≤ 2 ^ kind :=
    Nat.pow_le_pow_right (by norm_num) (by simp only [varAttrs] at hge; omega)
  rw [Nat.testBit_lt_two_pow (Nat.lt_of_lt_of_le h hle)] at hb
  cases hb

theorem kinds_lt (h : inode.present < 2 ^ 6) (hk : kind ∈ kinds inode) : kind < 6 := by
  by_contra hge
  have hle : 2 ^ 6 ≤ 2 ^ kind := Nat.pow_le_pow_right (by norm_num) (by omega)
  have hb := (mem_kinds h).mp hk
  rw [Nat.testBit_lt_two_pow (Nat.lt_of_lt_of_le h hle)] at hb
  cases hb

@[simp] theorem encodeKind_length : (encodeKind kind version).length = 2 := rfl

theorem encodeAttr_length (h : kind < 6) : (encodeAttr inode kind).length = atsize kind := by
  interval_cases kind <;> rfl

theorem atsize_ge (h : kind < 6) : 4 ≤ atsize kind := by
  interval_cases kind <;> decide

theorem attrRecord_length (h : kind < 6) :
    (attrRecord inode version kind).length = 2 + atsize kind := by
  rw [attrRecord, List.length_append, encodeKind_length, encodeAttr_length h]

theorem xattrRecord_length (x : Xattr) : (xattrRecord version x).length = 6 + x.body.length := by
  simp only [xattrRecord, List.length_append, encodeKind_length, encode16, List.length_cons,
    List.length_nil]

theorem encodeAsize_eq (h : ∀ k ∈ kinds inode, k < 6) :
    encodeAsize inode.present = (attrBytes inode version (kinds inode)).length := by
  have hfold : ∀ ks : List ℕ, (∀ k ∈ ks.filter inode.present.testBit, k < 6) → ∀ n,
      ks.foldl (fun need kind =>
        if inode.present.testBit kind then need + (atsize kind + 2) else need) n =
      n + (attrBytes inode version (ks.filter inode.present.testBit)).length := by
    intro ks
    induction ks with
    | nil => exact fun _ n => rfl
    | cons k ks ih =>
        intro hlt n
        rw [List.foldl_cons]
        by_cases hk : inode.present.testBit k = true
        · rw [List.filter_cons_of_pos hk] at hlt ⊢
          rw [if_pos hk, ih (fun j hj => hlt j (List.mem_cons_of_mem k hj)), attrBytes, attrBytes,
            List.flatMap_cons, List.length_append, attrRecord_length (hlt k List.mem_cons_self)]
          omega
        · rw [List.filter_cons_of_neg hk] at hlt ⊢
          rw [if_neg hk, ih hlt]
  rw [encodeAsize, hfold _ h, Nat.zero_add]
  rfl

theorem encodeXsize_eq : encodeXsize inode = (xattrBytes version (xattrList inode)).length := by
  rw [encodeXsize, xattrList]
  cases inode.xcache with
  | none => rfl
  | some xcache =>
      have hfold : ∀ (xs : List Xattr) (n : ℕ),
          xs.foldl (fun size xattr => size + (2 + atsize xattrAttr + xattr.body.length)) n =
            n + (xattrBytes version xs).length := by
        intro xs
        induction xs with
        | nil => exact fun n => rfl
        | cons x xs ih =>
            intro n
            rw [List.foldl_cons, ih, xattrBytes, xattrBytes, List.flatMap_cons, List.length_append,
              xattrRecord_length]
            simp only [atsize, xattrAttr]
            omega
      exact (hfold _ 0).trans (Nat.zero_add _)

/-- The encoder of the fixed attributes never stops early. -/
theorem encodeAttrsFrom_eq {limit : ℕ} {ks : List ℕ}
    (hlt : ∀ k ∈ ks.filter inode.present.testBit, k < 6) {data : Bytes} {attrs : ℕ}
    (hlimit : attrs + (attrBytes inode version (ks.filter inode.present.testBit)).length ≤ limit) :
    encodeAttrsFrom inode version limit ks (data, attrs) =
      (put data attrs (attrBytes inode version (ks.filter inode.present.testBit)),
        attrs + (attrBytes inode version (ks.filter inode.present.testBit)).length) := by
  induction ks generalizing data attrs with
  | nil => rw [encodeAttrsFrom, List.filter_nil, attrBytes, List.flatMap_nil, put_nil]; rfl
  | cons k ks ih =>
      rw [encodeAttrsFrom]
      by_cases hk : inode.present.testBit k = true
      · rw [List.filter_cons_of_pos hk] at hlt hlimit ⊢
        have hk6 := hlt k List.mem_cons_self
        have hlen := @attrRecord_length inode version k hk6
        have hsize := atsize_ge hk6
        rw [attrBytes, List.flatMap_cons, List.length_append] at hlimit
        rw [hk, Bool.not_true, if_neg Bool.false_ne_true, if_neg (by omega)]
        dsimp only
        rw [ih (fun j hj => hlt j (List.mem_cons_of_mem k hj))]
        · rw [← attrRecord, put_put, attrBytes, attrBytes, List.flatMap_cons, List.length_append,
            Nat.add_assoc]
        · rw [← attrRecord, attrBytes]
          omega
      · rw [List.filter_cons_of_neg hk] at hlt hlimit ⊢
        rw [Bool.not_eq_true] at hk
        rw [hk, Bool.not_false, if_pos rfl, ih hlt hlimit]

theorem encodeXattrsFrom_eq {limit : ℕ} {xs : List Xattr} {data : Bytes} {attrs : ℕ}
    (hlimit : attrs + (xattrBytes version xs).length ≤ limit) :
    encodeXattrsFrom version limit xs (data, attrs) =
      (put data attrs (xattrBytes version xs), attrs + (xattrBytes version xs).length) := by
  induction xs generalizing data attrs with
  | nil => rw [encodeXattrsFrom, xattrBytes, List.flatMap_nil, put_nil]; rfl
  | cons x xs ih =>
      have hlen := @xattrRecord_length version x
      rw [xattrBytes, List.flatMap_cons, List.length_append] at hlimit
      rw [encodeXattrsFrom, if_neg (by omega)]
      dsimp only
      rw [← xattrRecord, ih (by rw [xattrBytes]; omega), put_put, xattrBytes, xattrBytes,
        List.flatMap_cons, List.length_append, Nat.add_assoc]

/-- The record of an inode in its leaf. -/
def inodeBytes (inode : Inode) (version : ℕ) : List Byte :=
  attrBytes inode version (kinds inode) ++ xattrBytes version (xattrList inode)

theorem inodeBytes_length (h : ∀ k ∈ kinds inode, k < 6) :
    (inodeBytes inode version).length = encodeAsize inode.present + encodeXsize inode := by
  rw [inodeBytes, List.length_append, @encodeAsize_eq inode version h,
    @encodeXsize_eq inode version]

/-- The encoders write the whole record. -/
theorem encodeInode_eq (h : ∀ k ∈ kinds inode, k < 6) (data : Bytes) (base : ℕ) :
    encodeInode inode version data base (encodeAsize inode.present + encodeXsize inode) =
      (put data base (inodeBytes inode version),
        base + (encodeAsize inode.present + encodeXsize inode)) := by
  have hasize := @encodeAsize_eq inode version h
  have hxsize := @encodeXsize_eq inode version
  rw [inodeBytes]
  set ks := attrBytes inode version (kinds inode) with hks
  set xs := xattrBytes version (xattrList inode) with hxs
  set size := encodeAsize inode.present + encodeXsize inode with hsize
  have hcat : size = ks.length + xs.length := by rw [hsize, hasize, hxsize]
  rw [encodeInode, encodeAttrs, encodeAttrsFrom_eq h (by rw [← kinds, ← hks]; omega)]
  dsimp only
  rw [← kinds, ← hks, encodeXattrs]
  cases hx : inode.xcache with
  | none =>
      have hnil : xs = [] := by rw [hxs, xattrList, hx]; rfl
      rw [hnil, List.append_nil, hcat, hnil, List.length_nil, Nat.add_zero]
  | some c =>
      have hlist : xattrList inode = c.xattrs := by rw [xattrList, hx]; rfl
      dsimp only
      rw [encodeXattrsFrom_eq (by rw [← hlist, ← hxs]; omega), ← hlist, ← hxs, put_put, hcat,
        Nat.add_assoc]

end

/-! ## What is read -/

section
variable {inode : Inode} {version : ℕ} {data : Bytes}

theorem head_eq {attrs kind : ℕ} (hkind : kind < 16) (hversion : version < 2 ^ 12)
    (h : Holds data attrs (encodeKind kind version)) :
    decode16 data attrs >>> 12 = kind ∧ decode16 data attrs &&& 0xfff = version := by
  rw [decode16_encode16 h]
  exact kind_split hkind hversion

theorem readBytes_eq {attrs : ℕ} {body : List Byte} (h : Holds data attrs body) :
    readBytes data attrs body.length = body := by
  refine List.ext_getElem ?_ fun i h1 h2 => ?_
  · rw [readBytes, List.length_map, List.length_range]
  · simp only [readBytes, List.getElem_map, List.getElem_range]
    exact h i _ (List.getElem?_eq_getElem h2)

/-- What one decoded attribute does to the inode. -/
def restore (source : Inode) (inode : Inode) (kind : ℕ) : Inode :=
  let inode := { inode with present := inode.present ||| 1 <<< kind }
  if kind = rdevAttr then { inode with rdev := source.rdev }
  else if kind = modeOwnerAttr then
    { inode with mode := source.mode, uid := source.uid, gid := source.gid }
  else if kind = ctimeSizeAttr then
    { inode with
      ctime := spectime ((tuxtime source.ctime >>> timeAttrShift) <<< timeAttrShift)
      size := source.size }
  else if kind = dataBtreeAttr then { inode with root := source.root }
  else if kind = linkCountAttr then { inode with nlink := source.nlink }
  else if kind = mtimeAttr then
    { inode with mtime := spectime ((tuxtime source.mtime >>> timeAttrShift) <<< timeAttrShift) }
  else inode

/-- The fields that the format can hold. -/
structure Fits (inode : Inode) : Prop where
  rdev : inode.rdev < 2 ^ 32
  depth : inode.root.depth < 2 ^ 16
  block : inode.root.block < 2 ^ 48

theorem ofNat_mod (x : BitVec 32) : BitVec.ofNat 32 (x.toNat % 2 ^ 32) = x := by
  rw [Nat.mod_eq_of_lt x.isLt, BitVec.ofNat_toNat, BitVec.setWidth_eq]

/-- A decoded attribute is the encoded one. -/
def Decodes (inode fresh : Inode) (kind : ℕ) (data : Bytes) (attrs : ℕ) : Prop :=
  ∃ r, decodeAttr fresh kind data attrs = some (r, atsize kind) ∧
    { r with present := r.present ||| 1 <<< kind } = restore inode fresh kind

section
variable {attrs : ℕ} (fresh : Inode)

theorem decodes_rdev (hrdev : inode.rdev < 2 ^ 32)
    (h : Holds data attrs (encode64 (hugeEncodeDev inode.rdev))) :
    Decodes inode fresh rdevAttr data attrs := by
  have hlt : hugeEncodeDev inode.rdev < 2 ^ 64 :=
    Nat.lt_trans (newEncodeDev inode.rdev).isLt (by norm_num)
  have hdec := decode64_encode64 h hlt
  refine ⟨{ fresh with rdev := inode.rdev }, ?_, ?_⟩
  · simp only [decodeAttr, if_true, hdec, hugeDecodeDev_encode hrdev]
    rfl
  · simp only [restore, if_true]

theorem decodes_owner (h : Holds data attrs
      (encode32 inode.mode.toNat ++ encode32 inode.uid.toNat ++ encode32 inode.gid.toNat)) :
    Decodes inode fresh modeOwnerAttr data attrs := by
  obtain ⟨h12, h3⟩ := holds_append.mp h
  obtain ⟨h1, h2⟩ := holds_append.mp h12
  have hmode := decode32_encode32 h1
  have huid : decode32 data (attrs + 4) = _ := decode32_encode32 h2
  have hgid : decode32 data (attrs + 8) = _ := decode32_encode32 h3
  have h0 : modeOwnerAttr ≠ rdevAttr := by decide
  refine ⟨{ fresh with mode := inode.mode, uid := inode.uid, gid := inode.gid }, ?_, ?_⟩
  · simp only [decodeAttr, h0, if_true, if_false, hmode, huid, hgid, ofNat_mod]
    rfl
  · simp only [restore, h0, if_true, if_false]

theorem decodes_root (hdepth : inode.root.depth < 2 ^ 16)
    (hblock : inode.root.block < 2 ^ 48) (h : Holds data attrs (encode64 (packRoot inode.root))) :
    Decodes inode fresh dataBtreeAttr data attrs := by
  have hlt : packRoot inode.root < 2 ^ 64 := Nat.mod_lt _ (Nat.two_pow_pos 64)
  have hdec := decode64_encode64 h hlt
  have h0 : dataBtreeAttr ≠ rdevAttr := by decide
  have h1 : dataBtreeAttr ≠ modeOwnerAttr := by decide
  have h2 : dataBtreeAttr ≠ ctimeSizeAttr := by decide
  refine ⟨{ fresh with root := inode.root }, ?_, ?_⟩
  · simp only [decodeAttr, h0, h1, h2, if_true, if_false, hdec,
      unpackRoot_pack hdepth hblock]
    rfl
  · simp only [restore, h0, h1, h2, if_true, if_false]

theorem decodes_ctimeSize (h : Holds data attrs
      (encode48 (tuxtime inode.ctime >>> timeAttrShift) ++ encode64 inode.size.toNat)) :
    Decodes inode fresh ctimeSizeAttr data attrs := by
  obtain ⟨htime, hsize⟩ := holds_append.mp h
  have hsize : decode64 data (attrs + 6) = _ := decode64_encode64 hsize inode.size.isLt
  have htime := decode48_encode48 htime (tuxtime_lt inode.ctime)
  have h0 : ctimeSizeAttr ≠ rdevAttr := by decide
  have h1 : ctimeSizeAttr ≠ modeOwnerAttr := by decide
  refine ⟨{ fresh with 
      ctime := spectime ((tuxtime inode.ctime >>> timeAttrShift) <<< timeAttrShift)
      size := inode.size }, ?_, ?_⟩
  · simp only [decodeAttr, h0, h1, if_true, if_false, hsize, htime, BitVec.ofNat_toNat,
      BitVec.setWidth_eq]
    rfl
  · simp only [restore, h0, h1, if_true, if_false]

theorem decodes_linkCount (h : Holds data attrs (encode32 inode.nlink.toNat)) :
    Decodes inode fresh linkCountAttr data attrs := by
  have hdec := decode32_encode32 h
  have h0 : linkCountAttr ≠ rdevAttr := by decide
  have h1 : linkCountAttr ≠ modeOwnerAttr := by decide
  have h2 : linkCountAttr ≠ dataBtreeAttr := by decide
  have h3 : linkCountAttr ≠ ctimeSizeAttr := by decide
  refine ⟨{ fresh with nlink := inode.nlink }, ?_, ?_⟩
  · simp only [decodeAttr, h0, h1, h2, h3, if_true, if_false, hdec, ofNat_mod]
    rfl
  · simp only [restore, h0, h1, h2, h3, if_true, if_false]

theorem decodes_mtime (h : Holds data attrs (encode48 (tuxtime inode.mtime >>> timeAttrShift))) :
    Decodes inode fresh mtimeAttr data attrs := by
  have hdec := decode48_encode48 h (tuxtime_lt inode.mtime)
  have h0 : mtimeAttr ≠ rdevAttr := by decide
  have h1 : mtimeAttr ≠ modeOwnerAttr := by decide
  have h2 : mtimeAttr ≠ dataBtreeAttr := by decide
  have h3 : mtimeAttr ≠ ctimeSizeAttr := by decide
  have h4 : mtimeAttr ≠ linkCountAttr := by decide
  refine ⟨{ fresh with 
      mtime := spectime ((tuxtime inode.mtime >>> timeAttrShift) <<< timeAttrShift) }, ?_, ?_⟩
  · simp only [decodeAttr, h0, h1, h2, h3, h4, if_true, if_false, hdec]
    rfl
  · simp only [restore, h0, h1, h2, h3, h4, if_true, if_false]

end

theorem decodes_of_lt (hfits : Fits inode) {kind attrs : ℕ} (hkind : kind < 6) (fresh : Inode)
    (h : Holds data attrs (encodeAttr inode kind)) : Decodes inode fresh kind data attrs := by
  unfold encodeAttr at h
  by_cases h0 : kind = rdevAttr
  · rw [if_pos h0] at h
    exact h0 ▸ decodes_rdev fresh hfits.rdev h
  rw [if_neg h0] at h
  by_cases h1 : kind = modeOwnerAttr
  · rw [if_pos h1] at h
    exact h1 ▸ decodes_owner fresh h
  rw [if_neg h1] at h
  by_cases h2 : kind = ctimeSizeAttr
  · rw [if_pos h2] at h
    exact h2 ▸ decodes_ctimeSize fresh h
  rw [if_neg h2] at h
  by_cases h3 : kind = dataBtreeAttr
  · rw [if_pos h3] at h
    exact h3 ▸ decodes_root fresh hfits.depth hfits.block h
  rw [if_neg h3] at h
  by_cases h4 : kind = linkCountAttr
  · rw [if_pos h4] at h
    exact h4 ▸ decodes_linkCount fresh h
  rw [if_neg h4] at h
  have h5 : kind = mtimeAttr := by
    simp only [rdevAttr, modeOwnerAttr, ctimeSizeAttr, dataBtreeAttr, linkCountAttr,
      mtimeAttr] at *
    omega
  rw [if_pos h5] at h
  exact h5 ▸ decodes_mtime fresh h

/-- The decoder steps over the records of the fixed kinds. -/
theorem decodeAttrsFrom_kinds (hfits : Fits inode) (hversion : version < 2 ^ 12) {ks : List ℕ}
    (hlt : ∀ k ∈ ks, k < 6) {attrs limit : ℕ} (h : Holds data attrs (attrBytes inode version ks))
    (hlimit : attrs + (attrBytes inode version ks).length ≤ limit) (fuel : ℕ) (fresh : Inode) :
    decodeAttrsFrom version data limit (fuel + ks.length) attrs fresh =
      decodeAttrsFrom version data limit fuel (attrs + (attrBytes inode version ks).length)
        (ks.foldl (restore inode) fresh) := by
  induction ks generalizing attrs fresh with
  | nil => rfl
  | cons k ks ih =>
      have hk := hlt k List.mem_cons_self
      have hlen := @attrRecord_length inode version k hk
      rw [attrBytes, List.flatMap_cons] at h
      rw [attrBytes, List.flatMap_cons, List.length_append] at hlimit
      obtain ⟨hrec, hrest⟩ := holds_append.mp h
      obtain ⟨hhead, hattr⟩ := holds_append.mp hrec
      obtain ⟨hkind, hver⟩ := head_eq (by omega) hversion hhead
      obtain ⟨r, hr, hrestore⟩ := decodes_of_lt hfits hk fresh hattr
      rw [encodeKind_length] at hr
      rw [List.length_cons, ← Nat.add_assoc, decodeAttrsFrom, if_neg (by omega)]
      simp only [hkind, hver, ne_eq, not_true, if_false, hr, Option.bind_eq_bind,
        Option.bind_some]
      rw [hrestore, Nat.add_assoc attrs, ← hlen, ih (fun j hj => hlt j (List.mem_cons_of_mem k hj))
        hrest (by rw [attrBytes]; omega), List.foldl_cons, attrBytes, attrBytes, List.flatMap_cons,
        List.length_append, Nat.add_assoc]

/-- What one decoded xattr does to the inode. -/
def addXattr (inode : Inode) (x : Xattr) : Inode :=
  { inode with
    present := inode.present ||| 1 <<< xattrAttr
    xcache := inode.xcache.map fun c =>
      { c with size := c.size + (sizeofXattr + x.body.length), xattrs := c.xattrs ++ [x] } }

/-- The bytes of xattrs in a cache. -/
def xattrsSize (xs : List Xattr) : ℕ := (xs.map fun x => sizeofXattr + x.body.length).sum

theorem decodeAttr_xattr {fresh : Inode} {c : Xcache} {x : Xattr} {attrs : ℕ}
    (hcache : fresh.xcache = some c)
    (hroom : c.size + (sizeofXattr + x.body.length) ≤ c.maxsize) (hmax : c.maxsize < 2 ^ 16)
    (h : Holds data attrs (encode16 (x.body.length + 2) ++ encode16 x.atom.toNat ++ x.body)) :
    ∃ r, decodeAttr fresh xattrAttr data attrs = some (r, 4 + x.body.length) ∧
      { r with present := r.present ||| 1 <<< xattrAttr } = addXattr fresh x := by
  obtain ⟨h12, hbody⟩ := holds_append.mp h
  obtain ⟨h1, h2⟩ := holds_append.mp h12
  simp only [sizeofXattr] at hroom
  have hbytes : decode16 data attrs = x.body.length + 2 := by
    rw [decode16_encode16 h1]
    exact Nat.mod_eq_of_lt (by omega)
  have hatom : BitVec.ofNat 16 (decode16 data (attrs + 2)) = x.atom := by
    have hdec : decode16 data (attrs + 2) = _ := decode16_encode16 h2
    rw [hdec, Nat.mod_eq_of_lt x.atom.isLt, BitVec.ofNat_toNat, BitVec.setWidth_eq]
  have hxsize : (x.body.length + 2 + (2 ^ 16 - 2)) % 2 ^ 16 = x.body.length := by omega
  have hread : readBytes data (attrs + 4) x.body.length = x.body := readBytes_eq hbody
  have hsize : (c.size + (4 + x.body.length)) % 2 ^ 16 = c.size + (4 + x.body.length) :=
    Nat.mod_eq_of_lt (by omega)
  have h0 : xattrAttr ≠ rdevAttr := by decide
  have h1 : xattrAttr ≠ modeOwnerAttr := by decide
  have h2 : xattrAttr ≠ ctimeSizeAttr := by decide
  have h3 : xattrAttr ≠ dataBtreeAttr := by decide
  have h4 : xattrAttr ≠ linkCountAttr := by decide
  have h5 : xattrAttr ≠ mtimeAttr := by decide
  refine ⟨{ fresh with
    xcache := some { c with
      size := c.size + (4 + x.body.length), xattrs := c.xattrs ++ [x] } }, ?_, ?_⟩
  · simp only [decodeAttr, h0, h1, h2, h3, h4, h5, if_true, if_false, hcache, hbytes, hatom, hxsize,
      hread, sizeofXattr, hsize, Option.bind_eq_bind, Option.bind_some, if_pos hroom]
  · simp only [addXattr, hcache, Option.map_some, sizeofXattr]

/-- The decoder steps over the records of the xattrs. -/
theorem decodeAttrsFrom_xattrs (hversion : version < 2 ^ 12) {xs : List Xattr} {attrs limit : ℕ}
    (h : Holds data attrs (xattrBytes version xs))
    (hlimit : attrs + (xattrBytes version xs).length ≤ limit) {fresh : Inode} {c : Xcache}
    (hcache : fresh.xcache = some c) (hroom : c.size + xattrsSize xs ≤ c.maxsize)
    (hmax : c.maxsize < 2 ^ 16) (fuel : ℕ) :
    decodeAttrsFrom version data limit (fuel + xs.length) attrs fresh =
      decodeAttrsFrom version data limit fuel (attrs + (xattrBytes version xs).length)
        (xs.foldl addXattr fresh) := by
  induction xs generalizing attrs fresh c with
  | nil => rfl
  | cons x xs ih =>
      have hlen := @xattrRecord_length version x
      rw [xattrBytes, List.flatMap_cons] at h
      rw [xattrBytes, List.flatMap_cons, List.length_append] at hlimit
      obtain ⟨hrec, hrest⟩ := holds_append.mp h
      rw [xattrRecord, List.append_assoc, List.append_assoc] at hrec
      obtain ⟨hhead, hattr⟩ := holds_append.mp hrec
      rw [← List.append_assoc] at hattr
      obtain ⟨hkind, hver⟩ := head_eq (by decide) hversion hhead
      rw [xattrsSize, List.map_cons, List.sum_cons] at hroom
      obtain ⟨r, hr, hadd⟩ := decodeAttr_xattr hcache (by omega) hmax hattr
      rw [encodeKind_length] at hr
      have hstep : attrs + 2 + (4 + x.body.length) = attrs + (xattrRecord version x).length := by
        omega
      have hnext : (addXattr fresh x).xcache = some { c with
          size := c.size + (sizeofXattr + x.body.length), xattrs := c.xattrs ++ [x] } := by
        rw [addXattr, hcache]
        rfl
      rw [List.length_cons, ← Nat.add_assoc, decodeAttrsFrom, if_neg (by omega)]
      simp only [hkind, hver, ne_eq, not_true, if_false, hr, Option.bind_eq_bind,
        Option.bind_some]
      rw [hadd, hstep, ih hrest (by rw [xattrBytes]; omega) hnext
        (by rw [xattrsSize]; dsimp only; omega) hmax, List.foldl_cons, xattrBytes, xattrBytes,
        List.flatMap_cons, List.length_append, Nat.add_assoc]

theorem decodeXsizeFrom_kinds (hversion : version < 2 ^ 12) {ks : List ℕ} (hlt : ∀ k ∈ ks, k < 6)
    {attrs limit : ℕ} (h : Holds data attrs (attrBytes inode version ks))
    (hlimit : attrs + (attrBytes inode version ks).length ≤ limit) (fuel total : ℕ) :
    decodeXsizeFrom version data limit (fuel + ks.length) attrs total =
      decodeXsizeFrom version data limit fuel (attrs + (attrBytes inode version ks).length)
        total := by
  induction ks generalizing attrs with
  | nil => rfl
  | cons k ks ih =>
      have hk := hlt k List.mem_cons_self
      have hlen := @attrRecord_length inode version k hk
      rw [attrBytes, List.flatMap_cons] at h
      rw [attrBytes, List.flatMap_cons, List.length_append] at hlimit
      obtain ⟨hrec, hrest⟩ := holds_append.mp h
      obtain ⟨hhead, -⟩ := holds_append.mp hrec
      obtain ⟨hkind, -⟩ := head_eq (by omega) hversion hhead
      have hfixed : ¬ (k = xattrAttr ∨ k = idataAttr) := by
        simp only [xattrAttr, idataAttr]
        omega
      rw [List.length_cons, ← Nat.add_assoc, decodeXsizeFrom, if_neg (by omega)]
      simp only [hkind, if_neg hfixed]
      rw [Nat.add_assoc attrs, ← hlen, ih (fun j hj => hlt j (List.mem_cons_of_mem k hj)) hrest
        (by rw [attrBytes]; omega), attrBytes, attrBytes, List.flatMap_cons, List.length_append,
        Nat.add_assoc]

theorem decodeXsizeFrom_xattrs (hversion : version < 2 ^ 12) {xs : List Xattr} {attrs limit : ℕ}
    (h : Holds data attrs (xattrBytes version xs))
    (hlimit : attrs + (xattrBytes version xs).length ≤ limit) {total : ℕ}
    (hmax : total + xattrsSize xs < 2 ^ 16) (fuel : ℕ) :
    decodeXsizeFrom version data limit (fuel + xs.length) attrs total =
      decodeXsizeFrom version data limit fuel (attrs + (xattrBytes version xs).length)
        (total + xattrsSize xs) := by
  induction xs generalizing attrs total with
  | nil => rfl
  | cons x xs ih =>
      have hlen := @xattrRecord_length version x
      rw [xattrBytes, List.flatMap_cons] at h
      rw [xattrBytes, List.flatMap_cons, List.length_append] at hlimit
      obtain ⟨hrec, hrest⟩ := holds_append.mp h
      rw [xattrRecord, List.append_assoc, List.append_assoc] at hrec
      obtain ⟨hhead, hattr⟩ := holds_append.mp hrec
      obtain ⟨hkind, hver⟩ := head_eq (by decide) hversion hhead
      obtain ⟨hbytes, -⟩ := holds_append.mp hattr
      rw [xattrsSize, List.map_cons, List.sum_cons] at hmax
      simp only [sizeofXattr] at hmax
      have hbytes : decode16 data (attrs + 2) = x.body.length + 2 := by
        rw [encodeKind_length] at hbytes
        rw [decode16_encode16 hbytes]
        exact Nat.mod_eq_of_lt (by omega)
      have hadd : u32 (total + 4 + (x.body.length + 2) + (2 ^ 32 - 2)) =
          total + (4 + x.body.length) := by
        unfold u32
        omega
      have hstep : attrs + 4 + (x.body.length + 2) = attrs + (xattrRecord version x).length := by
        omega
      have hsum : total + (4 + x.body.length) + xattrsSize xs = total + xattrsSize (x :: xs) := by
        simp only [xattrsSize, List.map_cons, List.sum_cons, sizeofXattr]
        omega
      rw [List.length_cons, ← Nat.add_assoc, decodeXsizeFrom, if_neg (by omega)]
      simp only [hkind, hver, true_or, if_true, hbytes, sizeofXattr, hadd]
      rw [hstep, ih hrest (by rw [xattrBytes]; omega)
        (by simp only [xattrsSize, sizeofXattr]; omega), hsum, xattrBytes, xattrBytes,
        List.flatMap_cons, List.length_append, Nat.add_assoc]

end

/-! ## The round trip -/

section
variable {source inode : Inode}

theorem foldl_restore {β : Type} (f : Inode → β) {k : ℕ} {v : β}
    (hstep : ∀ i j, f (restore source i j) = if j = k then v else f i) (ks : List ℕ) (i : Inode) :
    f (ks.foldl (restore source) i) = if k ∈ ks then v else f i := by
  induction ks generalizing i with
  | nil => simp only [List.foldl_nil, List.not_mem_nil, if_false]
  | cons j ks ih =>
      rw [List.foldl_cons, ih, hstep]
      by_cases hk : k ∈ ks
      · rw [if_pos hk, if_pos (List.mem_cons_of_mem j hk)]
      · rw [if_neg hk]
        simp only [List.mem_cons, hk, or_false, eq_comm]

theorem foldl_addXattr {β : Type} (f : Inode → β) (hstep : ∀ i x, f (addXattr i x) = f i)
    (xs : List Xattr) (i : Inode) : f (xs.foldl addXattr i) = f i := by
  induction xs generalizing i with
  | nil => rfl
  | cons x xs ih => rw [List.foldl_cons, ih, hstep]

theorem restore_present (i : Inode) (k : ℕ) :
    (restore source i k).present = i.present ||| 1 <<< k := by
  simp only [restore]
  split_ifs <;> rfl

theorem restore_xcache (i : Inode) (k : ℕ) : (restore source i k).xcache = i.xcache := by
  simp only [restore]
  split_ifs <;> rfl

theorem foldl_restore_xcache (ks : List ℕ) (i : Inode) :
    (ks.foldl (restore source) i).xcache = i.xcache := by
  induction ks generalizing i with
  | nil => rfl
  | cons k ks ih => rw [List.foldl_cons, ih, restore_xcache]

theorem testBit_one_shiftLeft (k b : ℕ) : (1 <<< k).testBit b = decide (b = k) := by
  rw [Nat.shiftLeft_eq, Nat.one_mul, Nat.testBit_two_pow]
  exact decide_eq_decide.mpr eq_comm

theorem foldl_restore_present (ks : List ℕ) (i : Inode) (b : ℕ) :
    (ks.foldl (restore source) i).present.testBit b = (i.present.testBit b || decide (b ∈ ks)) := by
  induction ks generalizing i with
  | nil => simp only [List.foldl_nil, List.not_mem_nil, decide_false, Bool.or_false]
  | cons k ks ih =>
      rw [List.foldl_cons, ih, restore_present, Nat.testBit_or, testBit_one_shiftLeft]
      simp only [List.mem_cons, Bool.decide_or, Bool.or_assoc]

theorem foldl_addXattr_present (xs : List Xattr) (i : Inode) (b : ℕ) :
    (xs.foldl addXattr i).present.testBit b =
      (i.present.testBit b || decide (xs ≠ [] ∧ b = xattrAttr)) := by
  induction xs generalizing i with
  | nil => simp only [List.foldl_nil, ne_eq, not_true, false_and, decide_false, Bool.or_false]
  | cons x xs ih =>
      rw [List.foldl_cons, ih, addXattr, Nat.testBit_or, testBit_one_shiftLeft]
      by_cases hb : b = xattrAttr
      · simp only [hb, decide_true, Bool.or_true, Bool.true_or, ne_eq, reduceCtorEq,
          not_false_eq_true, and_self]
      · simp only [hb, decide_false, Bool.or_false, and_false]

theorem foldl_addXattr_xcache (xs : List Xattr) {i : Inode} {c : Xcache} (h : i.xcache = some c) :
    (xs.foldl addXattr i).xcache =
      some { c with size := c.size + xattrsSize xs, xattrs := c.xattrs ++ xs } := by
  induction xs generalizing i c with
  | nil => rw [List.foldl_nil, h, xattrsSize, List.map_nil, List.sum_nil, Nat.add_zero,
      List.append_nil]
  | cons x xs ih =>
      have hnext : (addXattr i x).xcache = some { c with
          size := c.size + (sizeofXattr + x.body.length), xattrs := c.xattrs ++ [x] } := by
        rw [addXattr, h]
        rfl
      rw [List.foldl_cons, ih hnext, List.append_assoc]
      simp only [xattrsSize, List.map_cons, List.sum_cons, Nat.add_assoc, List.singleton_append]

/-- The attributes of an inode are back, the times rounded down. -/
structure Restored (source final : Inode) : Prop where
  present : final.present =
    source.present ||| if xattrList source = [] then 0 else 1 <<< xattrAttr
  rdev : source.present.testBit rdevAttr = true → final.rdev = source.rdev
  owner : source.present.testBit modeOwnerAttr = true →
    final.mode = source.mode ∧ final.uid = source.uid ∧ final.gid = source.gid
  ctimeSize : source.present.testBit ctimeSizeAttr = true →
    final.ctime = spectime ((tuxtime source.ctime >>> 16) <<< 16) ∧ final.size = source.size
  root : source.present.testBit dataBtreeAttr = true → final.root = source.root
  nlink : source.present.testBit linkCountAttr = true → final.nlink = source.nlink
  mtime : source.present.testBit mtimeAttr = true →
    final.mtime = spectime ((tuxtime source.mtime >>> 16) <<< 16)
  xattrs : xattrList final = xattrList source

theorem restored (hpresent : source.present < 2 ^ 6) {fresh : Inode} (hfresh : fresh.present = 0)
    (hxattrs : xattrList ((xattrList source).foldl addXattr
      ((kinds source).foldl (restore source) fresh)) = xattrList source) :
    Restored source ((xattrList source).foldl addXattr
      ((kinds source).foldl (restore source) fresh)) := by
  have hfield : ∀ {β : Type} (f : Inode → β) {k : ℕ} {v : β},
      (∀ i x, f (addXattr i x) = f i) →
      (∀ i j, f (restore source i j) = if j = k then v else f i) →
      source.present.testBit k = true →
      f ((xattrList source).foldl addXattr ((kinds source).foldl (restore source) fresh)) = v := by
    intro β f k v hadd hstep hk
    rw [foldl_addXattr f hadd, foldl_restore f hstep, if_pos ((mem_kinds hpresent).mpr hk)]
  refine ⟨?_, fun h => hfield Inode.rdev (fun _ _ => rfl) ?_ h,
    fun h => ⟨hfield Inode.mode (fun _ _ => rfl) ?_ h, hfield Inode.uid (fun _ _ => rfl) ?_ h,
      hfield Inode.gid (fun _ _ => rfl) ?_ h⟩,
    fun h => ⟨hfield Inode.ctime (fun _ _ => rfl) ?_ h, hfield Inode.size (fun _ _ => rfl) ?_ h⟩,
    fun h => hfield Inode.root (fun _ _ => rfl) ?_ h,
    fun h => hfield Inode.nlink (fun _ _ => rfl) ?_ h,
    fun h => hfield Inode.mtime (fun _ _ => rfl) ?_ h, hxattrs⟩
  · refine Nat.eq_of_testBit_eq fun b => ?_
    rw [foldl_addXattr_present, foldl_restore_present, hfresh, Nat.zero_testBit, Bool.false_or,
      Nat.testBit_or]
    congr 1
    · rw [Bool.eq_iff_iff, decide_eq_true_eq]
      exact mem_kinds hpresent
    · by_cases hx : xattrList source = []
      · rw [if_pos hx, Nat.zero_testBit, decide_eq_false_iff_not]
        exact fun hc => hc.1 hx
      · rw [if_neg hx, testBit_one_shiftLeft]
        simp only [hx, ne_eq, not_false_eq_true, true_and]
  all_goals
    intro i j
    simp only [restore]
    split_ifs <;> first
      | rfl
      | (exfalso; simp only [rdevAttr, modeOwnerAttr, ctimeSizeAttr, dataBtreeAttr, linkCountAttr,
          mtimeAttr] at *; omega)

end

theorem length_le_flatMap {α : Type} {f : α → List Byte} {l : List α}
    (h : ∀ a ∈ l, 1 ≤ (f a).length) : l.length ≤ (l.flatMap f).length := by
  induction l with
  | nil => exact Nat.le_refl _
  | cons a l ih =>
      have := h a List.mem_cons_self
      have := ih fun b hb => h b (List.mem_cons_of_mem a hb)
      rw [List.flatMap_cons, List.length_append, List.length_cons]
      omega

/-- A cache whose size counts its xattrs and fits its 16 bits. -/
def Xcache.WellFormed (c : Xcache) : Prop :=
  c.size = sizeofXcache + xattrsSize c.xattrs ∧ c.size < 2 ^ 16

/-- The decoders read the record of an inode back. -/
theorem openAttrs_eq {inode fresh : Inode} {version : ℕ} {data : Bytes} {base : ℕ}
    (hversion : version < 2 ^ 12) (hpresent : inode.present < 2 ^ 6) (hfits : Fits inode)
    (hcache : ∀ c, inode.xcache = some c → c.WellFormed) (hfresh : fresh.present = 0)
    (h : Holds data base (inodeBytes inode version)) :
    ∃ final, openAttrs fresh version data base (encodeAsize inode.present + encodeXsize inode) =
        some (final, base + (encodeAsize inode.present + encodeXsize inode)) ∧
      Restored inode final ∧
      final.xcache.elim 0 Xcache.size =
        decodeXsize version data base (encodeAsize inode.present + encodeXsize inode) := by
  have hlt : ∀ k ∈ kinds inode, k < 6 := fun k hk => kinds_lt hpresent hk
  obtain ⟨hk, hx⟩ := holds_append.mp h
  have hasize := @encodeAsize_eq inode version hlt
  have hxsize := @encodeXsize_eq inode version
  set ks := attrBytes inode version (kinds inode) with hks
  set xs := xattrBytes version (xattrList inode) with hxs
  set size := encodeAsize inode.present + encodeXsize inode with hsize
  have hcat : size = ks.length + xs.length := by rw [hsize, hasize, hxsize]
  have hkn : (kinds inode).length ≤ ks.length := length_le_flatMap fun k hk' => by
    rw [attrRecord_length (hlt k hk')]
    omega
  have hxn : (xattrList inode).length ≤ xs.length := length_le_flatMap fun x _ => by
    rw [xattrRecord_length]
    omega
  have hfuel : size = size - ((xattrList inode).length + (kinds inode).length) +
      (xattrList inode).length + (kinds inode).length := by omega
  have hsmall : xattrsSize (xattrList inode) + sizeofXcache < 2 ^ 16 := by
    cases hc : inode.xcache with
    | none =>
        rw [xattrList, hc]
        decide
    | some c =>
        obtain ⟨h1, h2⟩ := hcache c hc
        rw [xattrList, hc]
        simp only [Option.elim_some]
        omega
  have hdone : ∀ fuel total, decodeXsizeFrom version data (base + size) fuel (base + size) total =
      total := by
    intro fuel total
    cases fuel with
    | zero => rfl
    | succ fuel => rw [decodeXsizeFrom, if_pos (Nat.le_succ _)]
  have hend : base + ks.length + xs.length = base + size := by omega
  have htotal : decodeXsizeFrom version data (base + size)
      (size - ((xattrList inode).length + (kinds inode).length) + (xattrList inode).length +
        (kinds inode).length) base 0 = xattrsSize (xattrList inode) := by
    rw [decodeXsizeFrom_kinds hversion hlt hk (by rw [← hks]; omega), ← hks,
      decodeXsizeFrom_xattrs hversion hx (by rw [← hxs]; omega) (by omega), ← hxs, hend, hdone,
      Nat.zero_add]
  rw [← hfuel] at htotal
  have hxsize' : decodeXsize version data base size =
      if xattrList inode = [] then 0 else xattrsSize (xattrList inode) + sizeofXcache := by
    rw [decodeXsize, htotal]
    cases hl : xattrList inode with
    | nil => rfl
    | cons x l =>
        have hne : xattrsSize (x :: l) ≠ 0 := by
          rw [xattrsSize, List.map_cons, List.sum_cons, sizeofXattr]
          omega
        rw [hl] at hsmall
        rw [if_pos hne, if_neg (List.cons_ne_nil x l), u32_of_lt (by omega)]
  have hstop : ∀ fuel i, decodeAttrsFrom version data (base + size) fuel (base + size) i =
      some (i, base + size) := by
    intro fuel i
    cases fuel with
    | zero => rfl
    | succ fuel => rw [decodeAttrsFrom, if_pos (Nat.le_succ _)]
  have hopen : ∀ i : Inode, i.xcache = (if xattrList inode = [] then none
        else some (newXcache (xattrsSize (xattrList inode) + sizeofXcache))) →
      decodeAttrs i version data base size =
        some ((xattrList inode).foldl addXattr ((kinds inode).foldl (restore inode) i),
          base + size) := by
    intro i hi
    rw [decodeAttrs]
    have hlimit : base + (attrBytes inode version (kinds inode)).length ≤ base + size := by
      rw [← hks]
      omega
    have hkinds := decodeAttrsFrom_kinds hfits hversion hlt hk hlimit
      (size - ((xattrList inode).length + (kinds inode).length) + (xattrList inode).length) i
    rw [← hfuel] at hkinds
    rw [hkinds, ← hks]
    have hcache' := @foldl_restore_xcache inode (kinds inode) i
    by_cases hnil : xattrList inode = []
    · have hxs0 : xs.length = 0 := by rw [hxs, hnil]; rfl
      have hend' : base + ks.length = base + size := by omega
      rw [hend', hstop, hnil]
      rfl
    · rw [if_neg hnil] at hi
      rw [decodeAttrsFrom_xattrs hversion hx (by rw [← hxs]; omega) (hcache'.trans hi)
        (by simp only [newXcache]; omega) (Nat.mod_lt _ (Nat.two_pow_pos 16)), ← hxs, hend, hstop]
  rw [openAttrs, hxsize']
  by_cases hnil : xattrList inode = []
  · have hsome := hopen { fresh with xcache := none } (by rw [if_pos hnil])
    simp only [if_pos hnil, ne_eq, not_true, if_false]
    refine ⟨_, hsome, restored hpresent hfresh ?_, ?_⟩
    · rw [hnil, List.foldl_nil, xattrList, foldl_restore_xcache]
      rfl
    · rw [hnil, List.foldl_nil, foldl_restore_xcache]
      rfl
  · have hne : xattrsSize (xattrList inode) + sizeofXcache ≠ 0 := by
      rw [sizeofXcache]
      omega
    have hsome := hopen { fresh with
      xcache := some (newXcache (xattrsSize (xattrList inode) + sizeofXcache)) }
      (by rw [if_neg hnil])
    have hfinal := foldl_addXattr_xcache (xattrList inode) ((@foldl_restore_xcache inode
      (kinds inode) { fresh with
        xcache := some (newXcache (xattrsSize (xattrList inode) + sizeofXcache)) }).trans rfl)
    simp only [if_neg hnil, ne_eq, hne, not_false_eq_true, if_true]
    refine ⟨_, hsome, restored hpresent hfresh ?_, ?_⟩
    · rw [xattrList, hfinal]
      rfl
    · rw [hfinal]
      exact Nat.add_comm _ _

/-- What is written for an inode is read back from it. -/
theorem attrs_survive {inode fresh : Inode} {version : ℕ} (data : Bytes) (base : ℕ)
    (hversion : version < 2 ^ 12) (hpresent : inode.present < 2 ^ 6) (hfits : Fits inode)
    (hcache : ∀ c, inode.xcache = some c → c.WellFormed) (hfresh : fresh.present = 0) :
    ∃ data', encodeInode inode version data base (encodeAsize inode.present + encodeXsize inode) =
        (data', base + (encodeAsize inode.present + encodeXsize inode)) ∧
      (∀ i, i < base ∨ base + (encodeAsize inode.present + encodeXsize inode) ≤ i →
        data' i = data i) ∧
      ∃ final, openAttrs fresh version data' base
          (encodeAsize inode.present + encodeXsize inode) =
          some (final, base + (encodeAsize inode.present + encodeXsize inode)) ∧
        Restored inode final ∧
        (final.xcache.elim 0 Xcache.size =
          decodeXsize version data' base (encodeAsize inode.present + encodeXsize inode)) := by
  have hlt : ∀ k ∈ kinds inode, k < 6 := fun k hk => kinds_lt hpresent hk
  have hlen := @inodeBytes_length inode version hlt
  refine ⟨put data base (inodeBytes inode version), encodeInode_eq hlt data base, fun i hi => ?_,
    openAttrs_eq hversion hpresent hfits hcache hfresh holds_put⟩
  rcases hi with hi | hi
  · exact put_of_lt hi
  · exact put_of_ge (by omega)

/-- A device file with every attribute, among them an empty xattr. -/
def deviceInode : Inode where
  present := 63
  rdev := 0x80300042
  mode := 0o20644
  uid := 1000
  gid := 100
  ctime := ⟨1236643200, 999999999⟩
  size := 0
  root := ⟨1, 0x123456789⟩
  nlink := 1
  mtime := ⟨4294967295, 1⟩
  xcache := some ⟨15, 15, [⟨7, [1, 2, 3]⟩, ⟨0xffff, []⟩]⟩

theorem attrs_survive_device : ∃ data' final,
    openAttrs { deviceInode with present := 0 } 3 data' 8 79 = some (final, 87) ∧
      Restored deviceInode final := by
  obtain ⟨data', -, -, final, hopen, hrestored, -⟩ :=
    @attrs_survive deviceInode { deviceInode with present := 0 } 3 (fun _ => 0) 8 (by decide)
      (by decide) ⟨by decide, by decide, by decide⟩
      (fun c hc => by cases hc; exact ⟨by decide, by decide⟩) rfl
  exact ⟨data', final, hopen, hrestored⟩

end Tux3.Iattr
