import Tux3.AttrRoundTrip

/-!
# Attributes of other versions

A stream of attribute records, each with a version of its own. `decode_xsize` and `decode_attrs` go
from record to record; they agree on where the records are unless an xattr of another version has a
body, which `decode_attrs` does not skip.
-/
namespace Tux3.Iattr

open Segment

/-- A record of a fixed kind with its bytes, or an xattr. -/
inductive Record where
  | fixed (version kind : ℕ) (payload : List Byte)
  | xattr (version : ℕ) (xattr : Xattr)
  deriving DecidableEq, Repr

namespace Record

def version : Record → ℕ
  | fixed version _ _ => version
  | xattr version _ => version

def bytes : Record → List Byte
  | fixed version kind payload => encodeKind kind version ++ payload
  | xattr version x => xattrRecord version x

/-- The widths of the format: `kind+version:16`, and `bytes:16` for an xattr. -/
def Valid : Record → Prop
  | fixed version kind payload => version < 2 ^ 12 ∧ kind < 6 ∧ payload.length = atsize kind
  | xattr version x => version < 2 ^ 12 ∧ x.body.length + 2 < 2 ^ 16

instance : DecidablePred Valid
  | fixed version kind payload =>
      inferInstanceAs (Decidable (version < 2 ^ 12 ∧ kind < 6 ∧ payload.length = atsize kind))
  | xattr version x => inferInstanceAs (Decidable (version < 2 ^ 12 ∧ x.body.length + 2 < 2 ^ 16))

/-- The inode with the attribute of a record. -/
def apply (inode : Inode) : Record → Inode
  | fixed _ kind payload =>
      match decodeAttr inode kind (put (fun _ => 0) 0 payload) 0 with
      | some (inode, _) => { inode with present := inode.present ||| 1 <<< kind }
      | none => inode
  | xattr _ x => addXattr inode x

/-- The bytes of a record in the cache. -/
def cacheSize : Record → ℕ
  | fixed _ _ _ => 0
  | xattr _ x => sizeofXattr + x.body.length

/-- The attributes of a record in the cache. -/
def attrs : Record → List Xattr
  | fixed _ _ _ => []
  | xattr _ x => [x]

/-- A record that `decode_attrs` skips whole if it is of another version. -/
def Skippable : Record → Prop
  | fixed _ _ _ => True
  | xattr _ x => x.body = []

instance : DecidablePred Skippable
  | fixed _ _ _ => inferInstanceAs (Decidable True)
  | xattr _ x => inferInstanceAs (Decidable (x.body = []))

end Record

/-- The records of one version. -/
def own (version : ℕ) (rs : List Record) : List Record :=
  rs.filter fun r => r.version = version

/-- Where the records start, and where the last one ends. -/
def boundaries : ℕ → List Record → List ℕ
  | attrs, [] => [attrs]
  | attrs, r :: rs => attrs :: boundaries (attrs + r.bytes.length) rs

section
variable (version : ℕ) (data : Bytes)

/-! ## One turn of each loop -/

/-- The body of the loop of `decode_xsize`. -/
def xsizeNext (attrs total : ℕ) : ℕ × ℕ :=
  let head := decode16 data attrs
  let kind := head >>> 12
  if kind = xattrAttr ∨ kind = idataAttr then
    let bytes := decode16 data (attrs + 2)
    (attrs + 4 + bytes,
      if head &&& 0xfff = version then u32 (total + sizeofXattr + bytes + (2 ^ 32 - 2)) else total)
  else (attrs + 2 + atsize kind, total)

/-- The body of the loop of `decode_attrs`. -/
def attrsNext (attrs : ℕ) (inode : Inode) : Option (ℕ × Inode) :=
  let head := decode16 data attrs
  let kind := head >>> 12
  if head &&& 0xfff ≠ version then some (attrs + 2 + atsize kind, inode)
  else
    (decodeAttr inode kind data (attrs + 2)).map fun r =>
      (attrs + 2 + r.2, { r.1 with present := r.1.present ||| 1 <<< kind })

theorem decodeXsizeFrom_succ (limit fuel attrs total : ℕ) :
    decodeXsizeFrom version data limit (fuel + 1) attrs total =
      if limit ≤ attrs + 1 then total
      else decodeXsizeFrom version data limit fuel (xsizeNext version data attrs total).1
        (xsizeNext version data attrs total).2 := by
  rw [decodeXsizeFrom, xsizeNext]
  dsimp only
  split
  · rfl
  · split <;> rfl

theorem decodeAttrsFrom_succ (limit fuel attrs : ℕ) (inode : Inode) :
    decodeAttrsFrom version data limit (fuel + 1) attrs inode =
      if limit ≤ attrs + 1 then some (inode, attrs)
      else (attrsNext version data attrs inode).bind fun r =>
        decodeAttrsFrom version data limit fuel r.1 r.2 := by
  rw [decodeAttrsFrom, attrsNext]
  dsimp only
  split
  · rfl
  · split
    · rfl
    · cases decodeAttr inode (decode16 data attrs >>> 12) data (attrs + 2) <;> rfl

/-- The places that the loop of `decode_xsize` comes to. -/
def xsizeStops (limit : ℕ) : ℕ → ℕ → ℕ → List ℕ
  | 0, attrs, _ => [attrs]
  | fuel + 1, attrs, total =>
      if limit ≤ attrs + 1 then [attrs]
      else attrs :: xsizeStops limit fuel (xsizeNext version data attrs total).1
        (xsizeNext version data attrs total).2

/-- The places that the loop of `decode_attrs` comes to. -/
def attrsStops (limit : ℕ) : ℕ → ℕ → Inode → List ℕ
  | 0, attrs, _ => [attrs]
  | fuel + 1, attrs, inode =>
      if limit ≤ attrs + 1 then [attrs]
      else
        match attrsNext version data attrs inode with
        | none => [attrs]
        | some (next, inode) => attrs :: attrsStops limit fuel next inode

/-- The inode with the cache that `open_inode` allocates. -/
def openCache (fresh : Inode) (attrs size : ℕ) : Inode :=
  { fresh with
    xcache :=
      if decodeXsize version data attrs size ≠ 0 then
        some (newXcache (decodeXsize version data attrs size))
      else none }

/-- The parsers stop at the records and nowhere else, and what they return is what the records of
the version hold. -/
structure Agree (fresh : Inode) (base : ℕ) (rs : List Record) : Prop where
  xsize : xsizeStops version data (base + (rs.flatMap Record.bytes).length)
    (rs.flatMap Record.bytes).length base 0 = boundaries base rs
  attrs : attrsStops version data (base + (rs.flatMap Record.bytes).length)
    (rs.flatMap Record.bytes).length base
    (openCache version data fresh base (rs.flatMap Record.bytes).length) = boundaries base rs
  opened : openAttrs fresh version data base (rs.flatMap Record.bytes).length =
    some ((own version rs).foldl Record.apply
      (openCache version data fresh base (rs.flatMap Record.bytes).length),
      base + (rs.flatMap Record.bytes).length)
  cache : ((own version rs).foldl Record.apply
    (openCache version data fresh base (rs.flatMap Record.bytes).length)).xcache.elim 0
      Xcache.size = decodeXsize version data base (rs.flatMap Record.bytes).length

end

/-- The bytes of records in the cache. -/
def cacheSize (rs : List Record) : ℕ := (rs.map Record.cacheSize).sum

/-- Xattrs of other versions are empty, and those of the version fit in the 16 bits of a cache. -/
def Parsable (version : ℕ) (rs : List Record) : Prop :=
  (∀ r ∈ rs, r.version ≠ version → r.Skippable) ∧
    sizeofXcache + cacheSize (own version rs) < 2 ^ 16

section
variable {version attrs base fuel limit total kind : ℕ} {data data' : Bytes} {inode fresh : Inode}
  {r : Record} {rs : List Record}

/-! ## One record -/

theorem decode16_congr {a b : ℕ} (h : ∀ i < 2, data (a + i) = data' (b + i)) :
    decode16 data a = decode16 data' b := by
  rw [decode16, decode16, ← h 1 (by decide), ← Nat.add_zero a, h 0 (by decide)]
  rfl

theorem decode32_congr {a b : ℕ} (h : ∀ i < 4, data (a + i) = data' (b + i)) :
    decode32 data a = decode32 data' b := by
  have h0 : data a = data' b := h 0 (by decide)
  rw [decode32, decode32, h0, h 1 (by decide), h 2 (by decide), h 3 (by decide)]

theorem shift_congr {a b n k m : ℕ} (h : ∀ i < n, data (a + i) = data' (b + i)) (hk : k + m ≤ n) :
    ∀ i < m, data (a + k + i) = data' (b + k + i) := by
  intro i hi
  rw [Nat.add_assoc, Nat.add_assoc]
  exact h (k + i) (by omega)

theorem decode48_congr {a b : ℕ} (h : ∀ i < 6, data (a + i) = data' (b + i)) :
    decode48 data a = decode48 data' b := by
  rw [decode48, decode48, decode16_congr fun i hi => h i (by omega),
    decode32_congr (shift_congr h (by decide : 2 + 4 ≤ 6))]

theorem decode64_congr {a b : ℕ} (h : ∀ i < 8, data (a + i) = data' (b + i)) :
    decode64 data a = decode64 data' b := by
  rw [decode64, decode64, decode32_congr fun i hi => h i (by omega),
    decode32_congr (shift_congr h (by decide : 4 + 4 ≤ 8))]

/-- A fixed attribute is always decoded, from as many bytes as `atsize` says. -/
theorem decodeAttr_fixed {a b : ℕ} (hk : kind < 6)
    (h : ∀ i < atsize kind, data (a + i) = data' (b + i)) :
    ∃ next, decodeAttr inode kind data a = some (next, atsize kind) ∧
      decodeAttr inode kind data' b = some (next, atsize kind) ∧ next.xcache = inode.xcache := by
  interval_cases kind
  · have h8 : decode64 data a = decode64 data' b := decode64_congr h
    exact ⟨_, rfl, by rw [decodeAttr, if_pos (by decide), h8]; rfl, rfl⟩
  · have h0 : decode32 data a = decode32 data' b := decode32_congr fun i hi =>
      h i (by simp only [atsize]; omega)
    have h4 := decode32_congr (shift_congr h (by decide : 4 + 4 ≤ atsize 1))
    have h8 := decode32_congr (shift_congr h (by decide : 8 + 4 ≤ atsize 1))
    refine ⟨_, rfl, ?_, rfl⟩
    rw [decodeAttr, if_neg (by decide), if_pos (by decide), ← h0, ← h4, ← h8]
    rfl
  · have h8 : decode64 data a = decode64 data' b := decode64_congr h
    refine ⟨_, rfl, ?_, rfl⟩
    rw [decodeAttr, if_neg (by decide), if_neg (by decide), if_neg (by decide), if_pos (by decide),
      ← h8]
    rfl
  · have h0 : decode48 data a = decode48 data' b := decode48_congr fun i hi =>
      h i (by simp only [atsize]; omega)
    have h6 := decode64_congr (shift_congr h (by decide : 6 + 8 ≤ atsize 3))
    refine ⟨_, rfl, ?_, rfl⟩
    rw [decodeAttr, if_neg (by decide), if_neg (by decide), if_pos (by decide), ← h0, ← h6]
    rfl
  · have h4 : decode32 data a = decode32 data' b := decode32_congr h
    refine ⟨_, rfl, ?_, rfl⟩
    rw [decodeAttr, if_neg (by decide), if_neg (by decide), if_neg (by decide),
      if_neg (by decide), if_pos (by decide), ← h4]
    rfl
  · have h6 : decode48 data a = decode48 data' b := decode48_congr h
    refine ⟨_, rfl, ?_, rfl⟩
    rw [decodeAttr, if_neg (by decide), if_neg (by decide), if_neg (by decide),
      if_neg (by decide), if_neg (by decide), if_pos (by decide), ← h6]
    rfl

theorem Record.Valid.length (hr : r.Valid) : 2 ≤ r.bytes.length := by
  cases r with
  | fixed w kind payload =>
      rw [Record.bytes, List.length_append, encodeKind_length]
      omega
  | xattr w x =>
      rw [Record.bytes, xattrRecord_length]
      omega

theorem xattr_holds {w : ℕ} {x : Xattr} (hr : (Record.xattr w x).Valid)
    (h : Holds data attrs (xattrRecord w x)) :
    decode16 data attrs >>> 12 = xattrAttr ∧ decode16 data attrs &&& 0xfff = w ∧
      decode16 data (attrs + 2) = x.body.length + 2 ∧
      Holds data (attrs + 2) (encode16 (x.body.length + 2) ++ encode16 x.atom.toNat ++ x.body) := by
  rw [xattrRecord, List.append_assoc, List.append_assoc] at h
  obtain ⟨hhead, hattr⟩ := holds_append.mp h
  rw [← List.append_assoc] at hattr
  obtain ⟨hkind, hversion⟩ := head_eq (by decide) hr.1 hhead
  obtain ⟨hbytes, -⟩ := holds_append.mp (holds_append.mp hattr).1
  refine ⟨hkind, hversion, ?_, hattr⟩
  rw [encodeKind_length] at hbytes
  rw [decode16_encode16 hbytes]
  exact Nat.mod_eq_of_lt hr.2

/-- `decode_xsize` steps over every record, and counts the xattrs of the version. -/
theorem xsizeNext_record (hr : r.Valid) (h : Holds data attrs r.bytes) (htotal : total < 2 ^ 32) :
    xsizeNext version data attrs total = (attrs + r.bytes.length,
      if r.version = version then (total + r.cacheSize) % 2 ^ 32 else total) := by
  cases r with
  | fixed w kind payload =>
      obtain ⟨hw, hk, hlen⟩ := hr
      obtain ⟨hhead, -⟩ := holds_append.mp h
      obtain ⟨hkind, -⟩ := head_eq (by omega) hw hhead
      have hfixed : ¬ (kind = xattrAttr ∨ kind = idataAttr) := by
        simp only [xattrAttr, idataAttr]
        omega
      rw [xsizeNext]
      dsimp only
      rw [hkind, if_neg hfixed, Record.bytes, List.length_append, encodeKind_length, hlen,
        Record.cacheSize, Nat.add_assoc]
      simp only [Nat.add_zero, Nat.mod_eq_of_lt htotal, ite_self]
  | xattr w x =>
      obtain ⟨hkind, hversion, hbytes, -⟩ := xattr_holds hr h
      have hsum : u32 (total + sizeofXattr + (x.body.length + 2) + (2 ^ 32 - 2)) =
          (total + (sizeofXattr + x.body.length)) % 2 ^ 32 := by
        unfold u32
        omega
      rw [xsizeNext]
      dsimp only
      rw [hkind, hversion, hbytes, if_pos (Or.inl rfl), hsum, Record.bytes, xattrRecord_length]
      refine Prod.ext ?_ rfl
      dsimp only
      omega

/-- The bytes that the cache still takes. -/
def room (inode : Inode) : ℕ := inode.xcache.elim 0 fun c => c.maxsize - c.size

/-- The field `maxsize` of the cache. -/
def Bounded (inode : Inode) : Prop := ∀ c, inode.xcache = some c → c.maxsize < 2 ^ 16

/-- What `decode_attrs` steps over in a record of another version. -/
def Record.skipped : Record → ℕ
  | .fixed _ kind _ => 2 + atsize kind
  | .xattr _ _ => 2 + atsize xattrAttr

theorem attrsNext_foreign (hr : r.Valid) (h : Holds data attrs r.bytes)
    (hversion : r.version ≠ version) :
    attrsNext version data attrs inode = some (attrs + r.skipped, inode) := by
  have hhead : decode16 data attrs &&& 0xfff = r.version ∧
      2 + atsize (decode16 data attrs >>> 12) = r.skipped := by
    cases r with
    | fixed w kind payload =>
        obtain ⟨hw, hk, -⟩ := hr
        obtain ⟨hhead, -⟩ := holds_append.mp h
        obtain ⟨hkind, hw'⟩ := head_eq (by omega) hw hhead
        rw [hkind]
        exact ⟨hw', rfl⟩
    | xattr w x =>
        obtain ⟨hkind, hw, -⟩ := xattr_holds hr h
        rw [hkind]
        exact ⟨hw, rfl⟩
  rw [attrsNext]
  dsimp only
  rw [hhead.1, if_pos hversion, ← hhead.2, Nat.add_assoc]

theorem Record.skipped_eq (hr : r.Valid) : attrs + r.skipped = attrs + r.bytes.length ↔
    r.Skippable := by
  cases r with
  | fixed w kind payload =>
      obtain ⟨-, -, hlen⟩ := hr
      rw [Record.bytes, List.length_append, encodeKind_length, hlen]
      exact iff_of_true rfl trivial
  | xattr w x =>
      rw [Record.bytes, xattrRecord_length, Record.Skippable, ← List.length_eq_zero_iff]
      simp only [Record.skipped, atsize, xattrAttr]
      omega

/-- `decode_attrs` applies a record of the version, if there is room for its xattr. -/
theorem attrsNext_own (hr : r.Valid) (h : Holds data attrs r.bytes)
    (hversion : r.version = version) (hmax : Bounded inode) :
    attrsNext version data attrs inode =
      if r.cacheSize ≤ room inode then some (attrs + r.bytes.length, r.apply inode) else none := by
  cases r with
  | fixed w kind payload =>
      obtain ⟨hw, hk, hlen⟩ := hr
      obtain ⟨hhead, hrest⟩ := holds_append.mp h
      obtain ⟨hkind, hw'⟩ := head_eq (by omega) hw hhead
      rw [encodeKind_length] at hrest
      change w = version at hversion
      have hsame : ∀ i < atsize kind, data (attrs + 2 + i) =
          put (fun _ => 0) 0 payload (0 + i) := fun i hi => by
        have hget := List.getElem?_eq_getElem (hlen.symm ▸ hi : i < payload.length)
        rw [hrest i _ hget, holds_put i _ hget]
      obtain ⟨next, hnext, hput, -⟩ := @decodeAttr_fixed kind data _ inode _ _ hk hsame
      rw [attrsNext]
      dsimp only
      rw [hkind, hw', if_neg (not_not_intro hversion), hnext,
        if_pos (show Record.cacheSize (.fixed w kind payload) ≤ _ from Nat.zero_le _), Record.bytes,
        List.length_append, encodeKind_length, hlen, ← Nat.add_assoc, Record.apply, hput]
      rfl
  | xattr w x =>
      obtain ⟨hkind, hw, hbytes, hattr⟩ := xattr_holds hr h
      change w = version at hversion
      rw [attrsNext]
      dsimp only
      rw [hkind, hw, if_neg (not_not_intro hversion)]
      have hfull : ∀ c, inode.xcache = some c →
          ¬ c.size + (sizeofXattr + x.body.length) ≤ c.maxsize →
          decodeAttr inode xattrAttr data (attrs + 2) = none := by
        intro c hc hno
        have hxsize : (x.body.length + 2 + (2 ^ 16 - 2)) % 2 ^ 16 = x.body.length := by
          have := hr.2
          omega
        have hx : xattrAttr ≠ rdevAttr ∧ xattrAttr ≠ modeOwnerAttr ∧ xattrAttr ≠ ctimeSizeAttr ∧
            xattrAttr ≠ dataBtreeAttr ∧ xattrAttr ≠ linkCountAttr ∧ xattrAttr ≠ mtimeAttr := by
          decide
        simp only [decodeAttr, hx, if_true, if_false, hbytes, hc, hxsize, Option.bind_eq_bind,
          Option.bind_some, if_neg hno]
      cases hc : inode.xcache with
      | none =>
          have hx : xattrAttr ≠ rdevAttr ∧ xattrAttr ≠ modeOwnerAttr ∧ xattrAttr ≠ ctimeSizeAttr ∧
              xattrAttr ≠ dataBtreeAttr ∧ xattrAttr ≠ linkCountAttr ∧ xattrAttr ≠ mtimeAttr := by
            decide
          have hnone : decodeAttr inode xattrAttr data (attrs + 2) = none := by
            simp only [decodeAttr, hx, if_true, if_false, hc, Option.bind_eq_bind, Option.bind_none]
          have hroom : ¬ (Record.xattr w x).cacheSize ≤ room inode := by
            rw [room, hc]
            simp only [Record.cacheSize, sizeofXattr, Option.elim_none]
            omega
          rw [hnone, if_neg hroom]
          rfl
      | some c =>
          have hroom : (Record.xattr w x).cacheSize ≤ room inode ↔
              c.size + (sizeofXattr + x.body.length) ≤ c.maxsize := by
            rw [room, hc]
            simp only [Record.cacheSize, sizeofXattr, Option.elim_some]
            omega
          by_cases hfits : c.size + (sizeofXattr + x.body.length) ≤ c.maxsize
          · obtain ⟨next, hnext, hadd⟩ := decodeAttr_xattr hc hfits (hmax c hc) hattr
            rw [hnext, if_pos (hroom.mpr hfits), Option.map_some]
            dsimp only
            rw [hadd, Record.bytes, xattrRecord_length, Record.apply]
            refine congrArg some (Prod.ext ?_ rfl)
            dsimp only
            omega
          · rw [hfull c hc hfits, if_neg (mt hroom.mp hfits)]
            rfl

theorem Record.Valid.apply_xcache (hr : r.Valid) (inode : Inode) :
    (r.apply inode).xcache = inode.xcache.map fun c =>
      { c with size := c.size + r.cacheSize, xattrs := c.xattrs ++ r.attrs } := by
  cases r with
  | fixed w kind payload =>
      obtain ⟨-, hk, -⟩ := hr
      obtain ⟨next, hnext, -, hcache⟩ :=
        @decodeAttr_fixed kind (put (fun _ => 0) 0 payload) _ inode 0 0 hk fun _ _ => rfl
      rw [Record.apply, hnext]
      dsimp only
      rw [hcache]
      simp only [Record.cacheSize, Record.attrs, Nat.add_zero, List.append_nil]
      cases inode.xcache <;> rfl
  | xattr w x => rfl

theorem Record.Valid.room (hr : r.Valid) : room (r.apply inode) = room inode - r.cacheSize := by
  rw [Iattr.room, hr.apply_xcache, Iattr.room]
  cases inode.xcache with
  | none => exact (Nat.zero_sub _).symm
  | some c =>
      simp only [Option.map_some, Option.elim_some]
      omega

theorem Record.Valid.bounded (hr : r.Valid) (h : Bounded inode) : Bounded (r.apply inode) := by
  intro c hc
  rw [hr.apply_xcache] at hc
  obtain ⟨c', hc', rfl⟩ := Option.map_eq_some_iff.mp hc
  exact h c' hc'

/-! ## The stream -/

theorem own_cons : own version (r :: rs) =
    if r.version = version then r :: own version rs else own version rs := by
  rw [own, List.filter_cons]
  by_cases h : r.version = version
  · rw [if_pos h, if_pos (decide_eq_true h)]
    rfl
  · rw [if_neg h, if_neg (mt of_decide_eq_true h)]
    rfl

theorem cacheSize_cons : cacheSize (r :: rs) = r.cacheSize + cacheSize rs := by
  rw [cacheSize, List.map_cons, List.sum_cons, cacheSize]

theorem xsize_stream (hvalid : ∀ r ∈ rs, r.Valid) (h : Holds data attrs (rs.flatMap Record.bytes))
    (hlimit : limit = attrs + (rs.flatMap Record.bytes).length) (hfuel : rs.length ≤ fuel)
    (htotal : total < 2 ^ 32) :
    decodeXsizeFrom version data limit fuel attrs total =
        (total + cacheSize (own version rs)) % 2 ^ 32 ∧
      xsizeStops version data limit fuel attrs total = boundaries attrs rs := by
  induction rs generalizing attrs fuel total with
  | nil =>
      have hstop : limit ≤ attrs + 1 := by rw [hlimit]; exact Nat.le_succ _
      have hmod : (total + cacheSize (own version [])) % 2 ^ 32 = total := Nat.mod_eq_of_lt htotal
      rw [hmod, boundaries]
      cases fuel with
      | zero => exact ⟨rfl, rfl⟩
      | succ fuel =>
          rw [decodeXsizeFrom_succ, xsizeStops, if_pos hstop, if_pos hstop]
          exact ⟨rfl, rfl⟩
  | cons r rs ih =>
      obtain ⟨fuel, rfl⟩ := Nat.exists_eq_add_of_le' hfuel
      have hr := hvalid r List.mem_cons_self
      have hlen := hr.length
      rw [List.flatMap_cons] at h
      rw [List.flatMap_cons, List.length_append] at hlimit
      obtain ⟨hrec, hrest⟩ := holds_append.mp h
      have hgo : ¬ limit ≤ attrs + 1 := by omega
      have hnext := @xsizeNext_record version _ _ data _ hr hrec htotal
      have hlt :
          (if r.version = version then (total + r.cacheSize) % 2 ^ 32 else total) < 2 ^ 32 := by
        split
        · exact Nat.mod_lt _ (Nat.two_pow_pos 32)
        · exact htotal
      obtain ⟨hdecode, hstops⟩ := ih (fun r' hr' => hvalid r' (List.mem_cons_of_mem r hr')) hrest
        (by rw [hlimit, Nat.add_assoc]) (show rs.length ≤ fuel + rs.length by omega) hlt
      rw [List.length_cons, ← Nat.add_assoc, decodeXsizeFrom_succ, xsizeStops, if_neg hgo,
        if_neg hgo, hnext]
      dsimp only
      rw [hdecode, hstops, own_cons]
      refine ⟨?_, rfl⟩
      by_cases hown : r.version = version
      · rw [if_pos hown, if_pos hown, cacheSize_cons, Nat.mod_add_mod, Nat.add_assoc]
      · rw [if_neg hown, if_neg hown]

/-- With no body in other versions, `decode_attrs` applies the records of its version as long as the
cache has room. -/
theorem attrs_stream (hvalid : ∀ r ∈ rs, r.Valid) (h : Holds data attrs (rs.flatMap Record.bytes))
    (hlimit : limit = attrs + (rs.flatMap Record.bytes).length) (hfuel : rs.length ≤ fuel)
    (hskip : ∀ r ∈ rs, r.version ≠ version → r.Skippable) (hmax : Bounded inode) :
    decodeAttrsFrom version data limit fuel attrs inode =
        (if cacheSize (own version rs) ≤ room inode then
          some ((own version rs).foldl Record.apply inode, limit) else none) ∧
      (cacheSize (own version rs) ≤ room inode →
        attrsStops version data limit fuel attrs inode = boundaries attrs rs) := by
  induction rs generalizing attrs fuel inode with
  | nil =>
      have hstop : limit ≤ attrs + 1 := by rw [hlimit]; exact Nat.le_succ _
      have hend : limit = attrs := hlimit
      rw [if_pos (show cacheSize (own version []) ≤ _ from Nat.zero_le _), boundaries, hend]
      rw [hend] at hstop
      cases fuel with
      | zero => exact ⟨rfl, fun _ => rfl⟩
      | succ fuel =>
          rw [decodeAttrsFrom_succ, attrsStops, if_pos hstop, if_pos hstop]
          exact ⟨rfl, fun _ => rfl⟩
  | cons r rs ih =>
      obtain ⟨fuel, rfl⟩ := Nat.exists_eq_add_of_le' hfuel
      have hr := hvalid r List.mem_cons_self
      have hlen := hr.length
      rw [List.flatMap_cons] at h
      rw [List.flatMap_cons, List.length_append] at hlimit
      obtain ⟨hrec, hrest⟩ := holds_append.mp h
      have hgo : ¬ limit ≤ attrs + 1 := by omega
      have ih' := fun inode hmax => @ih (attrs + r.bytes.length) (fuel + rs.length) inode
        (fun r' hr' => hvalid r' (List.mem_cons_of_mem r hr')) hrest
        (by rw [hlimit, Nat.add_assoc]) (by omega)
        (fun r' hr' => hskip r' (List.mem_cons_of_mem r hr')) hmax
      rw [List.length_cons, ← Nat.add_assoc, decodeAttrsFrom_succ, attrsStops, if_neg hgo,
        if_neg hgo, own_cons]
      by_cases hown : r.version = version
      · rw [if_pos hown, cacheSize_cons, attrsNext_own hr hrec hown hmax]
        by_cases hroom : r.cacheSize ≤ room inode
        · obtain ⟨hdecode, hstops⟩ := ih' (r.apply inode) (hr.bounded hmax)
          rw [hr.room] at hdecode hstops
          rw [if_pos hroom]
          dsimp only [Option.bind_some]
          rw [hdecode, List.foldl_cons]
          have hiff : cacheSize (own version rs) ≤ room inode - r.cacheSize ↔
              r.cacheSize + cacheSize (own version rs) ≤ room inode := by omega
          refine ⟨if_congr hiff rfl rfl, fun hfits => ?_⟩
          rw [hstops (hiff.mpr hfits), boundaries]
        · rw [if_neg hroom, if_neg (fun hfits => hroom (by omega))]
          exact ⟨rfl, fun hfits => absurd (by omega) hroom⟩
      · have hnext : attrs + r.skipped = attrs + r.bytes.length :=
          (Record.skipped_eq hr).mpr (hskip r List.mem_cons_self hown)
        obtain ⟨hdecode, hstops⟩ := ih' inode hmax
        rw [if_neg hown, attrsNext_foreign hr hrec hown, hnext]
        dsimp only [Option.bind_some]
        refine ⟨hdecode, fun hfits => ?_⟩
        rw [hstops hfits, boundaries]

/-- If `decode_attrs` stops at the records, then it skips all those of other versions. -/
theorem skippable_of_stops (hvalid : ∀ r ∈ rs, r.Valid)
    (h : Holds data attrs (rs.flatMap Record.bytes))
    (hlimit : limit = attrs + (rs.flatMap Record.bytes).length) (hfuel : rs.length ≤ fuel)
    (hmax : Bounded inode) (hstops : attrsStops version data limit fuel attrs inode =
      boundaries attrs rs) : ∀ r ∈ rs, r.version ≠ version → r.Skippable := by
  induction rs generalizing attrs fuel inode with
  | nil => exact fun r hr => (nomatch hr)
  | cons r rs ih =>
      obtain ⟨fuel, rfl⟩ := Nat.exists_eq_add_of_le' hfuel
      have hr := hvalid r List.mem_cons_self
      have hlen := hr.length
      rw [List.flatMap_cons] at h
      rw [List.flatMap_cons, List.length_append] at hlimit
      obtain ⟨hrec, hrest⟩ := holds_append.mp h
      have hgo : ¬ limit ≤ attrs + 1 := by omega
      -- the head of the stops behind a place is where the loop goes on
      have hhead : ∀ fuel attrs inode, ∃ l, attrsStops version data limit fuel attrs inode =
          attrs :: l := by
        intro fuel attrs inode
        cases fuel with
        | zero => exact ⟨[], rfl⟩
        | succ fuel =>
            rw [attrsStops]
            split
            · exact ⟨[], rfl⟩
            · cases attrsNext version data attrs inode <;> exact ⟨_, rfl⟩
      have hfirst : ∃ l, boundaries (attrs + r.bytes.length) rs =
          (attrs + r.bytes.length) :: l := by cases rs <;> exact ⟨_, rfl⟩
      obtain ⟨l, hl⟩ := hfirst
      have ih' := fun inode hmax => @ih (attrs + r.bytes.length) (fuel + rs.length) inode
        (fun r' hr' => hvalid r' (List.mem_cons_of_mem r hr')) hrest
        (by rw [hlimit, Nat.add_assoc]) (by omega) hmax
      rw [List.length_cons, ← Nat.add_assoc, attrsStops, if_neg hgo, boundaries] at hstops
      by_cases hown : r.version = version
      · rw [attrsNext_own hr hrec hown hmax] at hstops
        by_cases hroom : r.cacheSize ≤ room inode
        · rw [if_pos hroom] at hstops
          have hrest := ih' (r.apply inode) (hr.bounded hmax) (List.cons.inj hstops).2
          exact List.forall_mem_cons.mpr ⟨fun hne => absurd hown hne, hrest⟩
        · rw [if_neg hroom, hl] at hstops
          cases (List.cons.inj hstops).2
      · rw [attrsNext_foreign hr hrec hown] at hstops
        have htail : attrsStops version data limit (fuel + rs.length) (attrs + r.skipped) inode =
            boundaries (attrs + r.bytes.length) rs := (List.cons.inj hstops).2
        have hnext : attrs + r.skipped = attrs + r.bytes.length := by
          obtain ⟨l', hl'⟩ := hhead (fuel + rs.length) (attrs + r.skipped) inode
          rw [hl, hl'] at htail
          exact (List.cons.inj htail).1
        rw [hnext] at htail
        exact List.forall_mem_cons.mpr
          ⟨fun _ => (Record.skipped_eq hr).mp hnext, ih' inode hmax htail⟩

theorem own_xcache (hvalid : ∀ r ∈ rs, r.Valid) :
    (rs.foldl Record.apply inode).xcache = inode.xcache.map fun c =>
      { c with size := c.size + cacheSize rs, xattrs := c.xattrs ++ rs.flatMap Record.attrs } := by
  induction rs generalizing inode with
  | nil =>
      simp only [List.foldl_nil, cacheSize, List.map_nil, List.sum_nil, Nat.add_zero,
        List.flatMap_nil, List.append_nil]
      cases inode.xcache <;> rfl
  | cons r rs ih =>
      rw [List.foldl_cons, ih fun r' hr' => hvalid r' (List.mem_cons_of_mem r hr'),
        (hvalid r List.mem_cons_self).apply_xcache, Option.map_map, cacheSize_cons,
        List.flatMap_cons]
      refine congrArg (inode.xcache.map ·) (funext fun c => ?_)
      simp only [Function.comp_apply, Nat.add_assoc, List.append_assoc]

/-- The parsers agree on a stream exactly when it has no xattr with a body in another version and
the xattrs of the version fit in a cache. -/
theorem parsers_agree (hvalid : ∀ r ∈ rs, r.Valid)
    (h : Holds data base (rs.flatMap Record.bytes)) :
    Agree version data fresh base rs ↔ Parsable version rs := by
  have hcount : rs.length ≤ (rs.flatMap Record.bytes).length :=
    length_le_flatMap fun r hr => Nat.le_trans (by decide) (hvalid r hr).length
  set size := (rs.flatMap Record.bytes).length with hsize
  obtain ⟨htotal, hxstops⟩ := @xsize_stream version base size (base + size) 0 data rs hvalid h rfl
    hcount (Nat.two_pow_pos 32)
  rw [Nat.zero_add] at htotal
  have hxsize : decodeXsize version data base size =
      if cacheSize (own version rs) % 2 ^ 32 ≠ 0 then
        u32 (cacheSize (own version rs) % 2 ^ 32 + sizeofXcache) else 0 := by
    rw [decodeXsize, htotal]
  have hmax : Bounded (openCache version data fresh base size) := by
    intro c hc
    simp only [openCache] at hc
    split at hc
    · cases hc
      exact Nat.mod_lt _ (Nat.two_pow_pos 16)
    · cases hc
  have hopen : openAttrs fresh version data base size =
      decodeAttrsFrom version data (base + size) size base
        (openCache version data fresh base size) := rfl
  constructor
  · intro hagree
    have hskip := skippable_of_stops hvalid h rfl hcount hmax hagree.attrs
    obtain ⟨hdecode, -⟩ := attrs_stream hvalid h rfl hcount hskip hmax
    have hopened := hagree.opened
    rw [← hsize, hopen, hdecode] at hopened
    have hfits : cacheSize (own version rs) ≤ room (openCache version data fresh base size) := by
      by_contra hno
      rw [if_neg hno] at hopened
      cases hopened
    refine ⟨hskip, ?_⟩
    simp only [room, openCache] at hfits
    split at hfits
    · simp only [Option.elim_some, newXcache] at hfits
      have := Nat.mod_lt (decodeXsize version data base size) (Nat.two_pow_pos 16)
      simp only [sizeofXcache] at *
      omega
    · simp only [Option.elim_none] at hfits
      simp only [sizeofXcache]
      omega
  · rintro ⟨hskip, hsmall⟩
    simp only [sizeofXcache] at hsmall
    have hxsize' : decodeXsize version data base size =
        if cacheSize (own version rs) ≠ 0 then cacheSize (own version rs) + 4 else 0 := by
      rw [hxsize, Nat.mod_eq_of_lt (by omega)]
      split
      · exact u32_of_lt (by simp only [sizeofXcache]; omega)
      · rfl
    have hcache : (openCache version data fresh base size).xcache =
        if cacheSize (own version rs) ≠ 0 then some ⟨4, cacheSize (own version rs) + 4, []⟩
        else none := by
      rw [openCache, hxsize']
      by_cases hz : cacheSize (own version rs) ≠ 0
      · simp only [if_pos hz]
        rw [if_pos (Nat.succ_ne_zero _), newXcache, Nat.mod_eq_of_lt (by omega)]
        rfl
      · simp only [if_neg hz, ne_eq, not_true, if_false]
    have hfits : cacheSize (own version rs) ≤ room (openCache version data fresh base size) := by
      rw [room, hcache]
      split
      · exact Nat.le_of_eq (Nat.add_sub_cancel _ _).symm
      · omega
    obtain ⟨hdecode, hstops⟩ := attrs_stream hvalid h rfl hcount hskip hmax
    refine ⟨hxstops, hstops hfits, ?_, ?_⟩
    · rw [← hsize, hopen, hdecode, if_pos hfits]
    · have hown : ∀ r ∈ own version rs, r.Valid := fun r hr => hvalid r (List.mem_of_mem_filter hr)
      rw [← hsize, own_xcache hown, hcache, hxsize']
      split
      · exact Nat.add_comm _ _
      · rfl

end

/-- A link count, an empty xattr of another version and an xattr. -/
def mixedRecords : List Record :=
  [.fixed 0 linkCountAttr [0, 0, 0, 1], .xattr 1 ⟨5, []⟩, .xattr 0 ⟨6, [7]⟩]

theorem parsers_agree_mixed : Agree 0 (put (fun _ => 0) 4 (mixedRecords.flatMap Record.bytes))
    deviceInode 4 mixedRecords :=
  (parsers_agree (by decide) holds_put).mpr ⟨by decide, by decide⟩

/-- After an xattr of another version, `decode_attrs` takes its body for a record. -/
theorem foreign_body_parsed : ∃ (data : Bytes) (rs : List Record), (∀ r ∈ rs, r.Valid) ∧
    Holds data 0 (rs.flatMap Record.bytes) ∧ ¬ Agree 0 data deviceInode 0 rs := by
  let rs : List Record := [.xattr 1 ⟨5, [0, 0, 9]⟩, .fixed 0 linkCountAttr [0, 0, 0, 1]]
  refine ⟨put (fun _ => 0) 0 (rs.flatMap Record.bytes), rs, by decide, holds_put,
    fun h => absurd h.attrs ?_⟩
  decide

end Tux3.Iattr
