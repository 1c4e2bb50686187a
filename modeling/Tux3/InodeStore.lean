import Tux3.InumRuns
import Tux3.OpenInode
import Tux3.AttrRoundTrip
import Tux3.Namei

/-!
# The store of inodes

`save_inode` and `open_inode` with the attributes that they encode and decode, in runs with
`alloc_inum` and `purge_inum`: an inode number opens the inode that was last saved with it.
-/
namespace Tux3.Itable

open Tux3.Btree
open Namei (sIfmt sIfdir sIflnk)
open Iattr (rdevAttr modeOwnerAttr dataBtreeAttr varAttrs)

/-- `TUX_VOLMAP_INO` -/
def volmapIno : ℕ := 1

def sIfifo : ℕ := 0o10000
def sIfchr : ℕ := 0o20000
def sIfblk : ℕ := 0o60000
def sIfreg : ℕ := 0o100000
def sIfsock : ℕ := 0o140000

/-! ## Attributes -/

/-- The bytes that `store_attrs` puts in the inode table; `none` where an assertion fails. -/
def storedAttrs (version : ℕ) (inode : Iattr.Inode) : Option (List UInt8) :=
  (Iattr.storeAttrs inode version (fun _ => 0) 0).map fun data =>
    (Iattr.readBytes data 0 (Iattr.encodeAsize inode.present + Iattr.encodeXsize inode)).map
      UInt8.ofBitVec

/-- The assertions of `check_present`. -/
def checkPresent (inum : ℕ) (inode : Iattr.Inode) : Bool :=
  let present := inode.present.testBit
  let format := inode.mode.toNat &&& sIfmt
  if format = sIfsock ∨ format = sIfifo then present modeOwnerAttr && !present rdevAttr
  else if format = sIfblk ∨ format = sIfchr then present modeOwnerAttr
  else if format = sIfreg ∨ format = sIfdir ∨ format = sIflnk then
    present modeOwnerAttr && present dataBtreeAttr && !present rdevAttr
  else if format = 0 then
    if inum = volmapIno then inode.present == 0 else present dataBtreeAttr && !present rdevAttr
  else false

/-- How `open_inode` ends. -/
inductive Opened where
  | inode (inode : Iattr.Inode)
  /-- `-ENOENT` -/
  | absent
  | assertion

/-- `open_inode` of a new inode. -/
def openIno (blockbits version : ℕ) (table : Option Table) (new : Iattr.Inode) (inum : ℕ) : Opened :=
  match openInode blockbits table inum with
  | none => .assertion
  | some none => .absent
  | some (some attrs) =>
      match Iattr.openAttrs new version (fun i => (attrs.getD i 0).toBitVec) 0 attrs.length with
      | none => .assertion
      | some (inode, _) =>
          -- check_present, and the assertion of tux_setup_inode
          if !checkPresent inum inode || inum == invalidIno then .assertion
          else .inode inode

/-- The inode with the bits of `present` that `store_attrs` looks at. -/
def fixedAttrs (inode : Iattr.Inode) : Iattr.Inode :=
  { inode with present := inode.present % 2 ^ varAttrs }

/-- The inodes whose attributes the format can hold, with the attributes of their type. -/
structure Storable (inum : ℕ) (inode : Iattr.Inode) : Prop where
  present : inode.present % 2 ^ varAttrs < 2 ^ 6
  owner : inode.present.testBit modeOwnerAttr = true
  check : checkPresent inum inode = true
  fits : Iattr.Fits inode
  cache : ∀ c, inode.xcache = some c → c.WellFormed

section
variable {version inum : ℕ} {attrs new final : Iattr.Inode} {data : List UInt8}

theorem fixed_testBit {kind : ℕ} (h : kind < varAttrs) :
    (fixedAttrs attrs).present.testBit kind = attrs.present.testBit kind := by
  rw [fixedAttrs, Nat.testBit_mod_two_pow, decide_eq_true h, Bool.true_and]

/-- `store_attrs` does not look at the other bits. -/
theorem encodeAttrsFrom_fixed {limit : ℕ} {kinds : List ℕ} (h : ∀ kind ∈ kinds, kind < varAttrs)
    (d : Bytes × ℕ) : Iattr.encodeAttrsFrom (fixedAttrs attrs) version limit kinds d =
      Iattr.encodeAttrsFrom attrs version limit kinds d := by
  induction kinds generalizing d with
  | nil => rfl
  | cons kind kinds ih =>
      obtain ⟨d, at'⟩ := d
      have hrest := ih fun k hk => h k (List.mem_cons_of_mem kind hk)
      rw [Iattr.encodeAttrsFrom, Iattr.encodeAttrsFrom, fixed_testBit (h kind List.mem_cons_self),
        hrest]
      split
      · rfl
      · split
        · rfl
        · exact hrest _

theorem encodeAsize_fixed : Iattr.encodeAsize (fixedAttrs attrs).present =
    Iattr.encodeAsize attrs.present :=
  List.foldl_ext _ _ _ fun _ kind hkind => by rw [fixed_testBit (List.mem_range.mp hkind)]

theorem storedAttrs_fixed : storedAttrs version (fixedAttrs attrs) = storedAttrs version attrs := by
  have hkinds : ∀ kind ∈ List.range varAttrs, kind < varAttrs := fun _ => List.mem_range.mp
  have hxsize : Iattr.encodeXsize (fixedAttrs attrs) = Iattr.encodeXsize attrs := rfl
  have hencode : ∀ size, Iattr.encodeInode (fixedAttrs attrs) version (fun _ => 0) 0 size =
      Iattr.encodeInode attrs version (fun _ => 0) 0 size := by
    intro size
    rw [Iattr.encodeInode, Iattr.encodeInode, Iattr.encodeAttrs, Iattr.encodeAttrs,
      encodeAttrsFrom_fixed hkinds]
    rfl
  rw [storedAttrs, storedAttrs, Iattr.storeAttrs, Iattr.storeAttrs, encodeAsize_fixed, hxsize, hencode]

theorem Storable.kinds_lt (h : Storable inum attrs) : ∀ k ∈ Iattr.kinds (fixedAttrs attrs), k < 6 :=
  fun _ hk => Iattr.kinds_lt h.present hk

theorem storedAttrs_eq (h : Storable inum attrs) (hdata : storedAttrs version attrs = some data) :
    data = (Iattr.inodeBytes (fixedAttrs attrs) version).map UInt8.ofBitVec ∧ data ≠ [] := by
  have hlen := @Iattr.inodeBytes_length (fixedAttrs attrs) version h.kinds_lt
  rw [← storedAttrs_fixed] at hdata
  obtain ⟨mem, hmem, rfl⟩ := Option.map_eq_some_iff.mp hdata
  rw [Iattr.storeAttrs] at hmem
  dsimp only at hmem
  split at hmem
  · cases hmem
  · next hsize =>
      rw [Iattr.encodeInode_eq h.kinds_lt, if_pos rfl] at hmem
      obtain rfl := Option.some.inj hmem
      rw [← hlen, Iattr.readBytes_eq Segment.holds_put]
      refine ⟨rfl, fun hnil => hsize ?_⟩
      rw [← hlen, List.map_eq_nil_iff.mp hnil, List.length_nil]

theorem encodeAsize_le : ∀ present < 2 ^ 6, Iattr.encodeAsize present ≤ 64 := by decide

theorem xattrBytes_length_le (xs : List Iattr.Xattr) :
    (Iattr.xattrBytes version xs).length ≤ 2 * Iattr.xattrsSize xs := by
  induction xs with
  | nil => exact Nat.zero_le _
  | cons x xs ih =>
      rw [Iattr.xattrBytes, List.flatMap_cons, List.length_append, Iattr.xattrRecord_length]
      change _ + (Iattr.xattrBytes version xs).length ≤ 2 * (4 + x.body.length + Iattr.xattrsSize xs)
      omega

theorem storedAttrs_length (h : Storable inum attrs) (hdata : storedAttrs version attrs = some data) :
    data.length < 2 ^ 31 := by
  obtain ⟨rfl, -⟩ := storedAttrs_eq h hdata
  have hasize := encodeAsize_le (fixedAttrs attrs).present h.present
  have hxsize : Iattr.encodeXsize (fixedAttrs attrs) ≤ 2 ^ 17 := by
    rw [@Iattr.encodeXsize_eq (fixedAttrs attrs) version, Iattr.xattrList]
    cases hc : (fixedAttrs attrs).xcache with
    | none => exact Nat.zero_le _
    | some c =>
        obtain ⟨hsize, hlt⟩ := h.cache c hc
        have hle := @xattrBytes_length_le version c.xattrs
        rw [Option.elim_some]
        omega
  rw [List.length_map, Iattr.inodeBytes_length h.kinds_lt]
  omega

/-- An inode that is read back has the attributes of its type. -/
theorem checkPresent_restored (h : Storable inum attrs)
    (hrestored : Iattr.Restored (fixedAttrs attrs) final) : checkPresent inum final = true := by
  have hbit : ∀ {kind}, kind < varAttrs →
      final.present.testBit kind = attrs.present.testBit kind := by
    intro kind hkind
    have hxattr : (if Iattr.xattrList (fixedAttrs attrs) = [] then 0
        else 1 <<< Iattr.xattrAttr).testBit kind = false := by
      split
      · exact Nat.zero_testBit kind
      · rw [Iattr.testBit_one_shiftLeft]
        exact decide_eq_false (Nat.ne_of_lt (Nat.lt_trans hkind (by decide)))
    rw [hrestored.present, Nat.testBit_or, hxattr, Bool.or_false, fixed_testBit hkind]
  have hmode : final.mode = attrs.mode :=
    (hrestored.owner ((fixed_testBit (by decide)).trans h.owner)).1
  have hne : ∀ {present : ℕ}, present.testBit modeOwnerAttr = true → (present == 0) = false := by
    intro present howner
    refine beq_false_of_ne ?_
    rintro rfl
    rw [Nat.zero_testBit] at howner
    cases howner
  have howner : modeOwnerAttr < varAttrs := by decide
  have hcheck := h.check
  unfold checkPresent at hcheck ⊢
  dsimp only at hcheck ⊢
  rw [hne h.owner] at hcheck
  rw [hne ((hbit howner).trans h.owner), hmode, hbit howner, hbit (by decide), hbit (by decide)]
  exact hcheck

/-- The decoders read back what `store_attrs` has put in the table. -/
theorem openAttrs_stored (hversion : version < 2 ^ 12) (h : Storable inum attrs)
    (hnew : new.present = 0) (hdata : storedAttrs version attrs = some data) :
    ∃ final used, Iattr.openAttrs new version (fun i => (data.getD i 0).toBitVec) 0 data.length =
      some (final, used) ∧ Iattr.Restored (fixedAttrs attrs) final := by
  obtain ⟨rfl, -⟩ := storedAttrs_eq h hdata
  have hholds : Segment.Holds (fun i => (((Iattr.inodeBytes (fixedAttrs attrs) version).map
      UInt8.ofBitVec).getD i 0).toBitVec) 0 (Iattr.inodeBytes (fixedAttrs attrs) version) := by
    intro i x hx
    dsimp only
    rw [Nat.zero_add, List.getD_eq_getElem?_getD, List.getElem?_map, hx]
    rfl
  have hfits : Iattr.Fits (fixedAttrs attrs) := ⟨h.fits.rdev, h.fits.depth, h.fits.block⟩
  obtain ⟨final, hopen, hrestored, -⟩ :=
    Iattr.openAttrs_eq hversion h.present hfits h.cache hnew hholds
  rw [List.length_map, Iattr.inodeBytes_length h.kinds_lt]
  exact ⟨final, _, hopen, hrestored⟩

end

/-! ## Records of a table -/

section
variable {t : Table} {n bits inum block offset x : ℕ} {data : List UInt8}

theorem openInode_stored (h : t.stored bits inum ≠ []) :
    openInode bits (some t) inum = some (some (t.stored bits inum)) := by
  rw [Table.stored] at h ⊢
  rw [openInode]
  cases hl : t.lookup bits inum with
  | none =>
      rw [hl] at h
      exact absurd rfl h
  | some attrs =>
      rw [hl, Option.getD_some] at h
      cases attrs with
      | nil => exact absurd rfl h
      | cons b attrs => rfl

/-- A number without attributes is not found, if a leaf has a place for it. -/
theorem Table.Good.openInode_empty (h : t.Good n bits) (hbits : bits ≤ 16)
    (hnil : t.stored bits inum = []) :
    HasPlace bits (some t) inum ∧ openInode bits (some t) inum = some none ∨
      ¬ HasPlace bits (some t) inum ∧ openInode bits (some t) inum = none := by
  obtain ⟨block, hreached⟩ := h.reached_some inum
  obtain ⟨low, b, a, hsplit, hbase, hlow, -⟩ := h.reached hreached
  have hplace : HasPlace bits (some t) inum ↔
      inum < (t.leaf block).ibase + entriesPerLeaf bits := by
    constructor
    · rintro ⟨t', ht, x, hx, hle, hlt⟩
      obtain rfl := Option.some.inj ht
      have hxle := h.le_reached hreached hx hle
      omega
    · intro hlt
      refine ⟨t, rfl, (low, block), ?_, hlow, hbase ▸ hlt⟩
      rw [hsplit]
      exact List.mem_append_right _ List.mem_cons_self
  rw [h.stored_eq hbits hreached] at hnil
  rw [openInode_eq h hbits hreached, if_pos hnil, hplace]
  by_cases hlt : inum < (t.leaf block).ibase + entriesPerLeaf bits
  · exact Or.inl ⟨hlt, if_pos hlt⟩
  · exact Or.inr ⟨hlt, if_neg hlt⟩

theorem start_stored (hn : 2 ≤ n) (hbits : 4 ≤ bits ∧ bits ≤ 16) (node : Nodes) (leaf : ℕ → Ileaf)
    {rootblock leafblock : ℕ} (hne : rootblock ≠ leafblock) :
    (allocEmptyBtree node leaf rootblock leafblock).stored bits x = [] := by
  have hgood := start_good hn hbits.1 node leaf hne
  obtain ⟨block, hreached⟩ := hgood.reached_some x
  have hnode : (allocEmptyBtree node leaf rootblock leafblock).tree.node rootblock =
      [⟨0, leafblock⟩] := Function.update_self _ _ _
  have hblock : block = leafblock := by
    obtain ⟨low, b, a, hsplit, -⟩ := hgood.reached hreached
    have hmem : (low, block) ∈ (allocEmptyBtree node leaf rootblock leafblock).leaves := by
      rw [hsplit]
      exact List.mem_append_right _ List.mem_cons_self
    change _ ∈ (keyed 0 ((allocEmptyBtree node leaf rootblock leafblock).tree.node
      rootblock)).flatMap _ at hmem
    rw [hnode] at hmem
    exact congrArg Prod.snd (List.mem_singleton.mp hmem)
  rw [hgood.stored_eq hbits.2 hreached, hblock,
    show (allocEmptyBtree node leaf rootblock leafblock).leaf leafblock = ileafInit from
      Function.update_self _ _ _]
  exact record_behind (Nat.zero_le _)

theorem write_stored (hreached : t.tree.reached inum = some block)
    (hlookup : ileafLookup bits (t.leaf block) inum = some (data.length, offset)) :
    (t.write block offset data).stored bits inum = data := by
  have hself : (t.write block offset data).leaf block = _ := Function.update_self _ _ _
  have hleaf : ileafLookup bits ((t.write block offset data).leaf block) inum =
      some (data.length, offset) := by
    rw [hself]
    exact hlookup
  rw [Table.stored, Table.lookup,
    show (t.write block offset data).tree.reached inum = some block from hreached]
  dsimp only
  rw [hleaf, Option.map_some, Option.getD_some]
  refine List.ext_getElem (bytes_length _ _ _) fun i h₁ h₂ => ?_
  simp only [bytes, List.getElem_map, List.getElem_range]
  rw [hself]
  dsimp only
  rw [if_pos ⟨Nat.le_add_right _ _, Nat.add_lt_add_left h₂ _⟩, Nat.add_sub_cancel_left,
    List.getD_eq_getElem?_getD, List.getElem?_eq_getElem h₂, Option.getD_some]

/-- A purge takes the attributes of its inode number only. -/
theorem Table.Good.purge_stored (h : t.Good n bits) (hbits : bits ≤ 16) {cursor : Cursor}
    (hcursor : probeFrom t.tree.node t.tree.depth t.tree.root inum = some cursor)
    (hstored : t.stored bits inum ≠ []) :
    (({ t with
      leaf := Function.update t.leaf cursor.leaf (ileafPurge (t.leaf cursor.leaf) inum) } :
        Table).stored bits inum = []) ∧
      ∀ x, x ≠ inum → ({ t with
        leaf := Function.update t.leaf cursor.leaf (ileafPurge (t.leaf cursor.leaf) inum) } :
          Table).stored bits x = t.stored bits x := by
  have hpurge := h.purge hbits hcursor hstored
  obtain ⟨-, har, -⟩ := h.around hcursor
  obtain ⟨hbase, hleaf⟩ := h.leaf (lowKey t.tree.node cursor.path 0, cursor.leaf) (by
    rw [har.split]
    exact List.mem_append_right _ List.mem_cons_self)
  dsimp only at hbase hleaf
  have hin : inum - (t.leaf cursor.leaf).ibase < (t.leaf cursor.leaf).icount := by
    by_contra hge
    rw [h.stored_eq hbits (har.reached h), record_behind (Nat.le_of_not_lt hge)] at hstored
    exact hstored rfl
  obtain ⟨hibase, -, -, hempty, hrecord⟩ := purge_spec hleaf hbits (hbase ▸ har.low_le) hin
  generalize ileafPurge (t.leaf cursor.leaf) inum = leaf' at hpurge hibase hempty hrecord ⊢
  have hself : Function.update t.leaf cursor.leaf leaf' cursor.leaf = leaf' :=
    Function.update_self _ _ _
  refine ⟨?_, fun x hx => ?_⟩
  · rw [hpurge.stored_eq hbits (har.reached h)]
    dsimp only
    rw [hself, hempty]
  · rw [Table.stored, @Table.Good.lookup_congr t _ _ _ inum cursor.leaf _ h hpurge hbits rfl
      (fun y hy => Function.update_of_ne hy _ _) (by dsimp only; rw [hself, hibase])
      (fun y hy hne => by dsimp only; rw [hself]; exact hrecord y hy hne) hx]
    rfl

end

/-! ## Runs -/

section
variable (blockbits entriesPerNode version : ℕ)

/-- The attributes of an inode number, none without a table. -/
def Inums.stored (s : Inums) (inum : ℕ) : List UInt8 :=
  s.itable.elim [] fun t => t.stored blockbits inum

/-- Calls for inodes from a table without root, and the inodes that were last saved. A save that
fails has moved no attributes. -/
inductive Stores : Inums → (ℕ → Option Iattr.Inode) → Prop where
  | start (table : Table) : Stores ⟨table, false, [], []⟩ fun _ => none
  | alloc {s s' : Inums} {saved : ℕ → Option Iattr.Inode} {id goal : ℕ} (h : Stores s saved)
      (hs : Step blockbits entriesPerNode s (.allocInum id goal) s') : Stores s' saved
  | save {s s' : Inums} {saved : ℕ → Option Iattr.Inode} {inode : Inode} {data : List UInt8}
      {blocks : List ℕ} (attrs : Iattr.Inode) (h : Stores s saved) (hi : inode ∈ s.live)
      (hfresh : (blocks ++ s.blocks).Nodup) (hattrs : Storable inode.inum attrs)
      (hdata : storedAttrs version attrs = some data)
      (hs : s.saveInode blockbits entriesPerNode inode data blocks = .ok s') :
      Stores s' (Function.update saved inode.inum (some attrs))
  | saveError {s s' : Inums} {saved : ℕ → Option Iattr.Inode} {inode : Inode} {data : List UInt8}
      {blocks : List ℕ} (h : Stores s saved) (hi : inode ∈ s.live)
      (hfresh : (blocks ++ s.blocks).Nodup)
      (hkeeps : s.Keeps blockbits entriesPerNode (.saveInode inode data blocks))
      (hs : s.saveInode blockbits entriesPerNode inode data blocks = .error s') : Stores s' saved
  | purge {s s' : Inums} {saved : ℕ → Option Iattr.Inode} {inode : Inode} (h : Stores s saved)
      (hi : inode ∈ s.live) (hs : s.purgeInum blockbits inode = some s') :
      Stores s' (Function.update saved inode.inum none)

/-- The table has the attributes of the saved inodes, which are in use and not on the list. -/
structure Inums.Saves (s : Inums) (saved : ℕ → Option Iattr.Inode) : Prop where
  inv : s.Inv blockbits entriesPerNode
  absent : ∀ x, saved x = none → s.stored blockbits x = []
  found : ∀ x attrs, saved x = some attrs →
    x ≠ invalidIno ∧ Storable x attrs ∧ storedAttrs version attrs = some (s.stored blockbits x)
  live : ∀ x, saved x ≠ none → ∃ i ∈ s.live, i.inum = x
  deferred : ∀ i ∈ s.live, i ∈ s.allocInodes ↔ saved i.inum = none

end

section
variable {s s' : Inums} {saved : ℕ → Option Iattr.Inode} {t : Table} {n bits version : ℕ}
  {inode : Inode} {attrs : Iattr.Inode} {data : List UInt8} {blocks rest : List ℕ}

theorem withRoot_stored (hn : 2 ≤ n) (hbits : 4 ≤ bits ∧ bits ≤ 16)
    (hfresh : (blocks ++ s.blocks).Nodup) (hroot : s.withRoot blocks = some (t, rest)) (x : ℕ) :
    t.stored bits x = s.stored bits x := by
  unfold Inums.withRoot at hroot
  rw [Inums.stored, Inums.itable]
  split at hroot
  · next hr =>
      obtain ⟨rfl, -⟩ := Prod.mk.inj (Option.some.inj hroot)
      rw [if_pos hr]
      rfl
  · next hr =>
      rw [if_neg hr]
      rcases blocks with _ | ⟨rootblock, _ | ⟨leafblock, blocks⟩⟩
      · cases hroot
      · cases hroot
      · obtain ⟨rfl, -⟩ := Prod.mk.inj (Option.some.inj hroot)
        refine start_stored hn hbits _ _ fun heq => ?_
        exact (List.nodup_cons.mp hfresh).1 (heq ▸ List.mem_cons_self)

theorem saveInode_valid (hs : s.saveInode bits n inode data blocks = .ok s') :
    inode.inum ≠ invalidIno := by
  intro hinum
  rw [Inums.saveInode, if_pos (Or.inr hinum)] at hs
  cases hs

theorem saveInode_stored (h : s.Inv bits n) (hn : 2 ≤ n) (hbits : 4 ≤ bits ∧ bits ≤ 16)
    (hfresh : (blocks ++ s.blocks).Nodup) (hint : data.length < 2 ^ 31)
    (hs : s.saveInode bits n inode data blocks = .ok s') :
    s'.stored bits inode.inum = data ∧
      (∀ x, x ≠ inode.inum → s'.stored bits x = s.stored bits x) ∧
      s'.live = s.live ∧ s'.allocInodes = s.allocInodes.erase inode := by
  obtain ⟨t, rest, cursor, t', block, offset, hroot, hcursor, hnew, he, rfl⟩ := saveInode_ok hs
  obtain ⟨hgood, hfresh', -⟩ := h.withRoot hn hbits.1 hfresh hroot
  obtain ⟨hgood', hreached, hlookup, -, -, hkeeps⟩ :=
    hgood.expand hn hbits.2 hcursor hfresh' hnew hint he
  obtain ⟨-, hother⟩ := hgood'.write hbits.2 hreached hlookup
  refine ⟨write_stored hreached hlookup, fun x hx => ?_, rfl, rfl⟩
  rw [← withRoot_stored hn hbits hfresh hroot x, ← (hkeeps x hx).stored_eq, Table.stored,
    ← hother x hx]
  rfl

theorem saveInode_error_stored (h : s.Inv bits n) (hn : 2 ≤ n) (hbits : 4 ≤ bits ∧ bits ≤ 16)
    (hfresh : (blocks ++ s.blocks).Nodup)
    (hkeeps : s.Keeps bits n (.saveInode inode data blocks))
    (hs : s.saveInode bits n inode data blocks = .error s') :
    (∀ x, s'.stored bits x = s.stored bits x) ∧
      s'.live = s.live ∧ s'.allocInodes = s.allocInodes := by
  rcases saveInode_error hs with ⟨-, rfl⟩ | ⟨t, rest, hroot, hcase⟩
  · exact ⟨fun x => rfl, rfl, rfl⟩
  · obtain ⟨hgood, hfresh', -⟩ := h.withRoot hn hbits.1 hfresh hroot
    rcases hcase with hnone | ⟨cursor, t', hcursor, he, rfl⟩
    · obtain ⟨c, hc, -⟩ := probe_spec hgood.tree.sized hgood.tree.sorted (Nat.zero_le inode.inum)
      rw [hnone] at hc
      cases hc
    · refine ⟨fun x => ?_, rfl, rfl⟩
      rw [← withRoot_stored hn hbits hfresh hroot x, ← expandEek_keeps hgood hbits.2 hcursor hfresh' he
        (hkeeps _ t rest cursor hs hroot hcursor) x]
      rfl

theorem purgeInum_stored (h : s.Inv bits n) (hbits : bits ≤ 16)
    (hs : s.purgeInum bits inode = some s') :
    (inode ∈ s.allocInodes ∨ s'.stored bits inode.inum = []) ∧
      (∀ x, x ≠ inode.inum ∨ inode ∈ s.allocInodes → s'.stored bits x = s.stored bits x) ∧
      s'.live = s.live.erase inode ∧ ∀ i, i ≠ inode → (i ∈ s'.allocInodes ↔ i ∈ s.allocInodes) := by
  rcases purgeInum_cases hs with ⟨hmem, rfl⟩ | ⟨hmem, t, cursor, ht, hcursor, hstored, rfl⟩
  · exact ⟨Or.inl hmem, fun x _ => rfl, rfl, fun i hi => List.mem_erase_of_ne hi⟩
  · have hroot : s.hasRoot = true := by
      by_contra hne
      rw [Inums.itable, if_neg hne] at ht
      cases ht
    obtain ⟨hempty, hother⟩ := (h.good t ht).purge_stored hbits hcursor hstored
    rw [Inums.stored, Inums.itable, if_pos hroot, Option.elim_some]
    refine ⟨Or.inr hempty, fun x hx => ?_, rfl, fun i _ => Iff.rfl⟩
    rw [Inums.stored, Inums.stored, ht, Inums.itable, if_pos hroot]
    exact hother x (hx.resolve_right hmem)

/-! ## The saved inodes -/

theorem Inums.Saves.eq_none_iff (h : s.Saves bits n version saved) (x : ℕ) :
    saved x = none ↔ s.stored bits x = [] := by
  refine ⟨h.absent x, fun hnil => ?_⟩
  cases hx : saved x with
  | none => rfl
  | some attrs =>
      obtain ⟨-, hattrs, hdata⟩ := h.found x attrs hx
      exact absurd hnil (storedAttrs_eq hattrs hdata).2

theorem Inums.Saves.congr (h : s.Saves bits n version saved) (hinv : s'.Inv bits n)
    (hstored : ∀ x, s'.stored bits x = s.stored bits x) (hlive : s'.live = s.live)
    (halloc : s'.allocInodes = s.allocInodes) : s'.Saves bits n version saved := by
  refine ⟨hinv, fun x hx => ?_, fun x attrs hx => ?_, ?_, ?_⟩
  · rw [hstored]
    exact h.absent x hx
  · rw [hstored]
    exact h.found x attrs hx
  · rw [hlive]
    exact h.live
  · rw [hlive, halloc]
    exact h.deferred

theorem Inums.Saves.alloc {id goal : ℕ} (h : s.Saves bits n version saved)
    (hbits : 4 ≤ bits ∧ bits ≤ 16) (hs : Step bits n s (.allocInum id goal) s') :
    s'.Saves bits n version saved := by
  cases hs with
  | allocError ha => exact h
  | @allocInum _ _ rounds inum hgoal hid ha =>
      have hfree := allocInum_free h.inv.good hbits.2 ha
      have hnew : (⟨id, inum⟩ : Inode) ∉ s.live := fun hmem => hid _ hmem rfl
      refine ⟨h.inv.next hfree hid, h.absent, h.found, fun x hx => ?_, fun i hi => ?_⟩
      · obtain ⟨i, hi, heq⟩ := h.live x hx
        exact ⟨i, List.mem_cons_of_mem _ hi, heq⟩
      · rcases List.mem_cons.mp hi with rfl | hi
        · refine iff_of_true (List.mem_append_right _ List.mem_cons_self) ((h.eq_none_iff _).mpr ?_)
          by_contra hne
          refine hfree (Or.inl ?_)
          cases ht : s.itable with
          | none =>
              rw [Inums.stored, ht] at hne
              exact absurd rfl hne
          | some t =>
              rw [Inums.stored, ht] at hne
              exact ⟨t, rfl, hne⟩
        · rw [← h.deferred i hi, List.mem_append, List.mem_singleton]
          refine or_iff_left ?_
          rintro rfl
          exact hnew hi

theorem Inums.Saves.save (h : s.Saves bits n version saved) (hn : 2 ≤ n)
    (hbits : 4 ≤ bits ∧ bits ≤ 16) (hi : inode ∈ s.live) (hfresh : (blocks ++ s.blocks).Nodup)
    (hattrs : Storable inode.inum attrs) (hdata : storedAttrs version attrs = some data)
    (hs : s.saveInode bits n inode data blocks = .ok s') :
    s'.Saves bits n version (Function.update saved inode.inum (some attrs)) := by
  have hint := storedAttrs_length hattrs hdata
  obtain ⟨hself, hother, hlive, halloc⟩ := saveInode_stored h.inv hn hbits hfresh hint hs
  refine ⟨h.inv.saved hn hbits hi hfresh hint hs, fun x hx => ?_, fun x attrs' hx => ?_,
    fun x hx => ?_, fun i hmem => ?_⟩
  · have hne : x ≠ inode.inum := by
      rintro rfl
      rw [Function.update_self] at hx
      cases hx
    rw [Function.update_of_ne hne] at hx
    rw [hother x hne]
    exact h.absent x hx
  · by_cases hne : x = inode.inum
    · rw [hne, Function.update_self] at hx
      obtain rfl := Option.some.inj hx
      rw [hne, hself]
      exact ⟨saveInode_valid hs, hattrs, hdata⟩
    · rw [Function.update_of_ne hne] at hx
      rw [hother x hne]
      exact h.found x attrs' hx
  · rw [hlive]
    by_cases hne : x = inode.inum
    · exact ⟨inode, hi, hne.symm⟩
    · rw [Function.update_of_ne hne] at hx
      exact h.live x hx
  · rw [hlive] at hmem
    rw [halloc]
    by_cases hne : i = inode
    · subst hne
      rw [Function.update_self]
      exact iff_of_false h.inv.alloc_nodup.not_mem_erase (Option.some_ne_none _)
    · rw [List.mem_erase_of_ne hne, Function.update_of_ne (h.inv.inum_ne hmem hi hne)]
      exact h.deferred i hmem

theorem Inums.Saves.purge (h : s.Saves bits n version saved) (hbits : bits ≤ 16)
    (hi : inode ∈ s.live) (hs : s.purgeInum bits inode = some s') :
    s'.Saves bits n version (Function.update saved inode.inum none) := by
  obtain ⟨hempty, hother, hlive, halloc⟩ := purgeInum_stored h.inv hbits hs
  have hnodup : s.live.Nodup := h.inv.nodup.of_map _
  refine ⟨h.inv.purged hbits hi hs, fun x hx => ?_, fun x attrs hx => ?_, fun x hx => ?_,
    fun i hmem => ?_⟩
  · by_cases hne : x = inode.inum
    · rw [hne]
      rcases hempty with hdefer | hempty
      · rw [hother _ (Or.inr hdefer)]
        exact h.absent _ ((h.deferred inode hi).mp hdefer)
      · exact hempty
    · rw [Function.update_of_ne hne] at hx
      rw [hother x (Or.inl hne)]
      exact h.absent x hx
  · have hne : x ≠ inode.inum := by
      rintro rfl
      rw [Function.update_self] at hx
      cases hx
    rw [Function.update_of_ne hne] at hx
    rw [hother x (Or.inl hne)]
    exact h.found x attrs hx
  · have hne : x ≠ inode.inum := by
      rintro rfl
      exact hx (Function.update_self _ _ _)
    rw [Function.update_of_ne hne] at hx
    obtain ⟨i, hmem, heq⟩ := h.live x hx
    refine ⟨i, ?_, heq⟩
    rw [hlive, List.mem_erase_of_ne]
    · exact hmem
    · rintro rfl
      exact hne heq.symm
  · rw [hlive, hnodup.mem_erase_iff] at hmem
    obtain ⟨hne, hmem⟩ := hmem
    rw [halloc i hne, Function.update_of_ne (h.inv.inum_ne hmem hi hne)]
    exact h.deferred i hmem

theorem Stores.saves (h : Stores bits n version s saved) (hn : 2 ≤ n)
    (hbits : 4 ≤ bits ∧ bits ≤ 16) : s.Saves bits n version saved := by
  induction h with
  | start table =>
      exact ⟨⟨fun t ht => (nomatch ht), List.nodup_nil, fun i hi => (nomatch hi),
        fun i hi => (nomatch hi), List.nodup_nil⟩, fun x _ => rfl, fun x attrs hx => (nomatch hx),
        fun x hx => absurd rfl hx, fun i hi => (nomatch hi)⟩
  | alloc h hs ih => exact ih.alloc hbits hs
  | save attrs h hi hfresh hattrs hdata hs ih => exact ih.save hn hbits hi hfresh hattrs hdata hs
  | saveError h hi hfresh hkeeps hs ih =>
      obtain ⟨hstored, hlive, halloc⟩ := saveInode_error_stored ih.inv hn hbits hfresh hkeeps hs
      exact ih.congr (ih.inv.failed hn hbits hfresh hkeeps hs) hstored hlive halloc
  | purge h hi hs ih => exact ih.purge hbits.2 hi hs

/-- The inode table as a store of inodes: a saved inode number belongs to one inode in use and opens
with the attributes last saved, up to the rounding of the times; a number that was not saved, or was
purged, is absent just where a leaf has a place for it. -/
theorem inode_store (h : Stores bits n version s saved) (hn : 2 ≤ n) (hbits : 4 ≤ bits ∧ bits ≤ 16)
    (hversion : version < 2 ^ 12) {new : Iattr.Inode} (hnew : new.present = 0) (inum : ℕ) :
    (∀ attrs, saved inum = some attrs →
      (∃ final, openIno bits version s.itable new inum = .inode final ∧ Iattr.Restored (fixedAttrs attrs) final) ∧
      ∃! i, i ∈ s.live ∧ i.inum = inum) ∧
    (saved inum = none → (∀ i ∈ s.live, i.inum = inum → i ∈ s.allocInodes) ∧
      (HasPlace bits s.itable inum ∧ openIno bits version s.itable new inum = .absent ∨
        ¬ HasPlace bits s.itable inum ∧ openIno bits version s.itable new inum = .assertion)) := by
  have hsaves := h.saves hn hbits
  constructor
  · intro attrs hsaved
    obtain ⟨hvalid, hattrs, hdata⟩ := hsaves.found inum attrs hsaved
    have hne := (storedAttrs_eq hattrs hdata).2
    refine ⟨?_, ?_⟩
    · cases ht : s.itable with
      | none =>
          rw [Inums.stored, ht] at hne
          exact absurd rfl hne
      | some t =>
          rw [Inums.stored, ht, Option.elim_some] at hdata hne
          obtain ⟨final, used, hopen, hrestored⟩ := openAttrs_stored hversion hattrs hnew hdata
          refine ⟨final, ?_, hrestored⟩
          rw [openIno, openInode_stored hne]
          dsimp only
          rw [hopen]
          dsimp only
          rw [checkPresent_restored hattrs hrestored, beq_false_of_ne hvalid]
          rfl
    · obtain ⟨i, hi, heq⟩ := hsaves.live inum (hsaved ▸ Option.some_ne_none attrs)
      refine ⟨i, ⟨hi, heq⟩, fun j hj => ?_⟩
      exact List.inj_on_of_nodup_map hsaves.inv.nodup hj.1 hi (hj.2.trans heq.symm)
  · intro hsaved
    refine ⟨fun i hi heq => (hsaves.deferred i hi).mpr (heq ▸ hsaved), ?_⟩
    have hnil := hsaves.absent inum hsaved
    cases ht : s.itable with
    | none =>
        right
        refine ⟨?_, rfl⟩
        rintro ⟨t, ht, -⟩
        cases ht
    | some t =>
        rw [Inums.stored, ht] at hnil
        have hgood := hsaves.inv.good t ht
        rcases hgood.openInode_empty hbits.2 hnil with ⟨hplace, hopen⟩ | ⟨hplace, hopen⟩
        · exact Or.inl ⟨hplace, by rw [openIno, hopen]⟩
        · exact Or.inr ⟨hplace, by rw [openIno, hopen]⟩

/-- A device file that is saved opens as it was, and the next number is absent. -/
theorem inode_store_device : ∃ s saved final, Stores 12 2 3 s saved ∧
    openIno 12 3 s.itable { Iattr.deviceInode with present := 0 } 5 = .inode final ∧
    Iattr.Restored (fixedAttrs Iattr.deviceInode) final ∧
    openIno 12 3 s.itable { Iattr.deviceInode with present := 0 } 6 = .absent := by
  have hstorable : Storable 5 Iattr.deviceInode :=
    ⟨by decide, by decide, by decide, ⟨by decide, by decide, by decide⟩, fun c hc => by cases hc; exact ⟨by decide, by decide⟩⟩
  have h₀ : Stores 12 2 3 ⟨⟨⟨fun _ => [], 0, 0⟩, fun _ => ileafInit⟩, false, [], []⟩ fun _ => none :=
    Stores.start _
  have h₁ := h₀.alloc (@Step.allocInum 12 2 _ 0 5 9 5 (by decide) (by decide) rfl)
  have h₂ := @Stores.save 12 2 3 _ _ _ ⟨0, 5⟩ _ [1, 2] Iattr.deviceInode h₁ (by decide) (by decide)
    hstorable rfl rfl
  obtain ⟨hfound, -⟩ := inode_store h₂ (by decide) (by decide) (by decide)
    (rfl : ({ Iattr.deviceInode with present := 0 } : Iattr.Inode).present = 0) 5
  obtain ⟨-, habsent⟩ := inode_store h₂ (by decide) (by decide) (by decide)
    (rfl : ({ Iattr.deviceInode with present := 0 } : Iattr.Inode).present = 0) 6
  obtain ⟨⟨final, hopen, hrestored⟩, -⟩ := hfound _ (Function.update_self _ _ _)
  refine ⟨_, _, final, h₂, hopen, hrestored, ?_⟩
  exact ((habsent rfl).2.resolve_right fun hno => hno.1 ⟨_, rfl, (0, 2), by decide, by decide,
    by decide⟩).2

end

end Tux3.Itable
