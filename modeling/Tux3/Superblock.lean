import Tux3.Diskio
import Tux3.AttrRoundTrip
import Tux3.MapReads
import Tux3.XattrCounts

/-!
# The superblock on disk

`save_sb`, `load_sb`, `load_itable` and `commit_delta` of `kernel/commit.c` over the bytes of
`struct disksuper`, which are transferred by `devio`.
-/
namespace Tux3.Superblock

open Diskio Segment
open Iattr (encode64 decode64 Root packRoot unpackRoot decode64_encode64)

def sbLoc : ℕ := 2 ^ 12
def sbLen : ℕ := 2 ^ 12

def tux3Magic : List Byte := [0x74, 0x75, 0x78, 0x33, 0xdd, 0x09, 0x03, 0x10]

/-! ## Fields of `struct disksuper` -/

def irootAt : ℕ := 24
def blockbitsAt : ℕ := 32
def volblocksAt : ℕ := 40
def freeblocksAt : ℕ := 48
def nextallocAt : ℕ := 56
def freeatomAt : ℕ := 64
def atomgenAt : ℕ := 68
def dictsizeAt : ℕ := 72
def logchainAt : ℕ := 80
def logcountAt : ℕ := 88
def nextLogcountAt : ℕ := 92

/-- `struct sb`, as far as the superblock is concerned: the bytes of `thisbig` and the fields. -/
structure Sb where
  super : Bytes
  itable : Root
  blockbits : ℕ
  blocksize : ℕ
  blockmask : ℕ
  volblocks : ℕ
  freeblocks : ℕ
  nextalloc : ℕ
  entriesPerNode : ℕ
  maxInodesPerBlock : ℕ
  atomrefBase : BitVec 32
  unatomBase : BitVec 32
  freeatom : ℕ
  atomgen : ℕ
  dictsize : ℕ
  logchain : ℕ
  logbase : ℕ
  nextLogbase : ℕ
  lognext : ℕ

/-- The fields that `save_sb` stores. -/
def Sb.fields (sb : Sb) : List (ℕ × List Byte) :=
  [(blockbitsAt, encode16 sb.blockbits), (volblocksAt, encode64 sb.volblocks),
    (freeblocksAt, encode64 sb.freeblocks), (nextallocAt, encode64 sb.nextalloc),
    (atomgenAt, encode32 sb.atomgen), (freeatomAt, encode32 sb.freeatom),
    (dictsizeAt, encode64 sb.dictsize), (irootAt, encode64 (packRoot sb.itable)),
    (logchainAt, encode64 sb.logchain)]

def saveSb (answers : List Answer) (file : Bytes) (sb : Sb) : Option (ℤ × Bytes × Sb) :=
  let sb := { sb with super := putAll sb.super sb.fields }
  (devio true answers ⟨file, sb.super⟩ sbLoc 0 sbLen).map fun (err, s) => (err, s.file, sb)

/-- `commit_delta`, up to the call of `unstash`. -/
def commitDelta (answers : List Answer) (file : Bytes) (sb : Sb) : Option (ℤ × Bytes × Sb) :=
  saveSb answers file { sb with
    super := putAll sb.super
      [(logcountAt, encode32 (sb.lognext + (2 ^ 32 - sb.logbase))),
        (nextLogcountAt, encode32 (sb.lognext + (2 ^ 32 - sb.nextLogbase)))] }

/-- What `load_sb` takes from a superblock that it has read. -/
def Sb.load (sb : Sb) (super : Bytes) : Sb :=
  let blockbits := decode16 super blockbitsAt
  { sb with
    super := super
    blockbits := blockbits
    blocksize := 1 <<< blockbits
    blockmask := 1 <<< blockbits - 1
    entriesPerNode := MapRegion.calcEntriesPerNode (1 <<< blockbits)
    maxInodesPerBlock := 1 <<< blockbits / 64
    atomrefBase := Xattr.atomrefBlocks blockbits
    unatomBase := Xattr.unatomBlocks blockbits
    volblocks := decode64 super volblocksAt
    freeblocks := decode64 super freeblocksAt
    nextalloc := decode64 super nextallocAt
    atomgen := decode32 super atomgenAt
    freeatom := decode32 super freeatomAt
    dictsize := decode64 super dictsizeAt }

def loadSb (answers : List Answer) (file : Bytes) (sb : Sb) : Option (ℤ × Sb) :=
  (devio false answers ⟨file, sb.super⟩ sbLoc 0 sbLen).map fun (err, s) =>
    if err ≠ 0 then (err, { sb with super := s.mem })
    else if (List.range 8).map s.mem ≠ tux3Magic then (-22, { sb with super := s.mem })
    else (0, sb.load s.mem)

def loadItable (sb : Sb) : Sb := { sb with itable := unpackRoot (decode64 sb.super irootAt) }

/-- The blocks that `make_tux3` reserves: always 8K. -/
def reserve (blockbits : ℕ) : ℕ := 1 <<< (if 13 < blockbits then 0 else 13 - blockbits)

/-! ## Round trip -/

/-- The values that their fields can take. -/
structure Sb.Fits (sb : Sb) : Prop where
  blockbits : sb.blockbits < 2 ^ 16
  volblocks : sb.volblocks < 2 ^ 64
  freeblocks : sb.freeblocks < 2 ^ 64
  nextalloc : sb.nextalloc < 2 ^ 64
  dictsize : sb.dictsize < 2 ^ 64
  logchain : sb.logchain < 2 ^ 64
  freeatom : sb.freeatom < 2 ^ 32
  atomgen : sb.atomgen < 2 ^ 32
  depth : sb.itable.depth < 2 ^ 16
  root : sb.itable.block < 2 ^ 48

/-- The second superblock has what the mount and `replay` need of the first, and what `commit_delta`
has counted. -/
structure Loaded (sb sb' : Sb) : Prop where
  blockbits : sb'.blockbits = sb.blockbits
  blocksize : sb'.blocksize = 1 <<< sb.blockbits
  blockmask : sb'.blockmask = 1 <<< sb.blockbits - 1
  entries : sb'.entriesPerNode = MapRegion.calcEntriesPerNode (1 <<< sb.blockbits)
  inodes : sb'.maxInodesPerBlock = 1 <<< sb.blockbits / 64
  atomrefs : sb'.atomrefBase = Xattr.atomrefBlocks sb.blockbits
  unatoms : sb'.unatomBase = Xattr.unatomBlocks sb.blockbits
  volblocks : sb'.volblocks = sb.volblocks
  freeblocks : sb'.freeblocks = sb.freeblocks
  nextalloc : sb'.nextalloc = sb.nextalloc
  atomgen : sb'.atomgen = sb.atomgen
  freeatom : sb'.freeatom = sb.freeatom
  dictsize : sb'.dictsize = sb.dictsize
  itable : (loadItable sb').itable = sb.itable
  logchain : decode64 sb'.super logchainAt = sb.logchain
  logcount : decode32 sb'.super logcountAt = u32 (sb.lognext + (2 ^ 32 - sb.logbase))
  nextLogcount : decode32 sb'.super nextLogcountAt = u32 (sb.lognext + (2 ^ 32 - sb.nextLogbase))

/-- A volume from its first superblock on: the file, the superblock in memory, and the last one that
was committed, of which nothing is known after a commit that failed. Blocks are written behind the
reserved ones. -/
inductive Volume (blockbits : ℕ) (label : Bytes) : Bytes → Bytes → Option Sb → Prop where
  | start (file super : Bytes) (hmagic : (List.range 8).map label = tux3Magic)
      (hfile : ∀ i < irootAt, file (sbLoc + i) = label i) (hsuper : ∀ i < irootAt, super i = label i) :
      Volume blockbits label file super none
  | write {file super : Bytes} {last : Option Sb} {s : State} {err : ℤ} (mem : Bytes)
      (answers : List Answer) (data block : ℕ) (h : Volume blockbits label file super last)
      (hreserve : reserve blockbits ≤ block) (hblock : block < 2 ^ 48)
      (hio : blockio blockbits true answers ⟨file, mem⟩ data block = some (err, s)) :
      Volume blockbits label s.file super last
  | commit {file file' super : Bytes} {last : Option Sb} {sb sb' : Sb} {err : ℤ}
      (answers : List Answer) (h : Volume blockbits label file super last) (hsuper : sb.super = super)
      (hfits : sb.Fits) (hbits : sb.blockbits = blockbits)
      (hio : commitDelta answers file sb = some (err, file', sb')) :
      Volume blockbits label file' sb'.super (if err = 0 then some sb else none)
  | load {file super : Bytes} {last : Option Sb} {sb sb' : Sb} (answers : List Answer)
      (h : Volume blockbits label file super last) (hio : loadSb answers file sb = some (0, sb')) :
      Volume blockbits label file sb'.super last

section
variable {sb sb' : Sb} {file file' super label : Bytes} {answers : List Answer} {err : ℤ}
  {blockbits block data i : ℕ}

/-! ## Fields -/

/-- The fields that `commit_delta` stores. -/
def Sb.commitFields (sb : Sb) : List (ℕ × List Byte) :=
  [(logcountAt, encode32 (sb.lognext + (2 ^ 32 - sb.logbase))),
    (nextLogcountAt, encode32 (sb.lognext + (2 ^ 32 - sb.nextLogbase)))] ++ sb.fields

theorem commitFields_apart (sb : Sb) : sb.commitFields.Pairwise Apart := by
  simp [Sb.commitFields, Sb.fields, Apart, logcountAt, nextLogcountAt, blockbitsAt, volblocksAt,
    freeblocksAt, nextallocAt, atomgenAt, freeatomAt, dictsizeAt, irootAt, logchainAt, encode16,
    encode32, encode64]

theorem commitFields_bounds (sb : Sb) : ∀ f ∈ sb.commitFields, irootAt ≤ f.1 ∧ f.1 + f.2.length ≤ 96 := by
  simp [Sb.commitFields, Sb.fields, logcountAt, nextLogcountAt, blockbitsAt, volblocksAt,
    freeblocksAt, nextallocAt, atomgenAt, freeatomAt, dictsizeAt, irootAt, logchainAt, encode16,
    encode32, encode64]

theorem commitFields_label (hi : i < irootAt) : putAll sb.super sb.commitFields i = sb.super i :=
  putAll_outside fun f hf => Or.inl (Nat.lt_of_lt_of_le hi (commitFields_bounds sb f hf).1)

theorem read_field (hsuper : ∀ i < sbLen, super i = putAll sb.super sb.commitFields i) {pos : ℕ}
    {bytes : List Byte} (hf : (pos, bytes) ∈ sb.commitFields) : Holds super pos bytes := by
  have hle : pos + bytes.length ≤ 96 := (commitFields_bounds sb _ hf).2
  refine (holds_putAll (commitFields_apart sb) hf).frame fun i _ (hi : i < pos + bytes.length) =>
    hsuper i ?_
  unfold sbLen
  omega

/-! ## Transfers -/

theorem commitDelta_spec (h : commitDelta answers file sb = some (err, file', sb')) :
    sb'.super = putAll sb.super sb.commitFields ∧
      ∃ n ≤ sbLen, file' = copy file sbLoc sb'.super 0 n ∧ (err = 0 → n = sbLen) := by
  obtain ⟨⟨err', s⟩, hio, heq⟩ := Option.map_eq_some_iff.mp h
  simp only [Prod.mk.injEq] at heq
  obtain ⟨rfl, rfl, rfl⟩ := heq
  obtain ⟨n, hn, rfl, hend⟩ := ioabs_spec hio
  refine ⟨putAll_append, n, hn, by simp only [State.transfer, if_true], fun herr => ?_⟩
  exact (hend.resolve_right fun hneg => Int.lt_irrefl 0 (herr ▸ hneg.1)).2

/-- A load reads the whole superblock, unless the transfer fails. -/
theorem loadSb_spec (h : loadSb answers file sb = some (err, sb')) :
    (err < 0 ∧ Failure answers err) ∨ ((∀ i < sbLen, sb'.super i = file (sbLoc + i)) ∧
      ((List.range 8).map sb'.super = tux3Magic → err = 0 ∧ sb' = sb.load sb'.super)) := by
  obtain ⟨⟨err', s⟩, hio, heq⟩ := Option.map_eq_some_iff.mp h
  obtain ⟨n, -, rfl, hend⟩ := ioabs_spec hio
  rcases hend with ⟨rfl, rfl⟩ | hfail
  · right
    have hread : ∀ i < sbLen, copy sb.super 0 file sbLoc sbLen i = file (sbLoc + i) := by
      intro i hi
      rw [copy_inside (Nat.zero_le i) (by omega), Nat.sub_zero]
    simp only [State.transfer, ne_eq, not_true_eq_false, if_false, Bool.false_eq_true] at heq
    by_cases hmagic : (List.range 8).map (copy sb.super 0 file sbLoc sbLen) = tux3Magic
    · rw [if_neg (not_not_intro hmagic)] at heq
      obtain ⟨rfl, rfl⟩ := Prod.mk.inj heq
      exact ⟨hread, fun _ => ⟨rfl, rfl⟩⟩
    · rw [if_pos hmagic] at heq
      obtain ⟨-, rfl⟩ := Prod.mk.inj heq
      exact ⟨hread, fun heq => absurd heq hmagic⟩
  · left
    dsimp only at heq
    rw [if_pos (by omega)] at heq
    obtain ⟨rfl, -⟩ := Prod.mk.inj heq
    exact hfail

theorem reserve_le (h : reserve blockbits ≤ block) : sbLoc + sbLen ≤ block * 2 ^ blockbits := by
  refine Nat.le_trans ?_ (Nat.mul_le_mul_right _ h)
  unfold reserve
  split
  · next hbig =>
      have hle : 2 ^ 14 ≤ 2 ^ blockbits := Nat.pow_le_pow_right (by decide) hbig
      simp only [Nat.shiftLeft_zero, Nat.one_mul, sbLoc, sbLen]
      omega
  · next hsmall =>
      rw [Nat.one_shiftLeft, ← Nat.pow_add, Nat.sub_add_cancel (Nat.not_lt.mp hsmall)]
      decide

theorem write_superblock {mem : Bytes} {s : State} (hbits : blockbits ≤ 15)
    (hreserve : reserve blockbits ≤ block) (hblock : block < 2 ^ 48)
    (hio : blockio blockbits true answers ⟨file, mem⟩ data block = some (err, s))
    (hi : i < sbLoc + sbLen) : s.file i = file i := by
  obtain ⟨n, -, rfl, -⟩ := ioabs_spec hio
  rw [offset_eq hbits hblock]
  exact copy_outside (Or.inl (Nat.lt_of_lt_of_le hi (reserve_le hreserve)))

/-! ## Volumes -/

variable {last : Option Sb}

theorem Volume.magic (h : Volume blockbits label file super last) :
    (List.range 8).map label = tux3Magic := by
  induction h with
  | start file super hmagic hfile hsuper => exact hmagic
  | write mem answers data block h hreserve hblock hio ih => exact ih
  | commit answers h hsuper hfits hbits hio ih => exact ih
  | load answers h hio ih => exact ih

theorem magic_eq (h : ∀ i < irootAt, super i = label i) :
    (List.range 8).map super = (List.range 8).map label :=
  List.map_congr_left fun i hi => h i (Nat.lt_trans (List.mem_range.mp hi) (by decide))

/-- Also a commit that fails leaves the magic, the birthdate and the flags. -/
theorem Volume.keeps_label (h : Volume blockbits label file super last) (hbits : blockbits ≤ 15) :
    ∀ i < irootAt, file (sbLoc + i) = label i ∧ super i = label i := by
  have hlow : ∀ {i}, i < irootAt → i < sbLen := fun hi => Nat.lt_trans hi (by decide)
  induction h with
  | start file super hmagic hfile hsuper => exact fun i hi => ⟨hfile i hi, hsuper i hi⟩
  | write mem answers data block h hreserve hblock hio ih =>
      intro i hi
      rw [write_superblock hbits hreserve hblock hio (Nat.add_lt_add_left (hlow hi) sbLoc)]
      exact ih i hi
  | commit answers h hsuper hfits hbits' hio ih =>
      intro i hi
      obtain ⟨hsb, n, -, rfl, -⟩ := commitDelta_spec hio
      have hlabel : _ = label i := hsb ▸ (commitFields_label hi).trans (hsuper ▸ (ih i hi).2)
      refine ⟨?_, hlabel⟩
      rcases Nat.lt_or_ge i n with hin | hout
      · rw [copy_at hin, Nat.zero_add, hlabel]
      · rw [copy_outside (Or.inr (by omega)), (ih i hi).1]
  | load answers h hio ih =>
      intro i hi
      refine ⟨(ih i hi).1, ?_⟩
      obtain hfail | ⟨hread, -⟩ := loadSb_spec hio
      · exact absurd hfail.1 (Int.lt_irrefl 0)
      · rw [hread i (hlow hi), (ih i hi).1]

theorem Volume.keeps_last (h : Volume blockbits label file super last) (hbits : blockbits ≤ 15)
    (hlast : last = some sb) :
    sb.Fits ∧ ∀ i < sbLen, file (sbLoc + i) = putAll sb.super sb.commitFields i := by
  induction h with
  | start file super hmagic hfile hsuper => cases hlast
  | write mem answers data block h hreserve hblock hio ih =>
      refine ⟨(ih hlast).1, fun i hi => ?_⟩
      rw [write_superblock hbits hreserve hblock hio (Nat.add_lt_add_left hi sbLoc)]
      exact (ih hlast).2 i hi
  | commit answers h hsuper hfits hbits' hio ih =>
      split at hlast
      · next herr =>
          obtain rfl := Option.some.inj hlast
          obtain ⟨hsb, n, -, rfl, hall⟩ := commitDelta_spec hio
          refine ⟨hfits, fun i hi => ?_⟩
          rw [hall herr, copy_at hi, Nat.zero_add, hsb]
      · cases hlast
  | load answers h hio ih => exact ih hlast

/-- A stored superblock is read back as it was. -/
theorem loaded (hfits : sb.Fits) (hsuper : ∀ i < sbLen, super i = putAll sb.super sb.commitFields i)
    (other : Sb) : Loaded sb (other.load super) := by
  have hfield : ∀ {pos bytes}, (pos, bytes) ∈ sb.commitFields → Holds super pos bytes :=
    fun hf => read_field hsuper hf
  have hbits : decode16 super blockbitsAt = sb.blockbits :=
    (decode16_encode16 (hfield (by simp [Sb.commitFields, Sb.fields]))).trans
      (Nat.mod_eq_of_lt hfits.blockbits)
  have h64 : ∀ {pos val}, (pos, encode64 val) ∈ sb.commitFields → val < 2 ^ 64 →
      decode64 super pos = val := fun hf => decode64_encode64 (hfield hf)
  have h32 : ∀ {pos val}, (pos, encode32 val) ∈ sb.commitFields → decode32 super pos = u32 val :=
    fun hf => decode32_encode32 (hfield hf)
  refine
    { blockbits := hbits
      blocksize := congrArg (1 <<< ·) hbits
      blockmask := congrArg (1 <<< · - 1) hbits
      entries := congrArg (fun bits => MapRegion.calcEntriesPerNode (1 <<< bits)) hbits
      inodes := congrArg (1 <<< · / 64) hbits
      atomrefs := congrArg Xattr.atomrefBlocks hbits
      unatoms := congrArg Xattr.unatomBlocks hbits
      volblocks := h64 (by simp [Sb.commitFields, Sb.fields]) hfits.volblocks
      freeblocks := h64 (by simp [Sb.commitFields, Sb.fields]) hfits.freeblocks
      nextalloc := h64 (by simp [Sb.commitFields, Sb.fields]) hfits.nextalloc
      atomgen := (h32 (by simp [Sb.commitFields, Sb.fields])).trans (u32_of_lt hfits.atomgen)
      freeatom := (h32 (by simp [Sb.commitFields, Sb.fields])).trans (u32_of_lt hfits.freeatom)
      dictsize := h64 (by simp [Sb.commitFields, Sb.fields]) hfits.dictsize
      itable := ?_
      logchain := h64 (by simp [Sb.commitFields, Sb.fields]) hfits.logchain
      logcount := h32 (by simp [Sb.commitFields])
      nextLogcount := h32 (by simp [Sb.commitFields]) }
  have hiroot : decode64 super irootAt = packRoot sb.itable :=
    h64 (by simp [Sb.commitFields, Sb.fields]) (Nat.mod_lt _ (Nat.two_pow_pos 64))
  exact (congrArg unpackRoot hiroot).trans (Iattr.unpackRoot_pack hfits.depth hfits.root)

/-- A volume over block writes, commits and mounts whose transfers are partial, interrupted or fail:
a mount never finds another magic, it keeps the birthdate and the flags, and it loads the superblock
of the last commit. -/
theorem volume_keeps_superblock (h : Volume blockbits label file super last) (hbits : blockbits ≤ 15)
    {other : Sb} (hload : loadSb answers file other = some (err, sb')) :
    (err = 0 ∨ err < 0 ∧ Failure answers err) ∧
      (err = 0 → (∀ i < irootAt, sb'.super i = label i) ∧ ∀ sb, last = some sb → Loaded sb sb') := by
  rcases loadSb_spec hload with hfail | ⟨hread, hok⟩
  · exact ⟨Or.inr hfail, fun herr => absurd (herr ▸ hfail.1) (Int.lt_irrefl 0)⟩
  · have hlabel : ∀ i < irootAt, sb'.super i = label i := by
      intro i hi
      rw [hread i (Nat.lt_trans hi (by decide)), (h.keeps_label hbits i hi).1]
    obtain ⟨herr, hsb⟩ := hok ((magic_eq hlabel).trans h.magic)
    refine ⟨Or.inl herr, fun _ => ⟨hlabel, fun sb hlast => ?_⟩⟩
    obtain ⟨hfits, hfile⟩ := h.keeps_last hbits hlast
    rw [hsb]
    exact loaded hfits (fun i hi => (hread i hi).trans (hfile i hi)) other

/-- A volume of 4K blocks. -/
def fresh : Sb where
  super := fun i => tux3Magic.getD i 0
  itable := ⟨1, 6⟩
  blockbits := 12
  blocksize := 4096
  blockmask := 4095
  volblocks := 256
  freeblocks := 240
  nextalloc := 16
  entriesPerNode := 255
  maxInodesPerBlock := 64
  atomrefBase := Xattr.atomrefBlocks 12
  unatomBase := Xattr.unatomBlocks 12
  freeatom := 0
  atomgen := 1
  dictsize := 0
  logchain := 9
  logbase := 4294967295
  nextLogbase := 1
  lognext := 2

/-- A commit after an interrupt, a block write that fails half way, and a mount in two reads. -/
theorem volume_keeps_superblock_fresh :
    ∃ file' sb s sb', commitDelta [.failed eintr (by decide), .moved 5000]
        (fun i => tux3Magic.getD (i - sbLoc) 0) fresh = some (0, file', sb) ∧
      blockio 12 true [.moved 96, .moved 0] ⟨file', fun _ => 0⟩ 0 2 = some (-eio, s) ∧
      loadSb [.moved 80, .moved 4016] s.file { fresh with super := fun _ => 0 } =
        some (0, sb') ∧
      sb'.freeblocks = 240 ∧ (loadItable sb').itable = ⟨1, 6⟩ ∧ decode32 sb'.super logcountAt = 3 := by
  have hstart : Volume 12 fresh.super (fun i => tux3Magic.getD (i - sbLoc) 0) fresh.super none := by
    refine .start _ _ (by decide) (fun i _ => ?_) fun i _ => rfl
    rw [Nat.add_sub_cancel_left]
    rfl
  have hfits : fresh.Fits := by constructor <;> decide
  have hcommit := Volume.commit [.failed eintr (by decide), .moved 5000] hstart rfl hfits rfl rfl
  have hwrite := Volume.write (fun _ => 0) [.moved 96, .moved 0] 0 2 hcommit (by decide) (by decide) rfl
  have hloaded : ∀ sb', loadSb [.moved 80, .moved 4016] _ { fresh with super := fun _ => 0 } =
      some (0, sb') → Loaded fresh sb' := fun sb' h =>
    ((volume_keeps_superblock hwrite (by decide) h).2 rfl).2 fresh (if_pos rfl)
  have hload := hloaded _ rfl
  exact ⟨_, _, _, _, rfl, rfl, rfl, hload.freeblocks, hload.itable, hload.logcount⟩

end

end Tux3.Superblock
