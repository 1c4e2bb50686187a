import Tux3.DirBlocks

/-!
# Listing a directory

`tux_readdir` of `dir.c` on the blocks of a directory. The callback is a function of the entries
that it has accepted in the call and of the next one; the scan ends when it refuses one.
-/
namespace Tux3.Dir

/-- The arguments of `filldir`. -/
structure Filled where
  name : List UInt8
  offset : ℕ
  inum : ℕ
  type : ℕ
  deriving DecidableEq, Repr

/-- How a call ends: at the end of the directory, at a refused entry, with `-EIO`. -/
inductive Ended where
  | done
  | lame (entry : Filled)
  | eio
  deriving DecidableEq, Repr

/-- `f_pos` and `f_version` of a file. -/
structure File where
  pos : ℕ
  version : ℕ
  deriving DecidableEq, Repr

/-- A file after a call, the entries the callback accepted, and the end. -/
structure Listing where
  file : File
  filled : List Filled
  ended : Ended
  deriving DecidableEq, Repr

/-- `filetype`, by `DT_` numbers. -/
def filetype (type : ℕ) : ℕ :=
  match type with
  | 1 => 8
  | 2 => 4
  | 3 => 2
  | 4 => 6
  | 5 => 1
  | 6 => 12
  | 7 => 10
  | _ => 0

def Dirent.filled (entry : Dirent) (offset : ℕ) : Filled :=
  ⟨entry.name.take entry.nameLen, offset, entry.inum, filetype entry.type⟩

section
variable (blockbits : ℕ) (dir : Directory) (filldir : List Filled → Filled → Bool)

/-- The loop over the entries of a block: `f_pos`, the accepted entries and the end. -/
def readBlock (block size : ℕ) (b : Block) : ℕ → ℕ → ℕ → List Filled → ℕ × List Filled × Ended
  | 0, _, pos, filled => (pos, filled, .done)
  | fuel + 1, offset, pos, filled =>
      let entry := b offset
      let len := tuxRecLenFromDisk entry.recLen
      let new := entry.filled (block * 2 ^ blockbits % 2 ^ 32 ||| offset)
      if min size (2 ^ blockbits) < offset + tuxRecLen 1 then (pos, filled, .done)
      else if entry.recLen = 0 then (pos, filled, .eio)
      else if isDeleted entry then readBlock block size b fuel (offset + len) (pos + len) filled
      else if filldir filled new then (pos, filled, .lame new)
      else readBlock block size b fuel (offset + len) (pos + len) (filled ++ [new])

/-- The loop over the blocks; what is left of the file is `unsigned`. -/
def readBlocks : ℕ → ℕ → ℕ → ℕ → List Filled → ℕ × List Filled × Ended
  | 0, _, _, pos, filled => (pos, filled, .done)
  | left + 1, block, offset, pos, filled =>
      let size := (dir.size - block * 2 ^ blockbits % 2 ^ 32) % 2 ^ 32
      match readBlock blockbits filldir block size (dir.block block) (2 ^ blockbits + 1) offset pos
        filled with
      | (pos, filled, .done) => readBlocks left (block + 1) 0 pos filled
      | r => r

/-- The loop of the revalidation: from a record to the first at an offset or behind it. -/
def walkTo (b : Block) (entry : ℕ) : ℕ → ℕ → ℕ
  | 0, p => p
  | fuel + 1, p =>
      if p < entry ∧ (b p).recLen ≠ 0 then
        walkTo b entry fuel (p + tuxRecLenFromDisk (b p).recLen)
      else p

/-- The revalidation in a block: the offset and the file to go on with. -/
def revalidate (version block : ℕ) (file : File) : ℕ × File :=
  let offset := file.pos % 2 ^ blockbits
  if file.version = version then (offset, file)
  else if offset ≠ 0 then
    let p := walkTo (dir.block block) offset (2 ^ blockbits + 1) (offset % 2 ^ blockbits)
    (p, ⟨(block * 2 ^ blockbits % 2 ^ 32 + p) % 2 ^ 32, version⟩)
  else (offset, { file with version := version })

/-- `tux_readdir` of a directory with an `i_version`. -/
def tuxReaddir (version : ℕ) (file : File) : Listing :=
  let blocks := blocksOf blockbits dir.size
  let block := file.pos / 2 ^ blockbits % 2 ^ 32
  if block < blocks then
    let (offset, file) := revalidate blockbits dir version block file
    let (pos, filled, ended) :=
      readBlocks blockbits dir filldir (blocks - block) block offset file.pos []
    ⟨{ file with pos := pos }, filled, ended⟩
  else ⟨file, [], .done⟩

/-! ## The live entries -/

/-- The live entries at record offsets of a block. -/
def entriesOf (block : ℕ) (b : Block) (l : List ℕ) : List Filled :=
  (l.filter fun o => !isDeleted (b o)).map fun o => (b o).filled (block * 2 ^ blockbits + o)

/-- The live entries of blocks, in the order of the file. -/
def entriesFrom (chain : ℕ → List ℕ) : ℕ → ℕ → List Filled
  | 0, _ => []
  | left + 1, block =>
      entriesOf blockbits block (dir.block block) (chain block) ++
        entriesFrom chain left (block + 1)

/-- A directory of blocks that are tiled by the records at the offsets of `chain`. -/
structure Blocks (chain : ℕ → List ℕ) (n : ℕ) : Prop where
  size : dir.size = n * 2 ^ blockbits
  tiled : ∀ i < n, Tiled (dir.block i) 0 (chain i) (2 ^ blockbits)

/-- A position is at a record or at the end, and `rest` are the live entries from there on. -/
def At (chain : ℕ → List ℕ) (n pos : ℕ) (rest : List Filled) : Prop :=
  (∃ i o l₀ l, i < n ∧ chain i = l₀ ++ o :: l ∧ pos = i * 2 ^ blockbits + o ∧
      rest = entriesOf blockbits i (dir.block i) (o :: l) ++
        entriesFrom blockbits dir chain (n - (i + 1)) (i + 1)) ∨
    pos = n * 2 ^ blockbits ∧ rest = []

end

section
variable {bits block size fuel o pos n left i : ℕ} {b : Block} {dir : Directory} {l : List ℕ}
  {chain : ℕ → List ℕ} {filled rest : List Filled} {filldir : List Filled → Filled → Bool}

theorem entriesOf_nil : entriesOf bits block b [] = [] := rfl

theorem entriesOf_append (l l' : List ℕ) :
    entriesOf bits block b (l ++ l') = entriesOf bits block b l ++ entriesOf bits block b l' := by
  rw [entriesOf, List.filter_append, List.map_append, entriesOf, entriesOf]

theorem entriesOf_deleted (h : isDeleted (b o) = true) :
    entriesOf bits block b (o :: l) = entriesOf bits block b l := by
  rw [entriesOf, List.filter_cons_of_neg (by rw [h]; exact Bool.noConfusion), entriesOf]

theorem entriesOf_live (h : ¬ isDeleted (b o) = true) :
    entriesOf bits block b (o :: l) =
      (b o).filled (block * 2 ^ bits + o) :: entriesOf bits block b l := by
  rw [entriesOf, List.filter_cons_of_pos (by simpa using h), List.map_cons, entriesOf]

theorem offset_or (hblock : (block + 1) * 2 ^ bits ≤ 2 ^ 32) (ho : o < 2 ^ bits) :
    (block * 2 ^ bits % 2 ^ 32 ||| o) = block * 2 ^ bits + o := by
  have hmul : (block + 1) * 2 ^ bits = block * 2 ^ bits + 2 ^ bits := Nat.succ_mul block _
  have hor := Nat.two_pow_add_eq_or_of_lt ho block
  rw [Nat.mod_eq_of_lt (by omega), Nat.mul_comm, ← hor]

/-! ## One block -/

/-- The loop over a block from a record on offers its live entries in order, up to one that is
refused. -/
theorem readBlock_spec (h : Tiled b o l (2 ^ bits)) (hsize : 2 ^ bits ≤ size)
    (hblock : (block + 1) * 2 ^ bits ≤ 2 ^ 32) (hfuel : 2 ^ bits < fuel + o) :
    (∃ l₁ x l₂, l = l₁ ++ x :: l₂ ∧
      readBlock bits filldir block size b fuel o pos filled =
        (pos + (x - o), filled ++ entriesOf bits block b l₁,
          .lame ((b x).filled (block * 2 ^ bits + x))) ∧
      isDeleted (b x) = false ∧
      filldir (filled ++ entriesOf bits block b l₁) ((b x).filled (block * 2 ^ bits + x)) = true) ∨
    readBlock bits filldir block size b fuel o pos filled =
      (pos + (2 ^ bits - o), filled ++ entriesOf bits block b l, .done) := by
  induction fuel generalizing o pos filled l with
  | zero =>
      have hle := h.le
      omega
  | succ fuel ih =>
      have h16 : tuxRecLen 1 = 16 := by decide
      rw [readBlock, Nat.min_eq_right hsize, h16]
      cases l with
      | nil =>
          have heq : o = 2 ^ bits := h
          right
          rw [if_pos (by omega), heq, Nat.sub_self, entriesOf_nil, List.append_nil, Nat.add_zero]
      | cons x l =>
          obtain ⟨rfl, hfits, hrest⟩ := h
          have hlen : 16 ≤ (b x).len := Nat.le_trans (tuxRecLen_pos _) hfits.2
          have hle := hrest.le
          have hdisk : tuxRecLenFromDisk (b x).recLen = (b x).len := rfl
          rw [if_neg (by omega), if_neg hfits.recLen_ne, hdisk, offset_or hblock (by omega)]
          by_cases hdel : isDeleted (b x) = true
          · rw [if_pos hdel, entriesOf_deleted hdel]
            rcases @ih (x + (b x).len) (pos + (b x).len) l filled hrest (by omega) with
              ⟨l₁, y, l₂, rfl, heq, hlive, hlame⟩ | heq
            · left
              have hy := (hrest.bounds (List.mem_append_right l₁ List.mem_cons_self)).1
              refine ⟨x :: l₁, y, l₂, rfl, ?_, hlive, ?_⟩
              · rw [heq, entriesOf_deleted hdel, show pos + (b x).len + (y - (x + (b x).len)) =
                  pos + (y - x) by omega]
              · rw [entriesOf_deleted hdel]
                exact hlame
            · right
              rw [heq, show pos + (b x).len + (2 ^ bits - (x + (b x).len)) =
                pos + (2 ^ bits - x) by omega]
          · rw [if_neg hdel, entriesOf_live hdel]
            by_cases hlame : filldir filled ((b x).filled (block * 2 ^ bits + x)) = true
            · left
              rw [if_pos hlame]
              refine ⟨[], x, l, rfl, ?_, Bool.eq_false_iff.mpr hdel, ?_⟩
              · rw [entriesOf_nil, List.append_nil, Nat.sub_self, Nat.add_zero]
              · rw [entriesOf_nil, List.append_nil]
                exact hlame
            · rw [if_neg hlame]
              rcases @ih (x + (b x).len) (pos + (b x).len) l
                (filled ++ [(b x).filled (block * 2 ^ bits + x)]) hrest (by omega) with
                ⟨l₁, y, l₂, rfl, heq, hlive, hlame⟩ | heq
              · left
                have hy := (hrest.bounds (List.mem_append_right l₁ List.mem_cons_self)).1
                rw [List.append_assoc, List.singleton_append] at heq hlame
                refine ⟨x :: l₁, y, l₂, rfl, ?_, hlive, ?_⟩
                · rw [heq, entriesOf_live hdel, show pos + (b x).len + (y - (x + (b x).len)) =
                    pos + (y - x) by omega]
                · rw [entriesOf_live hdel]
                  exact hlame
              · right
                rw [heq, List.append_assoc, List.singleton_append,
                  show pos + (b x).len + (2 ^ bits - (x + (b x).len)) =
                    pos + (2 ^ bits - x) by omega]

/-! ## All blocks -/

/-- What a scan does from a position with the entries `rest` behind it: it accepts some of them,
and stops at the end or at the next one. -/
def Scanned (bits : ℕ) (dir : Directory) (chain : ℕ → List ℕ) (n : ℕ)
    (filldir : List Filled → Filled → Bool) (filled rest : List Filled) (pos : ℕ)
    (filled' : List Filled) (ended : Ended) : Prop :=
  ∃ rest', filled ++ rest = filled' ++ rest' ∧ At bits dir chain n pos rest' ∧
    (ended = .done ∧ rest' = [] ∨
      ∃ e r, ended = .lame e ∧ rest' = e :: r ∧ filldir filled' e = true)

theorem Blocks.below (hw : Blocks bits dir chain n) (hi : i < n) :
    (i + 1) * 2 ^ bits ≤ dir.size := by
  rw [hw.size]
  exact Nat.mul_le_mul_right _ hi

theorem readBlocks_step (hw : Blocks bits dir chain n) (hlimit : dir.size < 2 ^ 32) (hi : i < n)
    (htiled : Tiled (dir.block i) o l (2 ^ bits)) :
    (∃ l₁ x l₂, l = l₁ ++ x :: l₂ ∧
      readBlocks bits dir filldir (left + 1) i o (i * 2 ^ bits + o) filled =
        (i * 2 ^ bits + x, filled ++ entriesOf bits i (dir.block i) l₁,
          .lame ((dir.block i x).filled (i * 2 ^ bits + x))) ∧
      isDeleted (dir.block i x) = false ∧
      filldir (filled ++ entriesOf bits i (dir.block i) l₁)
        ((dir.block i x).filled (i * 2 ^ bits + x)) = true) ∨
    readBlocks bits dir filldir (left + 1) i o (i * 2 ^ bits + o) filled =
      readBlocks bits dir filldir left (i + 1) 0 ((i + 1) * 2 ^ bits)
        (filled ++ entriesOf bits i (dir.block i) l) := by
  have hbelow := hw.below hi
  have hmul : (i + 1) * 2 ^ bits = i * 2 ^ bits + 2 ^ bits := Nat.succ_mul i _
  have ho := htiled.le
  rw [readBlocks, Nat.mod_eq_of_lt (show i * 2 ^ bits < 2 ^ 32 by omega),
    Nat.mod_eq_of_lt (show dir.size - i * 2 ^ bits < 2 ^ 32 by omega)]
  rcases @readBlock_spec bits i (dir.size - i * 2 ^ bits) (2 ^ bits + 1) o (i * 2 ^ bits + o)
    (dir.block i) l filled filldir htiled (by omega) (by omega) (by omega) with
    ⟨l₁, x, l₂, rfl, heq, hlive, hlame⟩ | heq
  · left
    have hx := (htiled.bounds (List.mem_append_right l₁ List.mem_cons_self)).1
    refine ⟨l₁, x, l₂, rfl, ?_, hlive, hlame⟩
    rw [heq, show i * 2 ^ bits + o + (x - o) = i * 2 ^ bits + x by omega]
  · right
    rw [heq, show i * 2 ^ bits + o + (2 ^ bits - o) = (i + 1) * 2 ^ bits by omega]

theorem scanned_lame {l₀ l₁ l₂ : List ℕ} {x : ℕ} (hi : i + (left + 1) = n)
    (hchain : chain i = l₀ ++ (l₁ ++ x :: l₂)) (hlive : isDeleted (dir.block i x) = false)
    (hlame : filldir (filled ++ entriesOf bits i (dir.block i) l₁)
      ((dir.block i x).filled (i * 2 ^ bits + x)) = true) :
    Scanned bits dir chain n filldir filled (entriesOf bits i (dir.block i) (l₁ ++ x :: l₂) ++
      entriesFrom bits dir chain left (i + 1)) (i * 2 ^ bits + x)
      (filled ++ entriesOf bits i (dir.block i) l₁)
      (.lame ((dir.block i x).filled (i * 2 ^ bits + x))) := by
  refine ⟨entriesOf bits i (dir.block i) (x :: l₂) ++ entriesFrom bits dir chain left (i + 1), ?_,
    Or.inl ⟨i, x, l₀ ++ l₁, l₂, by omega, by rw [hchain, List.append_assoc], rfl, ?_⟩,
    Or.inr ⟨_, entriesOf bits i (dir.block i) l₂ ++ entriesFrom bits dir chain left (i + 1), rfl,
      ?_, hlame⟩⟩
  · rw [entriesOf_append, List.append_assoc, List.append_assoc]
  · rw [show n - (i + 1) = left by omega]
  · rw [entriesOf_live (by rw [hlive]; exact Bool.noConfusion), List.cons_append]

/-- The loop over the blocks goes on in order, and stops at the end or at a refused entry. -/
theorem readBlocks_spec (hw : Blocks bits dir chain n) (hlimit : dir.size < 2 ^ 32)
    {l₀ : List ℕ} (hi : i + (left + 1) = n) (hchain : chain i = l₀ ++ l)
    (htiled : Tiled (dir.block i) o l (2 ^ bits)) :
    ∃ pos filled' ended,
      readBlocks bits dir filldir (left + 1) i o (i * 2 ^ bits + o) filled =
        (pos, filled', ended) ∧
      Scanned bits dir chain n filldir filled (entriesOf bits i (dir.block i) l ++
        entriesFrom bits dir chain left (i + 1)) pos filled' ended := by
  induction left generalizing i o l l₀ filled with
  | zero =>
      rcases @readBlocks_step bits o n 0 i dir l chain filled filldir hw hlimit (by omega)
        htiled with ⟨l₁, x, l₂, rfl, heq, hlive, hlame⟩ | heq
      · exact ⟨_, _, _, heq, scanned_lame hi hchain hlive hlame⟩
      · refine ⟨_, _, _, heq, [], ?_, Or.inr ⟨by rw [← hi], rfl⟩, Or.inl ⟨rfl, rfl⟩⟩
        rw [entriesFrom, List.append_nil, List.append_nil]
  | succ left ih =>
      rcases @readBlocks_step bits o n (left + 1) i dir l chain filled filldir hw hlimit (by omega)
        htiled with ⟨l₁, x, l₂, rfl, heq, hlive, hlame⟩ | heq
      · exact ⟨_, _, _, heq, scanned_lame hi hchain hlive hlame⟩
      · obtain ⟨pos, filled', ended, hread, rest', hrest, hat, hended⟩ :=
          @ih 0 (i + 1) (chain (i + 1)) (filled ++ entriesOf bits i (dir.block i) l) []
            (by omega) rfl (hw.tiled (i + 1) (by omega))
        refine ⟨pos, filled', ended, ?_, rest', ?_, hat, hended⟩
        · rw [heq]
          exact hread
        · rw [entriesFrom, ← hrest, List.append_assoc]

/-! ## One call -/

theorem walkTo_self (b : Block) (fuel o : ℕ) : walkTo b o fuel o = o := by
  cases fuel with
  | zero => rfl
  | succ fuel => rw [walkTo, if_neg (fun hand => Nat.lt_irrefl o hand.1)]

theorem revalidate_pos {version : ℕ} {file : File} (h : file.pos < 2 ^ 32) :
    ∃ v, revalidate bits dir version (file.pos / 2 ^ bits % 2 ^ 32) file =
      (file.pos % 2 ^ bits, ⟨file.pos, v⟩) := by
  have hdiv : file.pos / 2 ^ bits < 2 ^ 32 := Nat.lt_of_le_of_lt (Nat.div_le_self _ _) h
  have hsplit := Nat.div_add_mod' file.pos (2 ^ bits)
  rw [revalidate, Nat.mod_mod, walkTo_self, Nat.mod_eq_of_lt hdiv]
  dsimp only
  split
  · exact ⟨file.version, rfl⟩
  · split
    · refine ⟨version, ?_⟩
      rw [Nat.mod_eq_of_lt (show file.pos / 2 ^ bits * 2 ^ bits < 2 ^ 32 by omega), hsplit,
        Nat.mod_eq_of_lt h]
    · exact ⟨version, rfl⟩

theorem Blocks.count (hw : Blocks bits dir chain n) (hlimit : dir.size < 2 ^ 32) : n < 2 ^ 32 := by
  have hle : n ≤ n * 2 ^ bits := Nat.le_mul_of_pos_right n (Nat.two_pow_pos bits)
  rw [← hw.size] at hle
  omega

theorem Blocks.blocksOf_eq (hw : Blocks bits dir chain n) (hlimit : dir.size < 2 ^ 32) :
    blocksOf bits dir.size = n := by
  rw [blocksOf, hw.size, Nat.mul_div_cancel _ (Nat.two_pow_pos bits),
    Nat.mod_eq_of_lt (hw.count hlimit)]

theorem Blocks.from (hw : Blocks bits dir chain n) (hi : i < n) {l₀ : List ℕ}
    (hchain : chain i = l₀ ++ o :: l) :
    Tiled (dir.block i) o (o :: l) (2 ^ bits) ∧ o < 2 ^ bits := by
  have htiled := hw.tiled i hi
  rw [hchain] at htiled
  obtain ⟨mid, -, hfrom⟩ := tiled_append.mp htiled
  obtain rfl : o = mid := hfrom.1
  have hpos := hfrom.2.1.pos
  have hle := hfrom.2.2.le
  exact ⟨hfrom, by omega⟩

/-- A call from a record on. -/
theorem tuxReaddir_spec (hw : Blocks bits dir chain n) (hlimit : dir.size < 2 ^ 32)
    {version : ℕ} {file : File} (hat : At bits dir chain n file.pos rest) :
    ∃ v pos filled ended, tuxReaddir bits dir filldir version file = ⟨⟨pos, v⟩, filled, ended⟩ ∧
      Scanned bits dir chain n filldir [] rest pos filled ended := by
  have hn := hw.count hlimit
  rw [tuxReaddir, hw.blocksOf_eq hlimit]
  dsimp only
  rcases hat with ⟨i, o, l₀, l, hi, hchain, hfile, rfl⟩ | ⟨hfile, rfl⟩
  · obtain ⟨htiled, ho⟩ := hw.from hi hchain
    have hbelow := hw.below hi
    have hmul : (i + 1) * 2 ^ bits = i * 2 ^ bits + 2 ^ bits := Nat.succ_mul i _
    have hblock : file.pos / 2 ^ bits = i := by
      rw [hfile, Nat.add_comm, Nat.add_mul_div_right _ _ (Nat.two_pow_pos bits),
        Nat.div_eq_of_lt ho, Nat.zero_add]
    have hoffset : file.pos % 2 ^ bits = o := by
      rw [hfile, Nat.add_comm, Nat.add_mul_mod_self_right, Nat.mod_eq_of_lt ho]
    obtain ⟨v, hrevalidate⟩ :=
      @revalidate_pos bits dir version file (by rw [hfile]; omega)
    obtain ⟨pos, filled, ended, hread, hscanned⟩ :=
      @readBlocks_spec bits o n (n - (i + 1)) i dir (o :: l) chain [] filldir hw hlimit l₀
        (by omega) hchain htiled
    refine ⟨v, pos, filled, ended, ?_, hscanned⟩
    rw [hrevalidate, hblock, Nat.mod_eq_of_lt (show i < 2 ^ 32 by omega), if_pos hi, hoffset, hfile,
      show n - i = n - (i + 1) + 1 by omega]
    dsimp only
    rw [hread]
  · have hblock : file.pos / 2 ^ bits = n := by
      rw [hfile, Nat.mul_div_cancel _ (Nat.two_pow_pos bits)]
    refine ⟨file.version, file.pos, [], .done, ?_, [], rfl, Or.inr ⟨hfile, rfl⟩, Or.inl ⟨rfl, rfl⟩⟩
    rw [hblock, Nat.mod_eq_of_lt hn, if_neg (Nat.lt_irrefl n)]

/-! ## Calls on one file -/

/-- The calls of `tux_readdir` on one file, each with a callback and a version of its own: the file,
all accepted entries, and whether a call has come to the end. -/
inductive Calls (bits : ℕ) (dir : Directory) : File → List Filled → Bool → Prop where
  | start (version : ℕ) : Calls bits dir ⟨0, version⟩ [] false
  | call {file : File} {filled : List Filled} {ended : Bool} {r : Listing}
      (h : Calls bits dir file filled ended) (version : ℕ)
      (filldir : List Filled → Filled → Bool)
      (hcall : tuxReaddir bits dir filldir version file = r) :
      Calls bits dir r.file (filled ++ r.filled) (ended || r.ended = .done)

/-- The live entries of a directory. -/
def entries (bits : ℕ) (dir : Directory) (chain : ℕ → List ℕ) (n : ℕ) : List Filled :=
  entriesFrom bits dir chain n 0

theorem At.start (hw : Blocks bits dir chain n) :
    At bits dir chain n 0 (entries bits dir chain n) := by
  cases n with
  | zero => exact Or.inr ⟨(Nat.zero_mul _).symm, rfl⟩
  | succ n =>
      have htiled := hw.tiled 0 (Nat.succ_pos n)
      cases hchain : chain 0 with
      | nil =>
          rw [hchain] at htiled
          have hzero : 0 = 2 ^ bits := htiled
          have hpos := Nat.two_pow_pos bits
          omega
      | cons o l =>
          rw [hchain] at htiled
          obtain ⟨rfl, -⟩ := htiled
          refine Or.inl ⟨0, 0, [], l, Nat.succ_pos n, hchain, (Nat.zero_mul _).symm, ?_⟩
          rw [entries, entriesFrom, hchain]
          rfl

theorem Calls.at (hw : Blocks bits dir chain n) (hlimit : dir.size < 2 ^ 32) {file : File}
    {ended : Bool} (h : Calls bits dir file filled ended) :
    ∃ rest, filled ++ rest = entries bits dir chain n ∧ At bits dir chain n file.pos rest ∧
      (ended = true → rest = []) := by
  induction h with
  | start version => exact ⟨_, rfl, At.start hw, fun h => nomatch h⟩
  | @call file filled ended r h version filldir hcall ih =>
      obtain ⟨rest, hall, hat, hdone⟩ := ih
      obtain ⟨v, pos, new, last, heq, rest', hrest, hat', hlast⟩ :=
        @tuxReaddir_spec bits n dir chain rest filldir hw hlimit version file hat
      rw [hcall] at heq
      subst heq
      refine ⟨rest', ?_, hat', fun hended => ?_⟩
      · rw [← hall, List.append_assoc, ← hrest, List.nil_append]
      · rcases hlast with ⟨-, hnil⟩ | ⟨e, r, rfl, rfl, -⟩
        · exact hnil
        · rcases Bool.or_eq_true _ _ |>.mp hended with hended | hended
          · rw [hdone hended, List.nil_append] at hrest
            exact absurd hrest.symm (by simp)
          · exact absurd (of_decide_eq_true hended) (fun h => nomatch h)

theorem mem_entriesOf {e : Filled} (h : e ∈ entriesOf bits block b l) :
    ∃ o ∈ l, isDeleted (b o) = false ∧ e = (b o).filled (block * 2 ^ bits + o) := by
  obtain ⟨o, ho, rfl⟩ := List.mem_map.mp h
  obtain ⟨hmem, hlive⟩ := List.mem_filter.mp ho
  exact ⟨o, hmem, by simpa using hlive, rfl⟩

theorem mem_entriesFrom {e : Filled} :
    e ∈ entriesFrom bits dir chain left block ↔ ∃ i, block ≤ i ∧ i < block + left ∧
      ∃ o ∈ chain i, isDeleted (dir.block i o) = false ∧
        e = (dir.block i o).filled (i * 2 ^ bits + o) := by
  induction left generalizing block with
  | zero =>
      refine ⟨fun h => (nomatch h), ?_⟩
      rintro ⟨i, hge, hlt, -⟩
      omega
  | succ left ih =>
      rw [entriesFrom, List.mem_append, ih]
      constructor
      · rintro (h | ⟨i, hge, hlt, h⟩)
        · exact ⟨block, Nat.le_refl _, by omega, mem_entriesOf h⟩
        · exact ⟨i, by omega, by omega, h⟩
      · rintro ⟨i, hge, hlt, o, ho, hlive, rfl⟩
        rcases Nat.eq_or_lt_of_le hge with rfl | hgt
        · exact Or.inl (List.mem_map.mpr ⟨o, List.mem_filter.mpr ⟨ho, by simpa using hlive⟩, rfl⟩)
        · exact Or.inr ⟨i, hgt, by omega, o, ho, hlive, rfl⟩

theorem entriesOf_sorted (h : Tiled b o l (2 ^ bits)) :
    (entriesOf bits block b l).Pairwise fun x y => x.offset < y.offset := by
  induction l generalizing o with
  | nil => exact List.Pairwise.nil
  | cons x l ih =>
      obtain ⟨rfl, hfits, hrest⟩ := h
      by_cases hdel : isDeleted (b x) = true
      · rw [entriesOf_deleted hdel]
        exact ih hrest
      · rw [entriesOf_live hdel]
        refine List.pairwise_cons.mpr ⟨fun e he => ?_, ih hrest⟩
        obtain ⟨y, hy, -, rfl⟩ := mem_entriesOf he
        have hle := (hrest.bounds hy).1
        have hpos := hfits.pos
        simp only [Dirent.filled]
        omega

theorem entriesFrom_sorted (hw : Blocks bits dir chain n) (hn : block + left ≤ n) :
    (entriesFrom bits dir chain left block).Pairwise fun x y => x.offset < y.offset := by
  induction left generalizing block with
  | zero => exact List.Pairwise.nil
  | succ left ih =>
      have htiled := hw.tiled block (by omega)
      rw [entriesFrom, List.pairwise_append]
      refine ⟨entriesOf_sorted htiled, ih (by omega), fun x hx y hy => ?_⟩
      obtain ⟨o, ho, -, rfl⟩ := mem_entriesOf hx
      obtain ⟨i, hge, -, p, -, -, rfl⟩ := mem_entriesFrom.mp hy
      obtain ⟨-, hstop, hfits⟩ := htiled.bounds ho
      have hpos := hfits.pos
      have hmul := Nat.mul_le_mul_right (2 ^ bits) hge
      rw [Nat.succ_mul] at hmul
      simp only [Dirent.filled]
      omega

/-- The calls on a directory below 4 GiB accept its live entries in the order of the file, each
once. A call stops at the end or at the next of them, and after the end no more are offered. -/
theorem calls_complete (hw : Blocks bits dir chain n) (hlimit : dir.size < 2 ^ 32) {file : File}
    {ended : Bool} (h : Calls bits dir file filled ended) :
    filled <+: entries bits dir chain n ∧
      (ended = true → filled = entries bits dir chain n) ∧
      ((entries bits dir chain n).Pairwise fun x y => x.offset < y.offset) ∧
      ∀ version filldir,
        (tuxReaddir bits dir filldir version file).ended ≠ .eio ∧
        (ended = true → (tuxReaddir bits dir filldir version file).filled = []) ∧
        ∀ e, (tuxReaddir bits dir filldir version file).ended = .lame e →
          filled ++ (tuxReaddir bits dir filldir version file).filled ++ [e] <+:
            entries bits dir chain n := by
  obtain ⟨rest, hall, hat, hdone⟩ := h.at hw hlimit
  refine ⟨⟨rest, hall⟩, fun hended => ?_, entriesFrom_sorted hw (by omega),
    fun version filldir => ?_⟩
  · rw [← hall, hdone hended, List.append_nil]
  · obtain ⟨v, pos, new, last, heq, rest', hrest, -, hlast⟩ :=
      @tuxReaddir_spec bits n dir chain rest filldir hw hlimit version file hat
    rw [heq]
    rw [List.nil_append] at hrest
    refine ⟨?_, fun hended => ?_, fun e he => ?_⟩
    · rcases hlast with ⟨rfl, -⟩ | ⟨e, r, rfl, -⟩ <;> exact fun h => nomatch h
    · rw [hdone hended] at hrest
      exact (List.append_eq_nil_iff.mp hrest.symm).1
    · rcases hlast with ⟨rfl, -⟩ | ⟨e', r, rfl, rfl, -⟩
      · exact (nomatch he)
      · cases he
        refine ⟨r, ?_⟩
        rw [← hall, hrest]
        simp only [List.append_assoc, List.singleton_append]

end

/-- A block with the entries `a` and `b`. -/
def twoEntries : Directory :=
  ⟨fun _ o => if o = 0 then ⟨5, 16, 1, 1, [97]⟩ else ⟨6, 240, 1, 1, [98]⟩, 256⟩

theorem twoEntries_blocks : Blocks 8 twoEntries (fun _ => [0, 16]) 1 := by
  have ha : (⟨5, 16, 1, 1, [97]⟩ : Dirent).Fits := ⟨by decide, by decide⟩
  have hb : (⟨6, 240, 1, 1, [98]⟩ : Dirent).Fits := ⟨by decide, by decide⟩
  exact ⟨rfl, fun i _ => ⟨rfl, ha, rfl, hb, rfl⟩⟩

/-- A listing that is stopped at `b` and resumed. -/
theorem calls_complete_two : ∃ file, Calls 8 twoEntries file
    [⟨[97], 0, 5, 8⟩, ⟨[98], 16, 6, 8⟩] true ∧
      entries 8 twoEntries (fun _ => [0, 16]) 1 = [⟨[97], 0, 5, 8⟩, ⟨[98], 16, 6, 8⟩] := by
  have hfirst := Calls.call (Calls.start 0) 1 (fun filled _ => !filled.isEmpty)
    (show tuxReaddir 8 twoEntries _ 1 ⟨0, 0⟩ =
      ⟨⟨16, 1⟩, [⟨[97], 0, 5, 8⟩], .lame ⟨[98], 16, 6, 8⟩⟩ by decide)
  have hsecond := Calls.call hfirst 1 (fun _ _ => false)
    (show tuxReaddir 8 twoEntries _ 1 ⟨16, 1⟩ = ⟨⟨256, 1⟩, [⟨[98], 16, 6, 8⟩], .done⟩ by decide)
  refine ⟨_, hsecond, ?_⟩
  exact ((calls_complete twoEntries_blocks (by decide) hsecond).2.1 rfl).symm

/-- A directory of 4 GiB with an entry in each block. -/
def fourGiB : Directory :=
  ⟨fun i _ => ⟨i, 65535, 1, 1, [97]⟩, 2 ^ 32⟩

theorem fourGiB_blocks : Blocks 16 fourGiB (fun _ => [0]) (2 ^ 16) := by
  have hdisk : tuxRecLenFromDisk 65535 = 2 ^ 16 := by decide
  have hlen (i : ℕ) : (fourGiB.block i 0).len = 2 ^ 16 := hdisk
  refine ⟨by decide, fun i _ => ⟨rfl, ⟨?_, ?_⟩, ?_⟩⟩
  · rw [hlen]
    decide
  · rw [hlen]
    exact (by decide : tuxRecLen 1 ≤ 2 ^ 16)
  · rw [hlen]
    exact Nat.zero_add _

/-- The first block of a directory of 4 GiB is left out. -/
theorem first_block_skipped : Blocks 16 fourGiB (fun _ => [0]) (2 ^ 16) ∧
    ∃ file, Calls 16 fourGiB file [⟨[97], 65536, 1, 8⟩] false ∧
      ¬ [⟨[97], 65536, 1, 8⟩] <+: entries 16 fourGiB (fun _ => [0]) (2 ^ 16) := by
  have hcall := Calls.call (Calls.start 0) 1 (fun filled _ => !filled.isEmpty)
    (show tuxReaddir 16 fourGiB _ 1 ⟨0, 0⟩ =
      ⟨⟨65536, 1⟩, [⟨[97], 65536, 1, 8⟩], .lame ⟨[97], 131072, 2, 8⟩⟩ by decide)
  refine ⟨fourGiB_blocks, _, hcall, ?_⟩
  rintro ⟨rest, h⟩
  have hhead : (entries 16 fourGiB (fun _ => [0]) (2 ^ 16)).head? = some ⟨[97], 0, 0, 8⟩ := by
    decide
  rw [← h] at hhead
  exact absurd (congrArg Filled.offset (Option.some.inj hhead)) (by decide)

end Tux3.Dir
