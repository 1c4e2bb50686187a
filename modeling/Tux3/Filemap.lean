import Tux3.MapAtomic
import Tux3.BufferCoherence
import Mathlib.Data.BitVec

/-!
# Transfers of file blocks

`guess_region` and `filemap_extent_io` of `filemap.c` over the buffers of a file and its btree. A
device without an error transfers all blocks: after an error nothing but the error is returned.
-/
namespace Tux3.Filemap

open Buffer MapRegion TreeChop

def MAX_BLOCKS_BITS : ℕ := 48

def MAX_EXTENT : ℕ := 64

/-- A call of `blockio`, or of `memset` for a hole: the index of `blockget`, the buffer, and the
block. -/
structure Transfer where
  index : ℕ
  id : ℕ
  block : Option ℕ
  deriving DecidableEq, Repr

/-- The cache and the transfers so far. -/
structure Io (Data : Type) where
  pool : Pool Data
  transfers : List Transfer

/-- What a call leaves, with an error or with 0. -/
structure ExtentIo (Data : Type) extends Io Data where
  err : Bool
  mapped : Mapped

/-- A difference of block numbers. -/
def blockSub (a b : ℕ) : ℕ := (a + 2 ^ 64 - b) % 2 ^ 64

/-- An index that was an `int`, as a block number. -/
def intIndex (index : BitVec 32) : ℕ := (index.signExtend 64).toNat

section
variable {Data : Type} (bucketOf : ℕ → Option ℕ)

/-! ## The region -/

/-- `peekblk` without its hold on the buffer, which is put at once; there is no result when the hash
is outside of the table. -/
def peekblk (p : Pool Data) (map block : ℕ) : Option (Option ℕ) :=
  (bucketOf block).map fun bucket =>
    (p.hash map bucket).find? fun id => (p.buf id).index = block

/-- Whether `guess_region` takes a block: to write if it is dirty, to read if it is not there yet,
up to the end of the file. -/
def wanted (p : Pool Data) (last : ℕ) (write : Bool) (block : ℕ) : Option ℕ → Bool
  | none => !write && decide (block ≤ last)
  | some id => decide ((p.buf id).state = if write then .dirty else .empty)

/-- The inner loop of `guess_region` in one direction, with so many blocks left to `MAX_EXTENT`:
what is left, and the end of the region. -/
def guessEnd (p : Pool Data) (map last : ℕ) (write : Bool) (step : ℕ → ℕ) :
    ℕ → ℕ → Option (ℕ × ℕ)
  | 0, stop => some (0, stop)
  | left + 1, stop =>
      let next := step stop
      match peekblk bucketOf p map next with
      | none => none
      | some nextbuf =>
          if wanted p last write next nextbuf then guessEnd p map last write step left next
          else some (left + 1, stop)

/-- `guess_region`: `start` and `count`. The last block of the file is a parameter. -/
def guessRegion (p : Pool Data) (map last index : ℕ) (write : Bool) : Option (ℕ × ℕ) :=
  let down :=
    if write then guessEnd bucketOf p map last write (blockSub · 1) (MAX_EXTENT - 1) index
    else some (MAX_EXTENT - 1, index)
  down.bind fun (left, start) =>
    (guessEnd bucketOf p map last write (· + 1) left index).map fun (_, stop) =>
      (start, blockSub (stop + 1) start)

/-! ## The transfers -/

variable (zero : Data) (maxBuffers dev map : ℕ) (write : Bool)

/-- `set_buffer_clean`; the state is asserted. -/
def setBufferClean (p : Pool Data) (id : ℕ) : Option (Pool Data) :=
  if (p.buf id).state = .clean then none else some (setBufferState p id .clean)

def setData (p : Pool Data) (id : ℕ) (data : Data) : Pool Data :=
  { p with buf := Function.update p.buf id { p.buf id with data := data } }

/-- `blockio` without an error. -/
def blockio (p : Pool Data) (id block : ℕ) : Pool Data :=
  if write then
    { p with dev := Function.update p.dev dev (Function.update (p.dev dev) block (p.buf id).data) }
  else setData p id (p.dev dev block)

/-- The block of the disk that a block of a segment goes to or comes from. -/
def target (s : Seg) (j : ℕ) : Option ℕ :=
  if write = false ∧ s.state = .hole then none else some (s.block + j)

/-- `blockio`, or `memset` to read from a hole. -/
def moveData (s : Seg) (j : ℕ) (p : Pool Data) (id : ℕ) : Pool Data :=
  match target write s j with
  | none => setData p id zero
  | some block => blockio dev write p id block

/-- The body of the inner loop of `filemap_extent_io`, for a block of a segment. -/
def transferBlock (s : Seg) (index : BitVec 32) (j : ℕ) (io : Io Data) : Option (Io Data) :=
  match blockget bucketOf io.pool maxBuffers map (intIndex (index + BitVec.ofNat 32 j)) with
  | none => none
  | some (p, id) =>
      match setBufferClean (moveData zero dev write s j p id) id with
      | none => none
      | some p => (blockput p id).map fun p =>
          ⟨p, io.transfers ++ [⟨intIndex (index + BitVec.ofNat 32 j), id, target write s j⟩]⟩

/-- The inner loop, with so many blocks left. -/
def transferSeg (s : Seg) (index : BitVec 32) : ℕ → ℕ → Io Data → Option (Io Data)
  | 0, _, io => some io
  | left + 1, j, io =>
      (transferBlock bucketOf zero maxBuffers dev map write s index j io).bind
        (transferSeg s index left (j + 1))

/-- The loop over the segments; `index` is an `int`. -/
def transferSegs : BitVec 32 → List Seg → Io Data → Option (Io Data)
  | _, [], io => some io
  | index, s :: segs, io =>
      (transferSeg bucketOf zero maxBuffers dev map write s index s.count 0 io).bind
        (transferSegs (index + BitVec.ofNat 32 s.count) segs)

variable (blocksize entriesPerNode : ℕ)

/-- `filemap_extent_io`; `none` where an assertion fails or a pointer is bad. The cache that
`map_region` leaves, which goes through it for the btree and the bitmap, is a parameter, and so is
the last block of the file. -/
def filemapExtentIo (walked : Pool Data → Pool Data) (p : Pool Data) (last : ℕ) (t : Dtree)
    (supply : Supply) (buffer : ℕ) : Option (ExtentIo Data) :=
  let index := (p.buf buffer).index
  let map := (p.buf buffer).map
  if 2 ^ MAX_BLOCKS_BITS ≤ index then some ⟨⟨p, []⟩, true, ⟨none, t, [], []⟩⟩
  else
    match guessRegion bucketOf p map last index write with
    | none => none
    | some (start, count) =>
      match mapRegion blocksize entriesPerNode t supply start count 10 (if write then 1 else 0) with
      | none => none
      | some m =>
          let p := walked p
          match m.map with
          | none => some ⟨⟨p, []⟩, true, m⟩
          | some [] =>
              if write then some ⟨⟨p, []⟩, true, m⟩
              else (setBufferClean (setData p buffer zero) buffer).map fun p =>
                ⟨⟨p, [⟨index, buffer, none⟩]⟩, false, m⟩
          | some segs =>
              (transferSegs bucketOf zero maxBuffers dev map write (BitVec.ofNat 32 start) segs
                ⟨p, []⟩).map fun io => ⟨io, false, m⟩

end

/-! ## What the region has -/

section
variable {Data : Type}

/-- The cache of a file: its lists agree, and no block has two buffers. -/
structure Cached (bucketOf : ℕ → Option ℕ) (map : ℕ) (p : Pool Data) : Prop where
  linked : Linked bucketOf p
  unique : ∀ x y, p.Hashed x → p.Hashed y → (p.buf x).map = map → (p.buf y).map = map →
    (p.buf x).index = (p.buf y).index → x = y

/-- A buffer is the one of a block of a file. -/
def IsBuffer (p : Pool Data) (map block id : ℕ) : Prop :=
  p.Hashed id ∧ (p.buf id).map = map ∧ (p.buf id).index = block

/-- A block that a region may have besides its own: dirty to write, and without contents to read. -/
def Neighbour (p : Pool Data) (map : ℕ) (write : Bool) (block : ℕ) : Prop :=
  if write then ∃ id, IsBuffer p map block id ∧ (p.buf id).state = .dirty
  else ∀ id, IsBuffer p map block id → (p.buf id).state = .empty

variable {bucketOf : ℕ → Option ℕ} {p : Pool Data} {map last left index : ℕ}
  {start count : ℕ} {write : Bool}

theorem Cached.same (h : Cached bucketOf map p) {block x y : ℕ} (hx : IsBuffer p map block x)
    (hy : IsBuffer p map block y) : x = y :=
  h.unique x y hx.1 hy.1 hx.2.1 hy.2.1 (hx.2.2.trans hy.2.2.symm)

theorem peekblk_some (h : Cached bucketOf map p) {block id : ℕ}
    (hpeek : peekblk bucketOf p map block = some (some id)) : IsBuffer p map block id := by
  obtain ⟨bucket, -, hfind⟩ := Option.map_eq_some_iff.mp hpeek
  obtain ⟨hid, hmap, -⟩ := ((h.linked.hash map bucket).2 id).mp (List.mem_of_find?_eq_some hfind)
  exact ⟨hid, hmap, by simpa using List.find?_some hfind⟩

theorem peekblk_none (h : Cached bucketOf map p) {block : ℕ}
    (hpeek : peekblk bucketOf p map block = some none) (id : ℕ) : ¬ IsBuffer p map block id := by
  rintro ⟨hid, hmap, hindex⟩
  obtain ⟨bucket, hbucket, hfind⟩ := Option.map_eq_some_iff.mp hpeek
  have hmem := ((h.linked.hash map bucket).2 id).mpr ⟨hid, hmap, hindex ▸ hbucket⟩
  exact List.find?_eq_none.mp hfind id hmem (decide_eq_true hindex)

theorem wanted_neighbour (h : Cached bucketOf map p) {block : ℕ} {nextbuf : Option ℕ}
    (hpeek : peekblk bucketOf p map block = some nextbuf)
    (hwanted : wanted p last write block nextbuf = true) : Neighbour p map write block := by
  cases nextbuf with
  | none =>
      cases write with
      | true => cases hwanted
      | false => exact fun id hid => absurd hid (peekblk_none h hpeek id)
  | some id =>
      have hid := peekblk_some h hpeek
      have hstate := of_decide_eq_true hwanted
      cases write with
      | true => exact ⟨id, hid, hstate⟩
      | false => exact fun x hx => h.same hid hx ▸ hstate

/-- Each round of the inner loop takes a block more. -/
theorem guessEnd_spec (h : Cached bucketOf map p) {step : ℕ → ℕ} {stop left' stop' : ℕ}
    (hguess : guessEnd bucketOf p map last write step left stop = some (left', stop')) :
    ∃ k, left = left' + k ∧ stop' = step^[k] stop ∧
      ∀ j, 0 < j → j ≤ k → Neighbour p map write (step^[j] stop) := by
  induction left generalizing stop with
  | zero =>
      cases hguess
      exact ⟨0, rfl, rfl, fun j hj hle => absurd hle (Nat.not_le.mpr hj)⟩
  | succ left ih =>
      rw [guessEnd] at hguess
      split at hguess
      · cases hguess
      · next nextbuf hpeek =>
          split at hguess
          · next hwanted =>
              obtain ⟨k, hleft, hstop, hall⟩ := ih hguess
              refine ⟨k + 1, by omega, hstop.trans (Function.iterate_succ_apply _ _ _).symm, ?_⟩
              intro j hj hle
              obtain ⟨j, rfl⟩ := Nat.exists_eq_succ_of_ne_zero (Nat.ne_of_gt hj)
              rw [Function.iterate_succ_apply]
              rcases Nat.eq_zero_or_pos j with rfl | hpos
              · exact wanted_neighbour h hpeek hwanted
              · exact hall j hpos (Nat.le_of_succ_le_succ hle)
          · cases hguess
            exact ⟨0, rfl, rfl, fun j hj hle => absurd hle (Nat.not_le.mpr hj)⟩

theorem up_iterate (k : ℕ) : (· + 1)^[k] index = index + k := by
  induction k with
  | zero => rfl
  | succ k ih => rw [Function.iterate_succ_apply', ih, Nat.add_assoc]

theorem down_iterate {k : ℕ} (hk : k ≤ index) (hindex : index < 2 ^ 64) :
    (blockSub · 1)^[k] index = index - k := by
  induction k with
  | zero => rfl
  | succ k ih =>
      rw [Function.iterate_succ_apply', ih (Nat.le_of_succ_le hk), blockSub]
      omega

/-- The region is around the block, has at most `MAX_EXTENT` blocks, and to read it starts at the
block. -/
theorem guessRegion_spec (h : Cached bucketOf map p) (hindex : index < 2 ^ 48)
    (hfirst : ∀ id, ¬ IsBuffer p map (2 ^ 64 - 1) id)
    (hguess : guessRegion bucketOf p map last index write = some (start, count)) :
    start ≤ index ∧ index < start + count ∧ count ≤ 64 ∧ (write = false → start = index) ∧
      ∀ i, start ≤ i → i < start + count → i ≠ index → Neighbour p map write i := by
  obtain ⟨⟨left, low⟩, hdown, hup⟩ := Option.bind_eq_some_iff.mp hguess
  obtain ⟨⟨left', high⟩, hend, heq⟩ := Option.map_eq_some_iff.mp hup
  obtain ⟨rfl, hcount⟩ := Prod.mk.inj heq
  -- the lower end
  have hlow : ∃ k, MAX_EXTENT - 1 = left + k ∧ low + k = index ∧ (write = false → k = 0) ∧
      ∀ j, 0 < j → j ≤ k → Neighbour p map write (index - j) := by
    cases write with
    | false =>
        cases hdown
        exact ⟨0, rfl, rfl, fun _ => rfl, fun j hj hle => absurd hle (Nat.not_le.mpr hj)⟩
    | true =>
        obtain ⟨k, hleft, hlow, hall⟩ := guessEnd_spec h hdown
        have hk : k ≤ index := by
          by_contra hlt
          obtain ⟨id, hid, -⟩ := hall (index + 1) index.succ_pos (by omega)
          rw [Function.iterate_succ_apply', down_iterate (Nat.le_refl _) (by omega),
            Nat.sub_self] at hid
          exact hfirst id hid
        rw [down_iterate hk (by omega)] at hlow
        refine ⟨k, hleft, by omega, fun hno => absurd hno (by decide), fun j hj hle => ?_⟩
        rw [← down_iterate (Nat.le_trans hle hk) (by omega)]
        exact hall j hj hle
  obtain ⟨k, hleft, hk, hzero, hbelow⟩ := hlow
  obtain ⟨k', hleft', hhigh, habove⟩ := guessEnd_spec h hend
  rw [up_iterate] at hhigh
  have hmax : MAX_EXTENT = 64 := rfl
  have hsub : count = high + 1 - low := by
    rw [← hcount, blockSub]
    omega
  refine ⟨by omega, by omega, by omega, fun hread => by have hk0 := hzero hread; omega, ?_⟩
  intro i hge hlt hne
  rcases Nat.lt_or_gt_of_ne hne with hless | hmore
  · have hi := hbelow (index - i) (by omega) (by omega)
    rwa [show index - (index - i) = i by omega] at hi
  · have hi := habove (i - index) (by omega) (by omega)
    rwa [up_iterate, show index + (i - index) = i by omega] at hi

end

end Tux3.Filemap
