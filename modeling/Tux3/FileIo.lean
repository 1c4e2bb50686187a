import Tux3.FilemapServes

/-!
# Reading and writing a file

`tuxseek`, `tuxread`, `tuxwrite` and `tuxtruncate` of `inode.c`, and `flush_buffers`, over the
buffers of one file, its btree and the device. A file is an array of bytes with a size and a
position; what each read gives is compared with that.
-/
namespace Tux3.File

open Buffer MapRegion TreeChop Filemap

def MAX_FILESIZE : ℕ := 2 ^ 60

/-- The data of a buffer. -/
abbrev Block (blockbits : ℕ) : Type := Fin (2 ^ blockbits) → UInt8

/-- What the rest of the system does in a call: to the cache, and as the allocator. -/
structure Rest (blockbits : ℕ) where
  walked : Pool (Block blockbits) → Pool (Block blockbits)
  supply : Supply

/-- A call of `filemap_extent_io`, with the state before it, what `map_region` did and whether it
failed, or a call of `tree_chop`. -/
inductive Event (blockbits : ℕ) where
  | io (write : Bool) (pool : Pool (Block blockbits)) (last : ℕ) (tree : Dtree) (buffer : ℕ)
      (rest : Rest blockbits) (mapped : Mapped) (err : Bool)
  | chop (pool : Pool (Block blockbits)) (tree : Dtree) (key : ℕ) (rest : Rest blockbits)

/-- An open file with the calls so far. -/
structure State (blockbits : ℕ) where
  pool : Pool (Block blockbits)
  tree : Dtree
  isize : ℕ
  pos : ℕ
  events : List (Event blockbits)

/-- What a call leaves, the bytes that it read, and whether it failed. -/
structure Outcome (blockbits : ℕ) where
  file : State blockbits
  bytes : List UInt8
  err : Bool

section
variable {blockbits : ℕ}

/-- `memcpy` to an offset of a block. -/
def copyIn (content : Block blockbits) (offset : ℕ) (bytes : List UInt8) : Block blockbits :=
  fun i => if offset ≤ i then bytes.getD (i - offset) (content i) else content i

/-- `memcpy` from an offset of a block. -/
def copyOut (content : Block blockbits) (offset some : ℕ) : List UInt8 :=
  (List.range' offset some).map fun i => content (Fin.ofNat _ i)

/-- `memset` from an offset of a block on. -/
def clearFrom (content : Block blockbits) (offset : ℕ) : Block blockbits :=
  fun i => if offset ≤ i then 0 else content i

section
variable (bucketOf : ℕ → Option ℕ) (maxBuffers dev map : ℕ) (rest : ℕ → Rest blockbits)

/-! ## Blocks -/

/-- `map->io`. -/
def filemapIo (f : State blockbits) (write : Bool) (buffer : ℕ) :
    Option (State blockbits × Bool) :=
  let last := f.isize / 2 ^ blockbits
  let rest := rest f.events.length
  (filemapExtentIo bucketOf (fun _ => 0) maxBuffers dev write (2 ^ blockbits)
    (calcEntriesPerNode (2 ^ blockbits)) rest.walked f.pool last f.tree rest.supply buffer).map
    fun r =>
      ({ f with
        pool := r.pool
        tree := r.mapped.tree
        events := f.events ++ [.io write f.pool last f.tree buffer rest r.mapped r.err] }, r.err)

/-- `blockread`; an error of the transfer gives no buffer. -/
def blockread (f : State blockbits) (block : ℕ) : Option (State blockbits × Option ℕ) :=
  match blockget bucketOf f.pool maxBuffers map block with
  | none => none
  | some (p, id) =>
      if (p.buf id).state = .empty then
        match filemapIo bucketOf maxBuffers dev rest { f with pool := p } false id with
        | none => none
        | some (f, true) => (blockput f.pool id).map fun p => ({ f with pool := p }, none)
        | some (f, false) => some (f, some id)
      else some ({ f with pool := p }, some id)

/-! ## `tuxio` -/

/-- The body of the loop of `tuxio` for some bytes of a block; an error gives no bytes. -/
def tuxioBlock (write : Bool) (f : State blockbits) (block offset some : ℕ) (data : List UInt8) :
    Option (State blockbits × Option (List UInt8)) :=
  let full := write && some == 2 ^ blockbits
  let got :=
    if full then (blockget bucketOf f.pool maxBuffers map block).map fun r =>
      ({ f with pool := r.1 }, Option.some r.2)
    else blockread bucketOf maxBuffers dev map rest f block
  match got with
  | none => none
  | .some (f, none) => Option.some (f, none)
  | .some (f, .some id) =>
      let content := (f.pool.buf id).data
      if write then
        (blockput (setData (markBufferDirty f.pool id) id (copyIn content offset data)) id).map
          fun p => ({ f with pool := p }, Option.some [])
      else (blockput f.pool id).map fun p =>
        ({ f with pool := p }, Option.some (copyOut content offset some))

/-- The loop of `tuxio`: with so many bytes at most, the position, the bytes that are left, those to
write, and those read. -/
def tuxioLoop (write : Bool) : ℕ → State blockbits → ℕ → ℕ → List UInt8 → List UInt8 →
    Option (Outcome blockbits)
  | 0, f, pos, _, _, done => some ⟨{ f with pos := pos }, done, false⟩
  | left + 1, f, pos, tail, data, done =>
      if tail = 0 then some ⟨{ f with pos := pos }, done, false⟩
      else
        let offset := pos % 2 ^ blockbits
        let some := if 2 ^ blockbits < offset + tail then 2 ^ blockbits - offset else tail
        match tuxioBlock bucketOf maxBuffers dev map rest write f (pos / 2 ^ blockbits) offset some
            (data.take some) with
        | none => none
        | .some (f, none) => Option.some ⟨{ f with pos := pos }, done, true⟩
        | .some (f, .some moved) =>
            tuxioLoop write left f (pos + some) (tail - some) (data.drop some) (done ++ moved)

/-- `tuxio`, of so many bytes. -/
def tuxio (write : Bool) (f : State blockbits) (data : List UInt8) (len : ℕ) :
    Option (Outcome blockbits) :=
  if write = true ∧ MAX_FILESIZE < f.pos + len then some ⟨f, [], true⟩
  else if write = false ∧ f.isize < f.pos + len ∧ f.isize ≤ f.pos then some ⟨f, [], false⟩
  else
    let len := if write = false ∧ f.isize < f.pos + len then f.isize - f.pos else len
    (tuxioLoop bucketOf maxBuffers dev map rest write len f f.pos len data []).map fun r =>
      if write = true ∧ r.file.isize < r.file.pos then
        { r with file := { r.file with isize := r.file.pos } }
      else r

/-! ## `tuxtruncate` -/

/-- `truncate_partial_block`; its error is not looked at. -/
def truncatePartialBlock (f : State blockbits) (size : ℕ) : Option (State blockbits) :=
  let offset := size % 2 ^ blockbits
  if offset = 0 then some f
  else
    match blockread bucketOf maxBuffers dev map rest f (size / 2 ^ blockbits) with
    | none => none
    | some (f, none) => some f
    | some (f, some id) =>
        let content := clearFrom (f.pool.buf id).data offset
        (blockput (changeBuffer f.pool id content) id).map fun p => { f with pool := p }

/-- `tuxtruncate`. The loops of `tree_chop` take at most so many rounds. -/
def tuxtruncate (f : State blockbits) (size rounds : ℕ) : Option (Outcome blockbits) :=
  let index := (size + (2 ^ blockbits - 1)) / 2 ^ blockbits
  if size = f.isize then some ⟨f, [], false⟩
  else
    let isExpand := decide (f.isize < size)
    let f := { f with isize := size }
    if isExpand then some ⟨f, [], false⟩
    else
      match truncatePartialBlock bucketOf maxBuffers dev map rest f size with
      | none => none
      | some f =>
          let rest := rest f.events.length
          (treeChop (2 ^ blockbits) (calcEntriesPerNode (2 ^ blockbits)) index rounds f.tree).map
            fun s =>
              ⟨{ f with
                pool := rest.walked f.pool
                tree := s.tree
                events := f.events ++ [.chop f.pool f.tree index rest] }, [], false⟩

/-! ## `flush_buffers` -/

/-- `flush_list` on the dirty list of the file, in at most so many rounds. The states are asserted. -/
def flushList : ℕ → State blockbits → Option (Outcome blockbits)
  | 0, f => if f.pool.dirty map = [] then some ⟨f, [], false⟩ else none
  | rounds + 1, f =>
      match f.pool.dirty map with
      | [] => some ⟨f, [], false⟩
      | id :: _ =>
          if (f.pool.buf id).state ≠ .dirty then none
          else
            match filemapIo bucketOf maxBuffers dev rest f true id with
            | none => none
            | some (f, true) => some ⟨f, [], true⟩
            | some (f, false) =>
                if (f.pool.buf id).state ≠ .clean then none else flushList rounds f

end

/-! ## Runs -/

/-- The calls on a file. -/
inductive Op where
  | seek (pos : ℕ)
  | read (len : ℕ)
  | write (data : List UInt8)
  | truncate (size rounds : ℕ)
  | flush (rounds : ℕ)

/-- A call with a size within the largest file; `tuxio` checks its own. -/
def Op.Within : Op → Prop
  | .truncate size _ => size ≤ MAX_FILESIZE
  | _ => True

/-- What a file is: bytes, of which those from the size on are zero, and a position. -/
structure Bytes where
  byte : ℕ → UInt8
  size : ℕ
  pos : ℕ

/-- The bytes with others from a position on. -/
def overwrite (byte : ℕ → UInt8) (pos : ℕ) (data : List UInt8) : ℕ → UInt8 :=
  fun i => if pos ≤ i then data.getD (i - pos) (byte i) else byte i

namespace Bytes

/-- How many bytes a read gives. -/
def count (r : Bytes) (len : ℕ) : ℕ := min len (r.size - r.pos)

def after (r : Bytes) : Op → Bytes
  | .seek pos => { r with pos := pos }
  | .read len => { r with pos := r.pos + r.count len }
  | .write data =>
      ⟨overwrite r.byte r.pos data, max r.size (r.pos + data.length), r.pos + data.length⟩
  | .truncate size _ => { r with byte := fun i => if i < size then r.byte i else 0, size := size }
  | .flush _ => r

def output (r : Bytes) : Op → List UInt8
  | .read len => (List.range' r.pos (r.count len)).map r.byte
  | _ => []

end Bytes

section
variable (bucketOf : ℕ → Option ℕ) (maxBuffers dev map : ℕ) (rest : ℕ → Rest blockbits)

def step (f : State blockbits) : Op → Option (Outcome blockbits)
  | .seek pos => some ⟨{ f with pos := pos }, [], false⟩
  | .read len => tuxio bucketOf maxBuffers dev map rest false f [] len
  | .write data => tuxio bucketOf maxBuffers dev map rest true f data data.length
  | .truncate size rounds => tuxtruncate bucketOf maxBuffers dev map rest f size rounds
  | .flush rounds => flushList bucketOf maxBuffers dev map rest rounds f

/-- The runs of calls without an error from an empty file on, with the bytes that it has. -/
inductive Run : State blockbits → Bytes → Prop where
  | create {p : Pool (Block blockbits)} {t : Dtree} (hlinked : Linked bucketOf p)
      (hnone : ∀ id, p.Hashed id → (p.buf id).map ≠ map) (hroot : t.hasRoot = false) :
      Run ⟨p, t, 0, 0, []⟩ ⟨fun _ => 0, 0, 0⟩
  | step {f f' : State blockbits} {r : Bytes} {bytes : List UInt8} (op : Op) (h : Run f r)
      (hwithin : op.Within)
      (hstep : step bucketOf maxBuffers dev map rest f op = some ⟨f', bytes, false⟩) :
      Run f' (r.after op)

/-- What the rest of the system does: no transfer fails, the walk through the btree evicts clean
buffers that nobody holds, and the allocator hands out blocks that are not in use. -/
def Event.Honest : Event blockbits → Prop
  | .io write pool _ tree _ rest mapped err =>
      err = false ∧ Walked bucketOf map pool (rest.walked pool) ∧ rest.supply.root.Nodup ∧
        (write = true →
          Handed (rooted (2 ^ blockbits) rest.supply tree) mapped.allocated rest.supply.leaves)
  | .chop pool _ _ rest => Walked bucketOf map pool (rest.walked pool)

/-- A transfer finds the extents of its region, reaches its block, and stays below `2 ^ 31`. A chop
finds the extents at its key, and no cached block from the key on has bytes that are not zero. -/
def Event.Fine : Event blockbits → Prop
  | .io write pool last tree buffer _ _ _ =>
      ∀ start count, guessRegion bucketOf pool map last (pool.buf buffer).index write =
          some (start, count) →
        Seen tree start ∧ Reached tree start count 10 (pool.buf buffer).index ∧
          FitsInt tree start count
  | .chop pool tree key _ =>
      Seen tree key ∧ ∀ k id, key ≤ k → IsBuffer pool map k id → (pool.buf id).state ≠ .empty →
        (pool.buf id).data = fun _ => 0

end

end

end Tux3.File
