import Tux3.Basic
import Mathlib.Logic.Function.Basic

/-!
# The block cache

Buffers, lists and device transfers of `buffer.c` for maps that use `dev_blockio`. A buffer is its
number in the order of allocation; all blocks have one size. The lists of empty and of clean buffers
are read by no operation here.
-/
namespace Tux3.Buffer

inductive BufferState where
  | freed
  | empty
  | clean
  | dirty
  deriving DecidableEq, Repr

/-- `struct buffer_head`. -/
structure BufferHead (Data : Type) where
  map : ℕ
  index : ℕ
  count : ℕ
  state : BufferState
  data : Data

/-- The buffers with `buffers[BUFFER_FREED]`, the dirty list and hash table of each map,
`lru_buffers`, `buffer_count`, and the blocks of each device. -/
structure Pool (Data : Type) where
  buf : ℕ → BufferHead Data
  next : ℕ
  freed : List ℕ
  dirty : ℕ → List ℕ
  hash : ℕ → ℕ → List ℕ
  lru : List ℕ
  bufferCount : ℕ
  dev : ℕ → ℕ → Data

def bufferBuckets : ℕ := 999

def maxEvict : ℕ := 1000

/-- `buffer_hash`: a signed product of 64 bits, returned as `unsigned`. -/
def bufferHash (block : ℕ) : ℕ :=
  let x := BitVec.ofNat 64 block
  ((((x.sshiftRight 32) ^^^ x) * 978317583#64).srem 999#64).toNat % 2 ^ 32

/-- The bucket of a block, when its hash is inside of the table. -/
def hashBucket (block : ℕ) : Option ℕ :=
  if bufferHash block < bufferBuckets then some (bufferHash block) else none

section
variable {Data : Type} (bucketOf : ℕ → Option ℕ) (p : Pool Data)

/-- `set_buffer_state_list`, to the list of the state. -/
def setBufferState (id : ℕ) (state : BufferState) : Pool Data :=
  { p with
    buf := Function.update p.buf id { p.buf id with state := state }
    freed := if state = .freed then p.freed.erase id ++ [id] else p.freed.erase id
    dirty := fun m => if state = .dirty ∧ m = (p.buf id).map then (p.dirty m).erase id ++ [id]
      else (p.dirty m).erase id }

/-- `insert_buffer_hash`; the bucket of a block is a parameter, `hashBucket` in the code. -/
def insertBufferHash (id : ℕ) : Pool Data :=
  let bucket := bucketOf (p.buf id).index
  { p with
    hash := fun m b => if m = (p.buf id).map ∧ bucket = some b then id :: p.hash m b else p.hash m b
    lru := p.lru ++ [id] }

def removeBufferHash (id : ℕ) : Pool Data :=
  { p with
    hash := fun m b => (p.hash m b).erase id
    lru := p.lru.erase id }

def evictBuffer (id : ℕ) : Pool Data :=
  let p := setBufferState (removeBufferHash p id) id .freed
  { p with bufferCount := p.bufferCount - 1 }

/-- The loop of `new_buffer` over the LRU list. -/
def evictVictims : List ℕ → ℕ → Pool Data → Pool Data
  | [], _, p => p
  | victim :: rest, left, p =>
      if (p.buf victim).count = 0 ∧ (p.buf victim).state = .clean then
        if left = 1 then evictBuffer p victim
        else evictVictims rest (left - 1) (evictBuffer p victim)
      else evictVictims rest left p

/-- `new_buffer` from the label `have_buffer` on. -/
def haveBuffer (id map : ℕ) : Pool Data :=
  let p := setBufferState p id .empty
  let buffer := p.buf id
  { p with
    buf := Function.update p.buf id { buffer with map := map, count := buffer.count + 1 }
    bufferCount := p.bufferCount + 1 }

/-- `new_buffer`; `none` is `-ERANGE`. -/
def newBuffer (maxBuffers map : ℕ) : Option (Pool Data × ℕ) :=
  let maxBuffers := max maxBuffers 100
  let p := if p.freed = [] ∧ maxBuffers ≤ p.bufferCount then evictVictims p.lru maxEvict p else p
  match p.freed with
  | id :: _ => some (haveBuffer p id map, id)
  | [] =>
      if p.bufferCount = maxBuffers then none
      else
        let id := p.next
        let buffer := { p.buf id with map := 0, index := 0, count := 0, state := .freed }
        some (haveBuffer { p with buf := Function.update p.buf id buffer, next := p.next + 1 } id map,
          id)

/-- `blockget`; there is no result when the hash is outside of the table. -/
def blockget (maxBuffers map block : ℕ) : Option (Pool Data × ℕ) :=
  match bucketOf block with
  | none => none
  | some bucket =>
    match (p.hash map bucket).find? fun id => (p.buf id).index = block with
    | some id =>
        some ({ p with
          lru := p.lru.erase id ++ [id]
          buf := Function.update p.buf id { p.buf id with count := (p.buf id).count + 1 } }, id)
    | none =>
        match newBuffer p maxBuffers map with
        | none => none
        | some (p, id) =>
            let p := { p with buf := Function.update p.buf id { p.buf id with index := block } }
            some (insertBufferHash bucketOf p id, id)

variable (devOf : ℕ → ℕ)

/-- `dev_blockio` without an error. -/
def devBlockio (id : ℕ) (write : Bool) : Pool Data :=
  let buffer := p.buf id
  let d := devOf buffer.map
  let p := if write then
      { p with dev := Function.update p.dev d (Function.update (p.dev d) buffer.index buffer.data) }
    else
      { p with buf := Function.update p.buf id { buffer with data := p.dev d buffer.index } }
  setBufferState p id .clean

def blockread (maxBuffers map block : ℕ) : Option (Pool Data × ℕ) :=
  match blockget bucketOf p maxBuffers map block with
  | none => none
  | some (p, id) =>
      if (p.buf id).state = .empty then some (devBlockio p devOf id false, id) else some (p, id)

/-- `blockput`; the count is asserted. -/
def blockput (id : ℕ) : Option (Pool Data) :=
  let buffer := p.buf id
  if buffer.count = 0 then none
  else some { p with buf := Function.update p.buf id { buffer with count := buffer.count - 1 } }

def markBufferDirty (id : ℕ) : Pool Data :=
  if (p.buf id).state = .dirty then p else setBufferState p id .dirty

/-- A change of the data of a held buffer with `mark_buffer_dirty`. -/
def changeBuffer (id : ℕ) (data : Data) : Pool Data :=
  markBufferDirty { p with buf := Function.update p.buf id { p.buf id with data := data } } id

/-- The loop of `flush_list` over the dirty list of a map. -/
def flushList (map : ℕ) : ℕ → Pool Data → Pool Data
  | 0, p => p
  | fuel + 1, p =>
      match p.dirty map with
      | [] => p
      | id :: _ => flushList map fuel (devBlockio p devOf id true)

/-- `flush_buffers`: each round takes one buffer off the list. -/
def flushBuffers (map : ℕ) : Pool Data := flushList devOf map (p.dirty map).length p

end

end Tux3.Buffer
