import Tux3.BufferCoherence
import Tux3.Lib.HashChains
import Tux3.Lib.Links

/-!
# The lists of the block cache

The functions of `buffer.c` over the links of `list.h`: each buffer has a node in the list of its
state, one in `lru_buffers` and one in a hash chain. The loops over lists have fuel, and there is no
result when it runs out.
-/
namespace Tux3.Buffer

/-- `buffers[state]`, the dirty list of a map, and the `link` of a buffer. -/
inductive LinkNode where
  | freed
  | empty
  | clean
  | dirty (map : ℕ)
  | buffer (id : ℕ)
  deriving DecidableEq, Repr

/-- `lru_buffers`, and the `lru` of a buffer. -/
inductive LruNode where
  | head
  | buffer (id : ℕ)
  deriving DecidableEq, Repr

/-- The buffers with their links, the hash tables of the maps, and the rest as in `Pool`. -/
structure Memory (Data : Type) where
  buf : ℕ → BufferHead Data
  next : ℕ
  link : Links.Heap LinkNode
  lru : Links.Heap LruNode
  hash : HashChains.Table (ℕ × ℕ) ℕ
  bufferCount : ℕ
  dev : ℕ → ℕ → Data

/-- The list of a state: `buffers + state`, or `&buffer->map->dirty`. -/
def listOf (map : ℕ) : BufferState → LinkNode
  | .freed => .freed
  | .empty => .empty
  | .clean => .clean
  | .dirty => .dirty map

namespace Memory
variable {Data : Type} (bucketOf : ℕ → Option ℕ) (c : Memory Data)

def setBufferStateList (id : ℕ) (state : BufferState) (list : LinkNode) : Memory Data :=
  { c with
    link := c.link.listMoveTail (.buffer id) list
    buf := Function.update c.buf id { c.buf id with state := state } }

/-- `set_buffer_state` and `set_buffer_dirty`. -/
def setBufferState (id : ℕ) (state : BufferState) : Memory Data :=
  c.setBufferStateList id state (listOf (c.buf id).map state)

def insertBufferHash (id bucket : ℕ) : Memory Data :=
  { c with
    hash := c.hash.addHead id ((c.buf id).map, bucket)
    lru := c.lru.listAddTail (.buffer id) .head }

def removeBufferHash (id : ℕ) : Memory Data :=
  { c with
    lru := c.lru.listDelInit (.buffer id)
    hash := c.hash.delInit id }

def evictBuffer (id : ℕ) : Memory Data :=
  let c := (c.removeBufferHash id).setBufferState id .freed
  { c with bufferCount := c.bufferCount - 1 }

/-- `list_for_each_entry_safe` over the LRU list, from a node on: `safe` is read before the
buffer goes to the list of free ones. -/
def evictVictims : ℕ → LruNode → ℕ → Memory Data → Option (Memory Data)
  | 0, _, _, _ => none
  | _ + 1, .head, _, c => some c
  | fuel + 1, .buffer victim, left, c =>
      let safe := c.lru.next (.buffer victim)
      if (c.buf victim).count = 0 ∧ (c.buf victim).state = .clean then
        if left = 1 then some (c.evictBuffer victim)
        else evictVictims fuel safe (left - 1) (c.evictBuffer victim)
      else evictVictims fuel safe left c

/-- `new_buffer` from the label `have_buffer` on. -/
def haveBuffer (id map : ℕ) : Memory Data :=
  let c := c.setBufferState id .empty
  let buffer := c.buf id
  { c with
    buf := Function.update c.buf id { buffer with map := map, count := buffer.count + 1 }
    bufferCount := c.bufferCount + 1 }

/-- A buffer from `malloc`, linked to itself. -/
def expand : Memory Data :=
  let id := c.next
  { c with
    buf := Function.update c.buf id
      { c.buf id with map := 0, index := 0, count := 0, state := .freed }
    next := id + 1
    link := c.link.init (.buffer id)
    lru := c.lru.init (.buffer id)
    hash := c.hash.initNode id }

/-- The evictions of `new_buffer`. -/
def makeRoom (maxBuffers : ℕ) : Option (Memory Data) :=
  if c.link.next .freed = .freed ∧ maxBuffers ≤ c.bufferCount then
    evictVictims (c.next + 1) (c.lru.next .head) maxEvict c
  else some c

/-- `new_buffer`; `none` is `-ERANGE`. -/
def newBuffer (maxBuffers map : ℕ) : Option (Memory Data × ℕ) := do
  let maxBuffers := max maxBuffers 100
  let c ← c.makeRoom maxBuffers
  match c.link.next .freed with
  | .buffer id => some (c.haveBuffer id map, id)
  | _ =>
      if c.bufferCount = maxBuffers then none
      else some (c.expand.haveBuffer c.next map, c.next)

def blockget (maxBuffers map block : ℕ) : Option (Memory Data × ℕ) := do
  let bucket ← bucketOf block
  match ← c.hash.find (fun id => (c.buf id).index = block) (c.next + 1) (.inl (map, bucket)) with
  | some id =>
      return ({ c with
        lru := c.lru.listMoveTail (.buffer id) .head
        buf := Function.update c.buf id { c.buf id with count := (c.buf id).count + 1 } }, id)
  | none =>
      let (c, id) ← c.newBuffer maxBuffers map
      let c := { c with buf := Function.update c.buf id { c.buf id with index := block } }
      return (c.insertBufferHash id bucket, id)

variable (devOf : ℕ → ℕ)

/-- `dev_blockio` without an error. -/
def devBlockio (id : ℕ) (write : Bool) : Memory Data :=
  let buffer := c.buf id
  let d := devOf buffer.map
  let c := if write then
      { c with dev := Function.update c.dev d (Function.update (c.dev d) buffer.index buffer.data) }
    else
      { c with buf := Function.update c.buf id { buffer with data := c.dev d buffer.index } }
  c.setBufferState id .clean

def blockread (maxBuffers map block : ℕ) : Option (Memory Data × ℕ) := do
  let (c, id) ← c.blockget bucketOf maxBuffers map block
  if (c.buf id).state = .empty then return (c.devBlockio devOf id false, id) else return (c, id)

/-- `blockput`; the count is asserted. -/
def blockput (id : ℕ) : Option (Memory Data) :=
  let buffer := c.buf id
  if buffer.count = 0 then none
  else some { c with buf := Function.update c.buf id { buffer with count := buffer.count - 1 } }

def markBufferDirty (id : ℕ) : Memory Data :=
  if (c.buf id).state = .dirty then c else c.setBufferState id .dirty

/-- A change of the data of a held buffer with `mark_buffer_dirty`. -/
def changeBuffer (id : ℕ) (data : Data) : Memory Data :=
  markBufferDirty { c with buf := Function.update c.buf id { c.buf id with data := data } } id

/-- The loop of `flush_list` over the dirty list of a map. -/
def flushList (map : ℕ) : ℕ → Memory Data → Option (Memory Data)
  | 0, _ => none
  | fuel + 1, c =>
      match c.link.next (.dirty map) with
      | .buffer id => flushList map fuel (c.devBlockio devOf id true)
      | _ => some c

def flushBuffers (map : ℕ) : Option (Memory Data) := flushList devOf map (c.next + 1) c

end Memory

end Tux3.Buffer
