import Tux3.BufferLinks
import Mathlib.Data.List.Perm.Subperm

/-!
# The links refine the lists

Every function over the links does to the lists that they hold what the function over lists does, and
the fuel of its loops suffices. So the cache over links is coherent too.
-/
namespace Tux3.Buffer

open Links HashChains

section
variable {Data : Type}

/-- The nodes that are heads of lists. -/
def LinkNode.IsHead : LinkNode → Prop
  | .buffer _ => False
  | _ => True

/-- What the lists of buffers hold; the lists of empty and of clean buffers are only in memory. -/
def linkItems (p : Pool Data) (empty clean : List ℕ) : LinkNode → List LinkNode
  | .freed => p.freed.map .buffer
  | .empty => empty.map .buffer
  | .clean => clean.map .buffer
  | .dirty map => (p.dirty map).map .buffer
  | .buffer _ => []

/-- The LRU list, and the buffers that are linked to themselves. -/
def LruHead (p : Pool Data) : LruNode → Prop
  | .head => True
  | .buffer id => id < p.next ∧ id ∉ p.lru

def lruItems (p : Pool Data) : LruNode → List LruNode
  | .head => p.lru.map .buffer
  | .buffer _ => []

/-- The links hold the lists of the pool. -/
structure Represents (c : Memory Data) (p : Pool Data) (empty clean : List ℕ) : Prop where
  buf : c.buf = p.buf
  next : c.next = p.next
  bufferCount : c.bufferCount = p.bufferCount
  dev : c.dev = p.dev
  link : Rings c.link LinkNode.IsHead (linkItems p empty clean)
  member : ∀ id < p.next,
    .buffer id ∈ linkItems p empty clean (listOf (p.buf id).map (p.buf id).state)
  below : ∀ head id, .buffer id ∈ linkItems p empty clean head → id < p.next
  lru : Rings c.lru (LruHead p) (lruItems p)
  lruBelow : ∀ id ∈ p.lru, id < p.next
  hash : Chains c.hash fun b => p.hash b.1 b.2
  hashed : ∀ id, id ∈ p.lru ↔ ∃ m b, id ∈ p.hash m b

variable {c : Memory Data} {p : Pool Data} {empty clean : List ℕ} {id : ℕ}

theorem listOf_isHead (map : ℕ) (state : BufferState) : (listOf map state).IsHead := by
  cases state <;> trivial

theorem map_erase_buffer (l : List ℕ) (id : ℕ) :
    (l.map LinkNode.buffer).erase (.buffer id) = (l.erase id).map .buffer :=
  (List.map_erase (fun _ _ h => LinkNode.buffer.inj h) l).symm

theorem lru_erase_buffer (l : List ℕ) (id : ℕ) :
    (l.map LruNode.buffer).erase (.buffer id) = (l.erase id).map .buffer :=
  (List.map_erase (fun _ _ h => LruNode.buffer.inj h) l).symm

theorem Represents.setBuf (h : Represents c p empty clean) {buf : ℕ → BufferHead Data}
    (hsame : ∀ x, listOf (buf x).map (buf x).state = listOf (p.buf x).map (p.buf x).state) :
    Represents { c with buf := buf } { p with buf := buf } empty clean where
  buf := rfl
  next := h.next
  bufferCount := h.bufferCount
  dev := h.dev
  link := h.link
  member := by
    intro x hx
    change _ ∈ linkItems p empty clean (listOf (buf x).map (buf x).state)
    rw [hsame]
    exact h.member x hx
  below := h.below
  lru := h.lru
  lruBelow := h.lruBelow
  hash := h.hash
  hashed := h.hashed

/-- The list of empty buffers, or of clean ones, after a change of state. -/
def moved (l : List ℕ) (id : ℕ) (here : Prop) [Decidable here] : List ℕ :=
  if here then l.erase id ++ [id] else l.erase id

theorem linkItems_move (state : BufferState) (head : LinkNode) (hhead : head.IsHead) :
    linkItems (setBufferState p id state) (moved empty id (state = .empty))
        (moved clean id (state = .clean)) head =
      if head = listOf (p.buf id).map state
        then (linkItems p empty clean head).erase (.buffer id) ++ [.buffer id]
        else (linkItems p empty clean head).erase (.buffer id) := by
  cases head with
  | buffer x => cases hhead
  | freed => cases state <;> simp [linkItems, setBufferState, listOf, map_erase_buffer]
  | empty => cases state <;> simp [linkItems, moved, listOf, map_erase_buffer]
  | clean => cases state <;> simp [linkItems, moved, listOf, map_erase_buffer]
  | dirty m =>
      cases state <;> simp [linkItems, setBufferState, listOf, map_erase_buffer]
      by_cases hm : m = (p.buf id).map <;> simp [hm]

/-- `set_buffer_state`, from the lists and the links that the node leaves. -/
theorem Represents.move (h : Represents c p empty clean) (hid : id < p.next) (state : BufferState) :
    Represents (c.setBufferState id state) (setBufferState p id state)
      (moved empty id (state = .empty)) (moved clean id (state = .clean)) := by
  have hitems := @linkItems_move Data p empty clean id state
  have hmem := h.member id hid
  have hlink : Rings (c.setBufferState id state).link LinkNode.IsHead
      (linkItems (setBufferState p id state) (moved empty id (state = .empty))
        (moved clean id (state = .clean))) := by
    have hmove := h.link.listMoveTail (listOf_isHead (p.buf id).map state)
      (listOf_isHead _ _) hmem
    simp only [Memory.setBufferState, Memory.setBufferStateList, h.buf]
    exact hmove.congr (fun _ => Iff.rfl) hitems
  refine
    { buf := ?_, next := h.next, bufferCount := h.bufferCount, dev := h.dev, link := hlink
      member := ?_, below := ?_, lru := h.lru, lruBelow := h.lruBelow, hash := h.hash
      hashed := h.hashed }
  · simp [Memory.setBufferState, Memory.setBufferStateList, setBufferState, h.buf]
  · intro x hx
    rw [hitems _ (listOf_isHead _ _)]
    by_cases hxi : x = id
    · subst hxi
      simp [setBufferState]
    · have hold := h.member x hx
      have hbuf : (setBufferState p id state).buf x = p.buf x := Function.update_of_ne hxi _ _
      have hne : LinkNode.buffer x ≠ .buffer id := fun heq => hxi (LinkNode.buffer.inj heq)
      rw [hbuf]
      split
      · exact List.mem_append_left _ ((List.mem_erase_of_ne hne).mpr hold)
      · exact (List.mem_erase_of_ne hne).mpr hold
  · intro head x hx
    by_cases hhead : head.IsHead
    · rw [hitems head hhead] at hx
      split at hx
      · rcases List.mem_append.mp hx with hx | hx
        · exact h.below head x (List.mem_of_mem_erase hx)
        · rw [List.mem_singleton] at hx
          exact (LinkNode.buffer.inj hx) ▸ hid
      · exact h.below head x (List.mem_of_mem_erase hx)
    · cases head with
      | buffer y => cases hx
      | _ => exact absurd trivial hhead

theorem Represents.lru_nodup (h : Represents c p empty clean) : p.lru.Nodup :=
  (List.nodup_cons.mp (h.lru.holds .head trivial).nodup).2.of_map _

/-- `remove_buffer_hash`. -/
theorem Represents.unhash (h : Represents c p empty clean) (hlru : id ∈ p.lru) :
    Represents (c.removeBufferHash id) (removeBufferHash p id) empty clean := by
  have hmem : LruNode.buffer id ∈ lruItems p .head := List.mem_map_of_mem hlru
  have herase : ∀ x, x ∈ p.lru.erase id ↔ x ≠ id ∧ x ∈ p.lru :=
    fun x => h.lru_nodup.mem_erase_iff
  obtain ⟨m, b, hhash⟩ := (h.hashed id).mp hlru
  refine
    { buf := h.buf, next := h.next, bufferCount := h.bufferCount, dev := h.dev, link := h.link
      member := h.member, below := h.below, lru := ?_, lruBelow := ?_, hash := ?_
      hashed := ?_ }
  · apply (h.lru.listDelInit (a := LruNode.head) trivial hmem).congr
    · intro n
      cases n with
      | head => simp [LruHead]
      | buffer x =>
          have hlt := h.lruBelow id hlru
          change x < p.next ∧ x ∉ p.lru.erase id ↔ (x < p.next ∧ x ∉ p.lru) ∨ _ = _
          rw [herase, LruNode.buffer.injEq]
          by_cases hx : x = id
          · simp [hx, hlt]
          · simp [hx]
    · intro n _
      cases n with
      | head =>
          rw [Function.update_of_ne (by simp)]
          exact (lru_erase_buffer _ _).symm
      | buffer x =>
          by_cases hx : x = id
          · subst hx
            simp [lruItems]
          · simp [lruItems, hx]
  · intro x hx
    exact h.lruBelow x (List.mem_of_mem_erase hx)
  · exact h.hash.delInit (b := (m, b)) hhash
  · intro x
    have hchain : ∀ m b, x ∈ (p.hash m b).erase id ↔ x ≠ id ∧ x ∈ p.hash m b :=
      fun m b => (h.hash.nodup (m, b)).mem_erase_iff
    change x ∈ p.lru.erase id ↔ ∃ m b, x ∈ (p.hash m b).erase id
    simp [herase, hchain, h.hashed]

/-- `insert_buffer_hash`. -/
theorem Represents.hashIn (h : Represents c p empty clean) (hid : id < p.next) (hlru : id ∉ p.lru)
    {bucketOf : ℕ → Option ℕ} {b : ℕ} (hb : bucketOf (p.buf id).index = some b) :
    Represents (c.insertBufferHash id b) (insertBufferHash bucketOf p id) empty clean := by
  have hhash : ∀ m b, id ∉ p.hash m b := fun m b hmem => hlru ((h.hashed id).mpr ⟨m, b, hmem⟩)
  have hitems : (fun x : ℕ × ℕ => (insertBufferHash bucketOf p id).hash x.1 x.2) =
      Function.update (fun x : ℕ × ℕ => p.hash x.1 x.2) ((p.buf id).map, b)
        (id :: p.hash (p.buf id).map b) := by
    funext x
    by_cases hx : x = ((p.buf id).map, b)
    · subst hx
      simp [insertBufferHash, hb]
    · rw [Function.update_of_ne hx]
      have hno : ¬ (x.1 = (p.buf id).map ∧ b = x.2) := by
        rintro ⟨h1, h2⟩
        exact hx (Prod.ext h1 h2.symm)
      simp [insertBufferHash, hb, hno]
  refine
    { buf := h.buf, next := h.next, bufferCount := h.bufferCount, dev := h.dev, link := h.link
      member := h.member, below := h.below, lru := ?_, lruBelow := ?_, hash := ?_
      hashed := ?_ }
  · apply (h.lru.listAddTail (a := LruNode.head) (x := .buffer id) trivial ⟨hid, hlru⟩
      (by simp)).congr
    · intro n
      cases n with
      | head => simp [LruHead]
      | buffer x =>
          change x < p.next ∧ x ∉ p.lru ++ [id] ↔ (x < p.next ∧ x ∉ p.lru) ∧ _ ≠ _
          simp [and_assoc]
    · intro n _
      cases n with
      | head => simp [lruItems, insertBufferHash]
      | buffer x => simp [lruItems]
  · intro x hx
    rcases List.mem_append.mp hx with hx | hx
    · exact h.lruBelow x hx
    · exact List.mem_singleton.mp hx ▸ hid
  · have hadd := h.hash.addHead ((p.buf id).map, b) (fun c => hhash c.1 c.2)
    simp only [Memory.insertBufferHash, h.buf]
    rw [hitems]
    exact hadd
  · intro x
    have hchain : ∀ m b', x ∈ (insertBufferHash bucketOf p id).hash m b' ↔
        x ∈ p.hash m b' ∨ x = id ∧ m = (p.buf id).map ∧ b' = b := by
      intro m b'
      rw [congrFun hitems (m, b')]
      by_cases hm : (m, b') = ((p.buf id).map, b)
      · rw [hm, Function.update_self]
        obtain ⟨rfl, rfl⟩ := Prod.mk.inj hm
        simp [or_comm]
      · rw [Function.update_of_ne hm]
        simp at hm
        simp
        tauto
    change x ∈ p.lru ++ [id] ↔ _
    simp only [List.mem_append, List.mem_singleton, h.hashed, hchain]
    constructor
    · rintro (⟨m, b, hx⟩ | hx)
      · exact ⟨m, b, .inl hx⟩
      · exact ⟨_, _, .inr ⟨hx, rfl, rfl⟩⟩
    · rintro ⟨m, b, hx | hx⟩
      · exact .inl ⟨m, b, hx⟩
      · exact .inr hx.1

/-- A buffer from `malloc`. -/
def expand (p : Pool Data) : Pool Data :=
  { p with
    buf := Function.update p.buf p.next
      { p.buf p.next with map := 0, index := 0, count := 0, state := .freed }
    next := p.next + 1 }

/-- A buffer from `malloc` goes from its own link to the list of empty ones. -/
theorem Represents.expand (h : Represents c p empty clean) :
    Represents (c.expand.setBufferState p.next .empty) (setBufferState (expand p) p.next .empty)
      (empty ++ [p.next]) clean := by
  have hlink : ∀ head, LinkNode.buffer p.next ∉ linkItems p empty clean head :=
    fun head hmem => Nat.lt_irrefl _ (h.below head p.next hmem)
  have hlru : p.next ∉ p.lru := fun hmem => Nat.lt_irrefl _ (h.lruBelow _ hmem)
  have hhash : ∀ b : ℕ × ℕ, p.next ∉ p.hash b.1 b.2 :=
    fun b hmem => hlru ((h.hashed _).mpr ⟨b.1, b.2, hmem⟩)
  have hfreed : p.next ∉ p.freed := by simpa [linkItems] using hlink .freed
  have hdirty : ∀ m, p.next ∉ p.dirty m := fun m => by simpa [linkItems] using hlink (.dirty m)
  have hinit := h.link.init (x := .buffer p.next) (by
    intro a ha hmem
    rcases List.mem_cons.mp hmem with rfl | hmem
    · exact ha
    · exact hlink a hmem)
  have hitems : ∀ head, linkItems (setBufferState (Buffer.expand p) p.next .empty)
      (empty ++ [p.next]) clean head = if head = .empty
        then linkItems p empty clean head ++ [.buffer p.next] else linkItems p empty clean head := by
    intro head
    cases head <;>
      simp [linkItems, setBufferState, Buffer.expand, List.erase_of_not_mem, hfreed, hdirty]
  refine
    { buf := ?_, next := congrArg (· + 1) h.next, bufferCount := h.bufferCount, dev := h.dev
      link := ?_, member := ?_, below := ?_, lru := ?_, lruBelow := ?_, hash := ?_
      hashed := h.hashed }
  · simp [Memory.setBufferState, Memory.setBufferStateList, setBufferState, Memory.expand,
      Buffer.expand, h.buf, h.next]
  · have hadd := hinit.listAddTail (a := LinkNode.empty) (.inl trivial) (.inr rfl) (by simp)
    simp only [Memory.setBufferState, Memory.setBufferStateList, listOf, Memory.expand, h.next,
      Heap.listMoveTail]
    rw [hinit.join_self (.inr rfl) (Function.update_self _ _ _)]
    apply hadd.congr
    · intro a
      cases a <;> simp [LinkNode.IsHead]
    · intro a ha
      rw [hitems]
      have hne : a ≠ .buffer p.next := ha.2
      by_cases ha : a = .empty
      · subst ha
        simp
      · simp [ha, hne]
  · intro x hx
    rw [hitems]
    by_cases hxn : x = p.next
    · subst hxn
      simp [setBufferState, listOf]
    · have hlt : x < p.next := by
        have hle : x < p.next + 1 := hx
        omega
      have hmem := h.member x hlt
      have hbuf : (setBufferState (Buffer.expand p) p.next .empty).buf x = p.buf x := by
        simp [setBufferState, Buffer.expand, hxn]
      rw [hbuf]
      split
      · exact List.mem_append_left _ hmem
      · exact hmem
  · intro head x hx
    rw [hitems] at hx
    change x < p.next + 1
    split at hx
    · rcases List.mem_append.mp hx with hx | hx
      · exact Nat.lt_succ_of_lt (h.below _ _ hx)
      · simp at hx
        simp [hx]
    · exact Nat.lt_succ_of_lt (h.below _ _ hx)
  · have hinit := h.lru.init (x := .buffer p.next) (by
      intro a ha hmem
      cases a with
      | head => simp [lruItems, hlru] at hmem
      | buffer x =>
          have hx := ha.1
          simp [lruItems] at hmem
          omega)
    rw [← h.next] at hinit
    apply hinit.congr
    · intro a
      cases a with
      | head => simp [LruHead]
      | buffer x =>
          change x < p.next + 1 ∧ x ∉ p.lru ↔ (x < p.next ∧ x ∉ p.lru) ∨ _ = _
          rw [h.next, LruNode.buffer.injEq]
          by_cases hx : x = p.next
          · simp [hx, hlru]
          · have hlt : x < p.next + 1 ↔ x < p.next := by omega
            simp only [hlt, hx, or_false]
    · intro a _
      cases a with
      | head => simp [lruItems, setBufferState, Buffer.expand]
      | buffer x =>
          by_cases hx : x = c.next
          · simp [hx, lruItems]
          · simp [hx, lruItems]
  · intro x hx
    exact Nat.lt_succ_of_lt (h.lruBelow x hx)
  · have hchains := h.hash.initNode hhash
    rw [← h.next] at hchains
    exact hchains

/-! ## The operations -/

/-- The links hold the lists of the pool, and some lists of empty and of clean buffers. -/
def Refines (c : Memory Data) (p : Pool Data) : Prop := ∃ empty clean, Represents c p empty clean

variable {state : BufferState} {map block maxBuffers : ℕ} {bucketOf : ℕ → Option ℕ} {devOf : ℕ → ℕ}

theorem Refines.update (h : Refines c p) (id : ℕ) (buffer : BufferHead Data)
    (hsame : listOf buffer.map buffer.state = listOf (p.buf id).map (p.buf id).state) :
    Refines { c with buf := Function.update c.buf id buffer }
      { p with buf := Function.update p.buf id buffer } := by
  obtain ⟨empty, clean, h⟩ := h
  refine ⟨empty, clean, ?_⟩
  rw [h.buf]
  apply h.setBuf
  intro x
  by_cases hx : x = id
  · subst hx
    simpa using hsame
  · simp [hx]

theorem Refines.buf (h : Refines c p) : c.buf = p.buf := by
  obtain ⟨empty, clean, h⟩ := h
  exact h.buf

theorem Refines.setBufferState (h : Refines c p) (hid : id < p.next) (state : BufferState) :
    Refines (c.setBufferState id state) (setBufferState p id state) := by
  obtain ⟨empty, clean, h⟩ := h
  exact ⟨_, _, h.move hid state⟩

theorem Refines.bufferCount (h : Refines c p) (n : ℕ) :
    Refines { c with bufferCount := n } { p with bufferCount := n } := by
  obtain ⟨empty, clean, h⟩ := h
  exact ⟨empty, clean,
    { buf := h.buf, next := h.next, bufferCount := rfl, dev := h.dev, link := h.link
      member := h.member, below := h.below, lru := h.lru, lruBelow := h.lruBelow, hash := h.hash
      hashed := h.hashed }⟩

theorem Refines.evictBuffer (h : Refines c p) (hlru : id ∈ p.lru) :
    Refines (c.evictBuffer id) (evictBuffer p id) := by
  obtain ⟨empty, clean, h⟩ := h
  have hunhash : Refines (c.removeBufferHash id) (removeBufferHash p id) :=
    ⟨empty, clean, h.unhash hlru⟩
  have hcount := (hunhash.setBufferState (h.lruBelow id hlru) .freed).bufferCount
    (c.bufferCount - 1)
  have heq : (Buffer.setBufferState (removeBufferHash p id) id .freed).bufferCount =
      c.bufferCount := h.bufferCount.symm
  simp only [Buffer.evictBuffer, heq]
  exact hcount

/-- The head of a rest of the LRU list. -/
def lruNode (l : List ℕ) : LruNode := (l.map LruNode.buffer).head?.getD .head

/-- The loop of `new_buffer` at the rest of the list. -/
theorem Refines.evictVictims (kept victims : List ℕ) (left : ℕ) (h : Refines c p)
    (hlru : p.lru = kept ++ victims) {fuel : ℕ} (hfuel : victims.length < fuel) :
    ∃ c', Memory.evictVictims fuel (lruNode victims) left c = some c' ∧
      Refines c' (evictVictims victims left p) := by
  induction victims generalizing kept left c p fuel with
  | nil =>
      obtain ⟨fuel, rfl⟩ := Nat.exists_eq_add_one.mpr hfuel
      exact ⟨c, rfl, h⟩
  | cons victim rest ih =>
      obtain ⟨fuel, rfl⟩ := Nat.exists_eq_add_one.mpr (Nat.zero_lt_of_lt hfuel)
      have hfuel : rest.length < fuel := Nat.lt_of_succ_lt_succ hfuel
      have hmem : victim ∈ p.lru := by simp [hlru]
      have hsafe : c.lru.next (.buffer victim) = lruNode rest := by
        obtain ⟨empty, clean, h⟩ := h
        have hpath := (h.lru.holds .head trivial).path
        rw [lruItems, hlru, List.map_append, List.map_cons, path_append] at hpath
        exact hpath.2.next_eq
      have herase : p.lru.erase victim = kept ++ rest := by
        obtain ⟨empty, clean, h⟩ := h
        have hnodup := h.lru_nodup
        rw [hlru] at hnodup ⊢
        exact erase_split hnodup
      have hevict := h.evictBuffer hmem
      change ∃ c', Memory.evictVictims (fuel + 1) (.buffer victim) left c = some c' ∧ _
      simp only [Memory.evictVictims, Buffer.evictVictims, hsafe, h.buf]
      split
      · split
        · exact ⟨_, rfl, hevict⟩
        · exact ih kept (left - 1) hevict herase hfuel
      · exact ih (kept ++ [victim]) left h (by simp [hlru]) hfuel

theorem length_le_of_below {l : List ℕ} {n : ℕ} (hnodup : l.Nodup) (hbelow : ∀ x ∈ l, x < n) :
    l.length ≤ n := by
  have hsub : l ⊆ List.range n := fun x hx => List.mem_range.mpr (hbelow x hx)
  simpa using (List.subperm_of_subset hnodup hsub).length_le

theorem Refines.evictAll (h : Refines c p) :
    ∃ c', Memory.evictVictims (c.next + 1) (c.lru.next .head) maxEvict c = some c' ∧
      Refines c' (Buffer.evictVictims p.lru maxEvict p) := by
  have hhead : c.lru.next .head = lruNode p.lru := by
    obtain ⟨empty, clean, h⟩ := h
    exact (h.lru.holds .head trivial).path.next_eq
  have hlength : p.lru.length < c.next + 1 := by
    obtain ⟨empty, clean, h⟩ := h
    rw [h.next]
    exact Nat.lt_succ_of_le (length_le_of_below h.lru_nodup h.lruBelow)
  rw [hhead]
  exact h.evictVictims [] p.lru maxEvict rfl hlength

theorem Refines.freed_next (h : Refines c p) :
    c.link.next .freed = (p.freed.map LinkNode.buffer).head?.getD .freed := by
  obtain ⟨empty, clean, h⟩ := h
  exact (h.link.holds .freed trivial).path.next_eq

theorem Refines.haveBuffer {c : Memory Data} {p : Pool Data}
    (h : Refines (c.setBufferState id .empty) (Buffer.setBufferState p id .empty)) (map : ℕ) :
    Refines (c.haveBuffer id map) (haveBuffer p id map) := by
  have hupdate := h.update id
    { (Buffer.setBufferState p id .empty).buf id with
      map := map, count := ((Buffer.setBufferState p id .empty).buf id).count + 1 }
    (by simp [Buffer.setBufferState, listOf])
  have hcount := hupdate.bufferCount (p.bufferCount + 1)
  have heq : c.bufferCount = p.bufferCount := by
    obtain ⟨empty, clean, h⟩ := h
    exact h.bufferCount
  simp only [Memory.haveBuffer, h.buf]
  rw [h.buf] at hcount
  have hc : (c.setBufferState id .empty).bufferCount = p.bufferCount := heq
  rw [hc]
  exact hcount

/-- The same buffer, or no result in both. -/
def Same (x : Memory Data × ℕ) (y : Pool Data × ℕ) : Prop := x.2 = y.2 ∧ Refines x.1 y.1

theorem Refines.makeRoom (h : Refines c p) (maxBuffers : ℕ) :
    ∃ c₁, c.makeRoom maxBuffers = some c₁ ∧
      Refines c₁ (if p.freed = [] ∧ maxBuffers ≤ p.bufferCount
        then Buffer.evictVictims p.lru maxEvict p else p) := by
  have hfreed : c.link.next .freed = .freed ↔ p.freed = [] := by
    rw [h.freed_next]
    cases p.freed <;> simp
  have hcount : c.bufferCount = p.bufferCount := by
    obtain ⟨empty, clean, h⟩ := h
    exact h.bufferCount
  simp only [Memory.makeRoom, hfreed, hcount]
  split
  · exact h.evictAll
  · exact ⟨c, rfl, h⟩

theorem Refines.newBuffer (h : Refines c p) (maxBuffers map : ℕ) :
    Option.Rel Same (c.newBuffer maxBuffers map) (newBuffer p maxBuffers map) := by
  obtain ⟨c₁, hc₁, h₁⟩ := h.makeRoom (max maxBuffers 100)
  simp only [Memory.newBuffer, Buffer.newBuffer, hc₁, Option.bind_eq_bind, Option.bind_some]
  generalize (if p.freed = [] ∧ max maxBuffers 100 ≤ p.bufferCount
    then Buffer.evictVictims p.lru maxEvict p else p) = p₁ at h₁
  have hnext := h₁.freed_next
  cases hlist : p₁.freed with
  | cons id rest =>
      rw [hlist] at hnext
      have hid : id < p₁.next := by
        obtain ⟨empty, clean, h₁⟩ := h₁
        exact h₁.below .freed id (by simp [linkItems, hlist])
      simp only [hnext, List.map_cons, List.head?_cons, Option.getD_some]
      exact .some ⟨rfl, (h₁.setBufferState hid .empty).haveBuffer map⟩
  | nil =>
      rw [hlist] at hnext
      have hcount : c₁.bufferCount = p₁.bufferCount ∧ c₁.next = p₁.next := by
        obtain ⟨empty, clean, h₁⟩ := h₁
        exact ⟨h₁.bufferCount, h₁.next⟩
      simp only [hnext, List.map_nil, List.head?_nil, Option.getD_none, hcount]
      split
      · exact .none
      · obtain ⟨empty, clean, h₁⟩ := h₁
        have hexpand := Refines.haveBuffer ⟨_, _, h₁.expand⟩ map
        simp only [Buffer.expand, hlist] at hexpand
        exact .some ⟨rfl, hexpand⟩

end

end Tux3.Buffer
