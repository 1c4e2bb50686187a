import Tux3.BufferRefines

/-!
# Runs over the links

Reads, changes and flushes over the links find the buffers that they find over the lists. So the
cache of linked buffers is coherent, its loops end, and a flush leaves the device with all that was put
in the blocks of the map.
-/
namespace Tux3.Buffer

open Links HashChains

section
variable {Data : Type} {c : Memory Data} {p : Pool Data} {empty clean : List ℕ}
  {bucketOf : ℕ → Option ℕ} {devOf : ℕ → ℕ} {id map block maxBuffers : ℕ}

theorem rel_cases {α β : Type} {r : α → β → Prop} {x : Option α} {y : Option β}
    (h : Option.Rel r x y) : x = none ∧ y = none ∨ ∃ a b, x = some a ∧ y = some b ∧ r a b := by
  cases h with
  | none => exact .inl ⟨rfl, rfl⟩
  | some h => exact .inr ⟨_, _, rfl, rfl, h⟩

/-! ## Reading -/

/-- `list_move_tail` in the LRU list. -/
theorem Represents.moveTail (h : Represents c p empty clean) (hlru : id ∈ p.lru) :
    Represents { c with lru := c.lru.listMoveTail (.buffer id) .head }
      { p with lru := p.lru.erase id ++ [id] } empty clean := by
  have hmem : ∀ x, x ∈ p.lru.erase id ++ [id] ↔ x ∈ p.lru := by
    intro x
    rw [List.mem_append, h.lru_nodup.mem_erase_iff, List.mem_singleton]
    by_cases hx : x = id
    · simp [hx, hlru]
    · simp [hx]
  refine
    { buf := h.buf, next := h.next, bufferCount := h.bufferCount, dev := h.dev, link := h.link
      member := h.member, below := h.below, lru := ?_, lruBelow := ?_, hash := h.hash
      hashed := ?_ }
  · have hnode : LruNode.buffer id ∈ lruItems p .head := List.mem_map_of_mem hlru
    have hmove := h.lru.listMoveTail (a := LruNode.head) (b := LruNode.head) trivial trivial hnode
    apply hmove.congr
    · intro n
      cases n with
      | head => simp [LruHead]
      | buffer x => simp only [LruHead, hmem]
    · intro n _
      cases n with
      | head => simp [lruItems, lru_erase_buffer]
      | buffer x => simp [lruItems]
  · intro x hx
    exact h.lruBelow x ((hmem x).mp hx)
  · intro x
    exact (hmem x).trans (h.hashed x)

theorem Refines.find (h : Refines c p) (map b : ℕ) :
    c.hash.find (fun id => (c.buf id).index = block) (c.next + 1) (.inl (map, b)) =
      some ((p.hash map b).find? fun id => (p.buf id).index = block) := by
  obtain ⟨empty, clean, h⟩ := h
  have hbelow : ∀ id ∈ p.hash map b, id < p.next :=
    fun id hid => h.lruBelow id ((h.hashed id).mpr ⟨map, b, hid⟩)
  have hlength := length_le_of_below (h.hash.nodup (map, b)) hbelow
  rw [h.buf, h.next]
  exact (h.hash.path (map, b)).find _ (Nat.lt_succ_of_le hlength)

theorem Linked.new {q : Pool Data} (h : Linked bucketOf p)
    (hnew : newBuffer p maxBuffers map = some (q, id)) : id < q.next ∧ id ∉ q.lru := by
  obtain ⟨p₁, p₂, -, -, hready, rfl, -⟩ := newBuffer_rule (I := Linked bucketOf) (fun _ hq => hq)
    (fun _ _ hq hclean hcount => evictBuffer_linked hq hclean hcount) h hnew
  exact ⟨hready.lt, fun hmem => not_hashed hready.free ((hready.lru.2 id).mp hmem)⟩

theorem Refines.blockget (h : Refines c p) (hlinked : Linked bucketOf p) (maxBuffers map block : ℕ) :
    Option.Rel Same (c.blockget bucketOf maxBuffers map block)
      (blockget bucketOf p maxBuffers map block) := by
  unfold Memory.blockget Buffer.blockget
  cases hb : bucketOf block with
  | none => exact .none
  | some b =>
      simp only [Option.bind_eq_bind, Option.bind_some, h.find]
      cases hfind : (p.hash map b).find? fun id => (p.buf id).index = block with
      | some id =>
          have hmem := List.mem_of_find?_eq_some hfind
          have hmove : Refines { c with lru := c.lru.listMoveTail (.buffer id) .head }
              { p with lru := p.lru.erase id ++ [id] } := by
            obtain ⟨empty, clean, h⟩ := h
            exact ⟨empty, clean, h.moveTail ((h.hashed id).mpr ⟨map, b, hmem⟩)⟩
          have hupdate := hmove.update id
            { p.buf id with count := (p.buf id).count + 1 } rfl
          rw [h.buf] at hupdate ⊢
          exact .some ⟨rfl, hupdate⟩
      | none =>
          obtain ⟨hc, hp⟩ | ⟨⟨c₁, id⟩, ⟨q, _⟩, hc, hp, rfl, h₁⟩ :=
            rel_cases (h.newBuffer maxBuffers map)
          · simp only [hc, hp]
            exact .none
          · obtain ⟨hid, hlru⟩ := hlinked.new hp
            simp only at hid hlru
            have hupdate := h₁.update id { q.buf id with index := block } rfl
            obtain ⟨empty, clean, hupdate⟩ := hupdate
            have hbucket : bucketOf (Function.update q.buf id
                { q.buf id with index := block } id).index = some b := by simpa using hb
            have hin := hupdate.hashIn hid hlru hbucket
            have hbuf : c₁.buf = q.buf := h₁.buf
            simp only [hc, hp, Option.bind_some, hbuf] at hin ⊢
            exact .some ⟨rfl, empty, clean, hin⟩

theorem Refines.dev (h : Refines c p) (dev : ℕ → ℕ → Data) :
    Refines { c with dev := dev } { p with dev := dev } := by
  obtain ⟨empty, clean, h⟩ := h
  exact ⟨empty, clean,
    { buf := h.buf, next := h.next, bufferCount := h.bufferCount, dev := rfl, link := h.link
      member := h.member, below := h.below, lru := h.lru, lruBelow := h.lruBelow, hash := h.hash
      hashed := h.hashed }⟩

theorem Refines.dev_eq (h : Refines c p) : c.dev = p.dev := by
  obtain ⟨empty, clean, h⟩ := h
  exact h.dev

theorem Refines.devBlockio (h : Refines c p) (devOf : ℕ → ℕ) (hid : id < p.next) (write : Bool) :
    Refines (c.devBlockio devOf id write) (devBlockio p devOf id write) := by
  have hread := h.update id { p.buf id with data := p.dev (devOf (p.buf id).map) (p.buf id).index }
    rfl
  have hwrite := h.dev (Function.update p.dev (devOf (p.buf id).map)
    (Function.update (p.dev (devOf (p.buf id).map)) (p.buf id).index (p.buf id).data))
  simp only [h.buf, h.dev_eq] at hread hwrite
  simp only [Memory.devBlockio, Buffer.devBlockio, h.buf, h.dev_eq]
  cases write with
  | false => exact hread.setBufferState hid .clean
  | true => exact hwrite.setBufferState hid .clean

theorem Linked.lt (h : Linked bucketOf p) (hid : p.Hashed id) : id < p.next := by
  by_contra hge
  exact h.beyond id (Nat.not_lt.mp hge) hid

theorem Refines.blockread (h : Refines c p) (hlinked : Linked bucketOf p) (devOf : ℕ → ℕ)
    (maxBuffers map block : ℕ) :
    Option.Rel Same (c.blockread bucketOf devOf maxBuffers map block)
      (blockread bucketOf p devOf maxBuffers map block) := by
  unfold Memory.blockread Buffer.blockread
  obtain ⟨hc, hp⟩ | ⟨⟨c₁, id⟩, ⟨q, _⟩, hc, hp, rfl, h₁⟩ :=
    rel_cases (h.blockget hlinked maxBuffers map block)
  · simp only [hc, hp]
    exact .none
  · obtain ⟨hq, -, hgot⟩ := hlinked.get hp
    have hbuf : c₁.buf = q.buf := h₁.buf
    simp only [hc, hp, Option.bind_eq_bind, Option.bind_some, hbuf]
    split
    · exact .some ⟨rfl, h₁.devBlockio devOf (hq.lt hgot.hashed) false⟩
    · exact .some ⟨rfl, h₁⟩

/-! ## Changing and flushing -/

theorem Refines.blockput (h : Refines c p) (id : ℕ) :
    Option.Rel Refines (c.blockput id) (blockput p id) := by
  have hupdate := h.update id { p.buf id with count := (p.buf id).count - 1 } rfl
  simp only [Memory.blockput, Buffer.blockput, h.buf] at hupdate ⊢
  split
  · exact .none
  · exact .some hupdate

theorem Refines.changeBuffer (h : Refines c p) (hid : id < p.next) (data : Data) :
    Refines (c.changeBuffer id data) (changeBuffer p id data) := by
  have hupdate := h.update id { p.buf id with data := data } rfl
  simp only [Memory.changeBuffer, Buffer.changeBuffer, Memory.markBufferDirty,
    Buffer.markBufferDirty, h.buf] at hupdate ⊢
  split
  · exact hupdate
  · exact hupdate.setBufferState hid .dirty

/-- The loop of `flush_list`: each round takes one buffer off the list. -/
theorem Refines.flushList (map : ℕ) (h : Refines c p) {n fuel : ℕ} (hn : (p.dirty map).length = n)
    (hfuel : n < fuel) : ∃ c', Memory.flushList devOf map fuel c = some c' ∧
      Refines c' (flushList devOf map n p) ∧ (flushList devOf map n p).dirty map = [] := by
  induction n generalizing c p fuel with
  | zero =>
      obtain ⟨fuel, rfl⟩ := Nat.exists_eq_add_one.mpr hfuel
      have hnil := List.length_eq_zero_iff.mp hn
      refine ⟨c, ?_, h, hnil⟩
      obtain ⟨empty, clean, h⟩ := h
      have hnext := (h.link.holds (.dirty map) trivial).path.next_eq
      simp [linkItems, hnil] at hnext
      simp [Memory.flushList, hnext]
  | succ n ih =>
      obtain ⟨fuel, rfl⟩ := Nat.exists_eq_add_one.mpr (Nat.zero_lt_of_lt hfuel)
      obtain ⟨id, rest, hlist⟩ := List.exists_cons_of_length_eq_add_one hn
      have hnext : c.link.next (.dirty map) = .buffer id := by
        obtain ⟨empty, clean, h⟩ := h
        have hnext := (h.link.holds (.dirty map) trivial).path.next_eq
        simpa [linkItems, hlist] using hnext
      have hid : id < p.next := by
        obtain ⟨empty, clean, h⟩ := h
        exact h.below (.dirty map) id (by simp [linkItems, hlist])
      have hstep := h.devBlockio devOf hid true
      have hrest : (Buffer.devBlockio p devOf id true).dirty map = rest := by
        simp [Buffer.devBlockio, Buffer.setBufferState, hlist]
      simp only [Memory.flushList, Buffer.flushList, hnext, hlist]
      apply ih hstep
      · rw [hrest]
        simpa [hlist] using hn
      · exact Nat.lt_of_succ_lt_succ hfuel

theorem Refines.flushBuffers (h : Refines c p) (hlinked : Linked bucketOf p) (devOf : ℕ → ℕ)
    (map : ℕ) :
    ∃ c', c.flushBuffers devOf map = some c' ∧ Refines c' (flushBuffers p devOf map) ∧
      (flushBuffers p devOf map).dirty map = [] := by
  have hbelow : ∀ id ∈ p.dirty map, id < p.next := by
    intro id hid
    exact hlinked.lt (hashed_of_dirty (((hlinked.dirty map).2 id).mp hid).1)
  have hlength := length_le_of_below (hlinked.dirty map).1 hbelow
  have hnext : c.next = p.next := by
    obtain ⟨empty, clean, h⟩ := h
    exact h.next
  exact h.flushList map rfl (by omega)

/-! ## Runs -/

/-- The sequences of operations of `Run`, over links. At first every list is empty; the links of
what is no buffer yet are arbitrary. -/
inductive LinkRun (bucketOf : ℕ → Option ℕ) (devOf : ℕ → ℕ) (own : ℕ → ℕ → Prop) (maxBuffers : ℕ)
    (dev : ℕ → ℕ → Data) : Memory Data → (ℕ → ℕ → Option Data) → Prop where
  | start (memory : ℕ → Data) (link : Heap LinkNode) (lru : Heap LruNode) (hash : Table (ℕ × ℕ) ℕ)
      (hlink : ∀ head : LinkNode, head.IsHead → link.next head = head ∧ link.prev head = head)
      (hlru : lru.next .head = .head ∧ lru.prev .head = .head)
      (hhash : ∀ bucket, hash.first bucket = none) :
      LinkRun bucketOf devOf own maxBuffers dev
        ⟨fun id => ⟨0, 0, 0, .freed, memory id⟩, 0, link, lru, hash, 0, dev⟩ fun _ _ => none
  | read {c c' : Memory Data} {last : ℕ → ℕ → Option Data} {id : ℕ} (map block : ℕ)
      (h : LinkRun bucketOf devOf own maxBuffers dev c last) (hown : own map block)
      (hread : c.blockread bucketOf devOf maxBuffers map block = some (c', id)) :
      LinkRun bucketOf devOf own maxBuffers dev c' last
  | change {c : Memory Data} {last : ℕ → ℕ → Option Data} (id : ℕ) (data : Data)
      (h : LinkRun bucketOf devOf own maxBuffers dev c last) (hheld : 0 < (c.buf id).count) :
      LinkRun bucketOf devOf own maxBuffers dev (c.changeBuffer id data)
        (fun m i => if m = (c.buf id).map ∧ i = (c.buf id).index then some data else last m i)
  | put {c c' : Memory Data} {last : ℕ → ℕ → Option Data} (id : ℕ)
      (h : LinkRun bucketOf devOf own maxBuffers dev c last) (hput : c.blockput id = some c') :
      LinkRun bucketOf devOf own maxBuffers dev c' last
  | flush {c c' : Memory Data} {last : ℕ → ℕ → Option Data} (map : ℕ)
      (h : LinkRun bucketOf devOf own maxBuffers dev c last)
      (hflush : c.flushBuffers devOf map = some c') :
      LinkRun bucketOf devOf own maxBuffers dev c' last

variable {own : ℕ → ℕ → Prop} {dev : ℕ → ℕ → Data} {last : ℕ → ℕ → Option Data}

theorem start_refines (memory : ℕ → Data) (link : Heap LinkNode) (lru : Heap LruNode)
    (hash : Table (ℕ × ℕ) ℕ)
    (hlink : ∀ head : LinkNode, head.IsHead → link.next head = head ∧ link.prev head = head)
    (hlru : lru.next .head = .head ∧ lru.prev .head = .head)
    (hhash : ∀ bucket, hash.first bucket = none) :
    Refines ⟨fun id => ⟨0, 0, 0, .freed, memory id⟩, 0, link, lru, hash, 0, dev⟩
      ⟨fun id => ⟨0, 0, 0, .freed, memory id⟩, 0, [], fun _ => [], fun _ _ => [], [], 0, dev⟩ := by
  refine ⟨[], [],
    { buf := rfl, next := rfl, bufferCount := rfl, dev := rfl, link := ⟨?_, ?_⟩, member := ?_
      below := ?_, lru := ⟨?_, ?_⟩, lruBelow := by simp, hash := ⟨hhash, ?_, ?_⟩
      hashed := by simp }⟩
  · intro head hhead
    have hitems : linkItems (⟨fun id => ⟨0, 0, 0, .freed, memory id⟩, 0, [], fun _ => [],
        fun _ _ => [], [], 0, dev⟩ : Pool Data) [] [] head = [] := by
      cases head <;> rfl
    rw [hitems]
    exact ⟨hlink head hhead, List.nodup_singleton head⟩
  · intro a b ha hb hab x hx hmem
    cases a <;> cases b <;> simp_all [linkItems]
  · intro id hid
    exact absurd hid (Nat.not_lt_zero id)
  · intro head id hmem
    cases head <;> simp [linkItems] at hmem
  · intro a ha
    cases a with
    | head => exact ⟨hlru, List.nodup_singleton _⟩
    | buffer id => exact absurd ha.1 (Nat.not_lt_zero id)
  · intro a b ha hb hab x hx hmem
    cases a <;> cases b <;> simp_all [lruItems, LruHead]
  · intro b
    exact List.nodup_nil
  · intro b b' _ x hx
    cases hx

/-- A run over links is a run over lists. -/
theorem linkRun_refines (hown : Disjoint devOf own)
    (h : LinkRun bucketOf devOf own maxBuffers dev c last) :
    ∃ p, Run bucketOf devOf own maxBuffers dev p last ∧ Refines c p := by
  induction h with
  | start memory link lru hash hlink hlru hhash =>
      exact ⟨_, .start memory, start_refines memory link lru hash hlink hlru hhash⟩
  | read map block h hmi hread ih =>
      obtain ⟨p, hrun, href⟩ := ih
      have hlinked := (run_coherent hown hrun).linked
      obtain ⟨hc, -⟩ | ⟨x, ⟨q, id⟩, hc, hp, hsame⟩ :=
        rel_cases (href.blockread hlinked devOf maxBuffers map block)
      · rw [hc] at hread
        cases hread
      · rw [hc] at hread
        obtain rfl := Option.some.inj hread
        exact ⟨q, hrun.read map block hmi hp, hsame.2⟩
  | change id data h hheld ih =>
      obtain ⟨p, hrun, href⟩ := ih
      have hlinked := (run_coherent hown hrun).linked
      rw [href.buf] at hheld ⊢
      have hid : p.Hashed id := by
        by_contra hno
        rw [hlinked.idle id hno] at hheld
        exact Nat.lt_irrefl 0 hheld
      exact ⟨_, hrun.change id data hheld, href.changeBuffer (hlinked.lt hid) data⟩
  | put id h hput ih =>
      obtain ⟨p, hrun, href⟩ := ih
      obtain ⟨hc, -⟩ | ⟨x, q, hc, hp, hsame⟩ := rel_cases (href.blockput id)
      · rw [hc] at hput
        cases hput
      · rw [hc] at hput
        obtain rfl := Option.some.inj hput
        exact ⟨q, hrun.put id hp, hsame⟩
  | flush map h hflush ih =>
      obtain ⟨p, hrun, href⟩ := ih
      have hlinked := (run_coherent hown hrun).linked
      obtain ⟨x, hc, hsame, -⟩ := href.flushBuffers hlinked devOf map
      rw [hc] at hflush
      obtain rfl := Option.some.inj hflush
      exact ⟨_, hrun.flush map, hsame⟩

/-- In every state of every run over links whose maps do not overlap: `blockread` finds the buffer
that it finds over lists, with the data last put in the block; the loop of `flush_buffers` ends with
an empty dirty list, and then the device has the data last put in every block of the map. -/
theorem links_coherent (hown : Disjoint devOf own)
    (h : LinkRun bucketOf devOf own maxBuffers dev c last) :
    (∀ m i c' id, own m i → c.blockread bucketOf devOf maxBuffers m i = some (c', id) →
      (c'.buf id).data = (last m i).getD (dev (devOf m) i)) ∧
    (∀ m, ∃ c', c.flushBuffers devOf m = some c' ∧ c'.link.next (.dirty m) = .dirty m ∧
      ∀ i, own m i → c'.dev (devOf m) i = (last m i).getD (dev (devOf m) i)) ∧
    ∃ p, Run bucketOf devOf own maxBuffers dev p last ∧ Refines c p ∧
      ∀ m i, (c.blockread bucketOf devOf maxBuffers m i).map Prod.snd =
        (blockread bucketOf p devOf maxBuffers m i).map Prod.snd := by
  obtain ⟨p, hrun, href⟩ := linkRun_refines hown h
  have hco := run_coherent hown hrun
  have hread := fun m i => rel_cases (href.blockread hco.linked devOf maxBuffers m i)
  refine ⟨?_, ?_, p, hrun, href, ?_⟩
  · intro m i c' id hmi hc'
    obtain ⟨hc, -⟩ | ⟨x, ⟨q, id'⟩, hc, hp, heq, hq⟩ := hread m i
    · rw [hc] at hc'
      cases hc'
    · rw [hc] at hc'
      obtain rfl := Option.some.inj hc'
      obtain rfl : id = id' := heq
      have hbuf : c'.buf = q.buf := hq.buf
      rw [hbuf]
      exact (hco.blockread hmi hp).2
  · intro m
    obtain ⟨c', hc, hsame, hnil⟩ := href.flushBuffers hco.linked devOf m
    have hflushed := run_coherent hown (hrun.flush m)
    refine ⟨c', hc, ?_, ?_⟩
    · obtain ⟨empty, clean, hsame⟩ := hsame
      exact (hsame.link.holds (.dirty m) trivial).next_eq_head.mpr (by simp [linkItems, hnil])
    · intro i hmi
      rw [hsame.dev_eq]
      by_cases hex : ∃ x, (flushBuffers p devOf m).Hashed x ∧
          ((flushBuffers p devOf m).buf x).map = m ∧ ((flushBuffers p devOf m).buf x).index = i
      · obtain ⟨x, hx, hm, hi⟩ := hex
        have hdirty := (hflushed.linked.dirty m).2 x
        rw [hnil] at hdirty
        have hclean : ((flushBuffers p devOf m).buf x).state = .clean := by
          cases hs : ((flushBuffers p devOf m).buf x).state with
          | freed => exact absurd hs hx
          | empty => exact absurd hs (hflushed.loaded x)
          | clean => rfl
          | dirty => exact absurd (hdirty.mpr ⟨hs, hm⟩) List.not_mem_nil
        have hdisk := hflushed.disk x hclean
        rw [hm, hi] at hdisk
        exact hdisk
      · exact hflushed.absent m i hmi fun x hx hxm => hex ⟨x, hx, hxm⟩
  · intro m i
    obtain ⟨hc, hp⟩ | ⟨⟨c', id⟩, ⟨q, id'⟩, hc, hp, heq, -⟩ := hread m i
    · rw [hc, hp]
      rfl
    · rw [hc, hp]
      exact congrArg some heq

end

theorem links_coherent_flush : ∃ (c : Memory ℕ) (c' : Memory ℕ),
    c.flushBuffers (fun m => m) 0 = some c' ∧ c.dev 0 0 = 7 ∧ c'.dev 0 0 = 1 := by
  have hstart : LinkRun hashBucket (fun m => m) (fun _ _ => True) 100 (fun _ _ => 7)
      ⟨fun _ => ⟨0, 0, 0, .freed, 0⟩, 0, ⟨fun n => n, fun n => n⟩, ⟨fun n => n, fun n => n⟩,
        ⟨fun _ => none, fun _ => none, fun _ => none⟩, 0, fun _ _ => 7⟩ fun _ _ => none :=
    .start (fun _ => 0) _ _ _ (fun _ _ => ⟨rfl, rfl⟩) ⟨rfl, rfl⟩ fun _ => rfl
  have hread := hstart.read 0 0 trivial rfl
  have hchange := hread.change 0 1 (by decide)
  obtain ⟨-, hflush, -⟩ := links_coherent (fun _ _ _ _ _ h => h) hchange
  obtain ⟨c', hc', -, hdev⟩ := hflush 0
  exact ⟨_, c', hc', rfl, hdev 0 trivial⟩

end Tux3.Buffer
