import Tux3.Buffer
import Mathlib.Data.List.Nodup

/-!
# The lists of the block cache

Every list of the cache is a predicate on the buffers: the hash chains and the LRU list have the
buffers in use, the dirty lists the dirty ones, the free list the others. An operation moves one
buffer, and its lists follow.
-/
namespace Tux3.Buffer

/-- A list without repetition of the buffers with a property. -/
def Lists (l : List ℕ) (P : ℕ → Prop) : Prop := l.Nodup ∧ ∀ x, x ∈ l ↔ P x

section
variable {l : List ℕ} {P Q : ℕ → Prop} {id : ℕ}

theorem Lists.congr (h : Lists l P) (hPQ : ∀ x, P x ↔ Q x) : Lists l Q :=
  ⟨h.1, fun x => (h.2 x).trans (hPQ x)⟩

theorem Lists.erase (h : Lists l P) (id : ℕ) : Lists (l.erase id) fun x => x ≠ id ∧ P x :=
  ⟨h.1.erase id, fun x => h.1.mem_erase_iff.trans (and_congr_right fun _ => h.2 x)⟩

theorem Lists.append (h : Lists l P) (hid : ¬ P id) : Lists (l ++ [id]) fun x => P x ∨ x = id := by
  refine ⟨?_, fun x => ?_⟩
  · refine List.nodup_append.mpr ⟨h.1, List.nodup_singleton id, fun a ha b hb => ?_⟩
    rintro rfl
    exact hid ((h.2 id).mp (List.mem_singleton.mp hb ▸ ha))
  · rw [List.mem_append, List.mem_singleton, h.2]

theorem Lists.cons (h : Lists l P) (hid : ¬ P id) : Lists (id :: l) fun x => P x ∨ x = id := by
  refine ⟨List.nodup_cons.mpr ⟨fun hmem => hid ((h.2 id).mp hmem), h.1⟩, fun x => ?_⟩
  rw [List.mem_cons, h.2, or_comm]

theorem Lists.moveTail (h : Lists l P) (hid : P id) : Lists (l.erase id ++ [id]) P := by
  refine ((h.erase id).append fun hno => hno.1 rfl).congr fun x => ?_
  by_cases hx : x = id
  · subst hx
    simp [hid]
  · simp [hx]

end

section
variable {Data : Type} {bucketOf : ℕ → Option ℕ} {p : Pool Data} {id : ℕ}

/-- A buffer in use. -/
def Pool.Hashed (p : Pool Data) (id : ℕ) : Prop := (p.buf id).state ≠ .freed

/-- The lists agree with the states of the buffers. -/
structure Linked (bucketOf : ℕ → Option ℕ) (p : Pool Data) : Prop where
  hash : ∀ m b, Lists (p.hash m b) fun id =>
    p.Hashed id ∧ (p.buf id).map = m ∧ bucketOf (p.buf id).index = some b
  lru : Lists p.lru p.Hashed
  freed : Lists p.freed fun id => id < p.next ∧ ¬ p.Hashed id
  dirty : ∀ m, Lists (p.dirty m) fun id => (p.buf id).state = .dirty ∧ (p.buf id).map = m
  beyond : ∀ id, p.next ≤ id → ¬ p.Hashed id
  idle : ∀ id, ¬ p.Hashed id → (p.buf id).count = 0

theorem not_hashed (h : (p.buf id).state = .freed) : ¬ p.Hashed id := fun hno => hno h

theorem hashed_of_clean (h : (p.buf id).state = .clean) : p.Hashed id := by
  intro hno
  rw [h] at hno
  cases hno

theorem hashed_of_dirty (h : (p.buf id).state = .dirty) : p.Hashed id := by
  intro hno
  rw [h] at hno
  cases hno

/-! ## Eviction -/

theorem evictBuffer_buf : (evictBuffer p id).buf =
    Function.update p.buf id { p.buf id with state := .freed } := rfl

theorem evictBuffer_linked (h : Linked bucketOf p) (hclean : (p.buf id).state = .clean)
    (hcount : (p.buf id).count = 0) : Linked bucketOf (evictBuffer p id) := by
  have hself : (evictBuffer p id).buf id = { p.buf id with state := .freed } :=
    Function.update_self _ _ _
  have hother : ∀ x, x ≠ id → (evictBuffer p id).buf x = p.buf x :=
    fun x hx => Function.update_of_ne hx _ _
  have hfree : ¬ (evictBuffer p id).Hashed id := not_hashed (by rw [hself])
  have huse : p.Hashed id := hashed_of_clean hclean
  have hiff : ∀ x, x ≠ id → ((evictBuffer p id).Hashed x ↔ p.Hashed x) := by
    intro x hx
    unfold Pool.Hashed
    rw [hother x hx]
  refine ⟨fun m b => ?_, ?_, ?_, fun m => ?_, fun x hx => ?_, fun x hx => ?_⟩
  · refine ((h.hash m b).erase id).congr fun x => ?_
    by_cases hx : x = id
    · subst hx
      simp [hfree]
    · rw [hiff x hx, hother x hx]
      simp [hx]
  · refine (h.lru.erase id).congr fun x => ?_
    by_cases hx : x = id
    · subst hx
      simp [hfree]
    · rw [hiff x hx]
      simp [hx]
  · refine ((h.freed.erase id).append fun hno => hno.1 rfl).congr fun x => ?_
    by_cases hx : x = id
    · subst hx
      have hlt : x < p.next := by
        by_contra hge
        exact h.beyond x (Nat.not_lt.mp hge) huse
      exact ⟨fun _ => ⟨hlt, hfree⟩, fun _ => Or.inr rfl⟩
    · rw [hiff x hx]
      simp only [hx, or_false, ne_eq, not_false_eq_true, true_and]
      rfl
  · refine ((h.dirty m).erase id).congr fun x => ?_
    by_cases hx : x = id
    · subst hx
      rw [hself]
      simp
    · rw [hother x hx]
      simp [hx]
  · by_cases hxi : x = id
    · exact hxi ▸ hfree
    · rw [hiff x hxi]
      exact h.beyond x hx
  · by_cases hxi : x = id
    · subst hxi
      rw [hself]
      exact hcount
    · rw [hother x hxi]
      exact h.idle x fun hu => hx ((hiff x hxi).mpr hu)

/-- What an eviction may do to the buffers: free some that are clean and not held. -/
def Evicted (p p' : Pool Data) : Prop :=
  ∀ x, p'.buf x = p.buf x ∨ (p.buf x).state = .clean ∧ (p.buf x).count = 0 ∧
    p'.buf x = { p.buf x with state := .freed }

theorem Evicted.refl (p : Pool Data) : Evicted p p := fun _ => Or.inl rfl

theorem Evicted.trans {p₁ p₂ p₃ : Pool Data} (h : Evicted p₁ p₂) (h' : Evicted p₂ p₃) :
    Evicted p₁ p₃ := by
  intro x
  rcases h x with heq | ⟨hclean, hcount, heq⟩
  · rw [← heq]
    exact h' x
  · rcases h' x with heq' | ⟨hclean', -⟩
    · exact Or.inr ⟨hclean, hcount, heq'.trans heq⟩
    · rw [heq] at hclean'
      cases hclean'

theorem evictBuffer_evicted (hclean : (p.buf id).state = .clean) (hcount : (p.buf id).count = 0) :
    Evicted p (evictBuffer p id) := by
  intro x
  rw [evictBuffer_buf]
  by_cases hx : x = id
  · subst hx
    exact Or.inr ⟨hclean, hcount, Function.update_self _ _ _⟩
  · exact Or.inl (Function.update_of_ne hx _ _)

/-- The loop of `new_buffer`: what every eviction keeps, the loop keeps. -/
theorem evictVictims_rule {I : Pool Data → Prop}
    (hstep : ∀ p id, I p → (p.buf id).state = .clean → (p.buf id).count = 0 → I (evictBuffer p id))
    (l : List ℕ) (left : ℕ) (h : I p) : I (evictVictims l left p) := by
  induction l generalizing left p with
  | nil => exact h
  | cons victim rest ih =>
      rw [evictVictims]
      split
      · next hv =>
          split
          · exact hstep p victim h hv.2 hv.1
          · exact ih _ (hstep p victim h hv.2 hv.1)
      · exact ih _ h

/-! ## A new buffer -/

variable {p' q : Pool Data} {map block maxBuffers : ℕ}

/-- A free buffer that no list has any more. -/
structure Ready (bucketOf : ℕ → Option ℕ) (p : Pool Data) (id : ℕ) : Prop where
  hash : ∀ m b, Lists (p.hash m b) fun id =>
    p.Hashed id ∧ (p.buf id).map = m ∧ bucketOf (p.buf id).index = some b
  lru : Lists p.lru p.Hashed
  freed : Lists (p.freed.erase id) fun x => x ≠ id ∧ x < p.next ∧ ¬ p.Hashed x
  dirty : ∀ m, Lists (p.dirty m) fun id => (p.buf id).state = .dirty ∧ (p.buf id).map = m
  beyond : ∀ x, p.next ≤ x → ¬ p.Hashed x
  idle : ∀ x, ¬ p.Hashed x → (p.buf x).count = 0
  lt : id < p.next
  free : (p.buf id).state = .freed

theorem Linked.ready (h : Linked bucketOf p) (hid : id ∈ p.freed) : Ready bucketOf p id := by
  obtain ⟨hlt, hfree⟩ := (h.freed.2 id).mp hid
  exact ⟨h.hash, h.lru, h.freed.erase id, h.dirty, h.beyond, h.idle, hlt, not_not.mp hfree⟩

/-- A buffer from `malloc`. -/
theorem Linked.ready_next (h : Linked bucketOf p) :
    Ready bucketOf { p with
      buf := Function.update p.buf p.next
        { p.buf p.next with map := 0, index := 0, count := 0, state := .freed }
      next := p.next + 1 } p.next := by
  set q : Pool Data := { p with
    buf := Function.update p.buf p.next
      { p.buf p.next with map := 0, index := 0, count := 0, state := .freed }
    next := p.next + 1 } with hq
  have hself : q.buf p.next =
      { p.buf p.next with map := 0, index := 0, count := 0, state := .freed } :=
    Function.update_self _ _ _
  have hother : ∀ x, x ≠ p.next → q.buf x = p.buf x := fun x hx => Function.update_of_ne hx _ _
  have hold : ¬ p.Hashed p.next := h.beyond _ (Nat.le_refl _)
  have hnew : ¬ q.Hashed p.next := not_hashed (by rw [hself])
  have hiff : ∀ x, q.Hashed x ↔ p.Hashed x := by
    intro x
    by_cases hx : x = p.next
    · subst hx
      exact iff_of_false hnew hold
    · unfold Pool.Hashed
      rw [hother x hx]
  have hstate : ∀ x, p.Hashed x → q.buf x = p.buf x := by
    intro x hx
    refine hother x ?_
    rintro rfl
    exact hold hx
  refine ⟨fun m b => (h.hash m b).congr fun x => ?_, h.lru.congr fun x => (hiff x).symm, ?_,
    fun m => (h.dirty m).congr fun x => ?_, fun x hx => ?_, fun x hx => ?_, Nat.lt_succ_self _,
    by rw [hself]⟩
  · rw [hiff]
    refine and_congr_right fun hx => ?_
    rw [hstate x hx]
  · refine (h.freed.erase p.next).congr fun x => and_congr_right fun hx => ?_
    rw [hiff]
    refine and_congr_left fun hno => ?_
    exact ⟨fun hlt => Nat.lt_succ_of_lt hlt, fun hlt => by
      have hle : x < p.next + 1 := hlt
      omega⟩
  · by_cases hx : x = p.next
    · subst hx
      rw [hself]
      have hno := (not_not.mp hold : (p.buf p.next).state = .freed)
      simp [hno]
    · rw [hother x hx]
  · rw [hiff]
    exact h.beyond x (Nat.le_of_succ_le hx)
  · by_cases hxn : x = p.next
    · subst hxn
      rw [hself]
    · rw [hother x hxn]
      exact h.idle x fun hu => hx ((hiff x).mpr hu)

/-- `new_buffer` after its evictions: a free buffer, old or from `malloc`. -/
theorem newBuffer_rule {I : Pool Data → Prop} (hlinked : ∀ p, I p → Linked bucketOf p)
    (hstep : ∀ p id, I p → (p.buf id).state = .clean → (p.buf id).count = 0 → I (evictBuffer p id))
    (h : I p) (hnew : newBuffer p maxBuffers map = some (p', id)) :
    ∃ p₁ p₂, I p₁ ∧ Evicted p p₁ ∧ Ready bucketOf p₂ id ∧ p' = haveBuffer p₂ id map ∧
      (∀ x, x ≠ id → p₂.buf x = p₁.buf x) ∧ ¬ p₁.Hashed id ∧ p₂.dev = p₁.dev ∧
      (p₂.buf id).count = 0 := by
  unfold newBuffer at hnew
  dsimp only at hnew
  set p₁ := if p.freed = [] ∧ max maxBuffers 100 ≤ p.bufferCount
    then evictVictims p.lru maxEvict p else p with hp₁
  have hkept : I p₁ ∧ Evicted p p₁ := by
    rw [hp₁]
    split
    · exact evictVictims_rule (I := fun q => I q ∧ Evicted p q)
        (fun _ _ hq hclean hcount => ⟨hstep _ _ hq.1 hclean hcount,
          hq.2.trans (evictBuffer_evicted hclean hcount)⟩) p.lru maxEvict ⟨h, Evicted.refl p⟩
    · exact ⟨h, Evicted.refl p⟩
  have hlist := hlinked p₁ hkept.1
  split at hnew
  · next x rest hfreed =>
      obtain ⟨rfl, rfl⟩ := Prod.mk.inj (Option.some.inj hnew)
      have hready := hlist.ready (hfreed ▸ List.mem_cons_self)
      exact ⟨p₁, p₁, hkept.1, hkept.2, hready, rfl, fun _ _ => rfl, not_hashed hready.free, rfl,
        hready.idle x (not_hashed hready.free)⟩
  · split at hnew
    · cases hnew
    · obtain ⟨rfl, rfl⟩ := Prod.mk.inj (Option.some.inj hnew)
      have hready := hlist.ready_next
      exact ⟨p₁, _, hkept.1, hkept.2, hready, rfl, fun x hx => Function.update_of_ne hx _ _,
        hlist.beyond _ (Nat.le_refl _), rfl, hready.idle _ (not_hashed hready.free)⟩

/-- `blockget` of a block without a buffer, from `have_buffer` on. -/
def freshBuffer (bucketOf : ℕ → Option ℕ) (p : Pool Data) (id map block : ℕ) : Pool Data :=
  let p := haveBuffer p id map
  insertBufferHash bucketOf
    { p with buf := Function.update p.buf id { p.buf id with index := block } } id

theorem freshBuffer_self : (freshBuffer bucketOf p id map block).buf id =
    ⟨map, block, (p.buf id).count + 1, .empty, (p.buf id).data⟩ := by
  simp [freshBuffer, haveBuffer, insertBufferHash, setBufferState]

theorem freshBuffer_other {x : ℕ} (hx : x ≠ id) :
    (freshBuffer bucketOf p id map block).buf x = p.buf x := by
  simp [freshBuffer, haveBuffer, insertBufferHash, setBufferState, Function.update_of_ne hx]

theorem freshBuffer_linked (map block : ℕ) (h : Ready bucketOf p id) :
    Linked bucketOf (freshBuffer bucketOf p id map block) := by
  set q := freshBuffer bucketOf p id map block with hq
  have hself := @freshBuffer_self Data bucketOf p id map block
  have hother : ∀ x, x ≠ id → q.buf x = p.buf x := fun x hx => freshBuffer_other hx
  rw [← hq] at hself
  have hold : ¬ p.Hashed id := not_hashed h.free
  have huse : q.Hashed id := by
    unfold Pool.Hashed
    rw [hself]
    exact BufferState.noConfusion
  have hiff : ∀ x, x ≠ id → (q.Hashed x ↔ p.Hashed x) := by
    intro x hx
    unfold Pool.Hashed
    rw [hother x hx]
  have hhash : ∀ m b, q.hash m b = if m = map ∧ bucketOf block = some b then id :: p.hash m b
      else p.hash m b := by
    intro m b
    simp [hq, freshBuffer, haveBuffer, insertBufferHash, setBufferState]
  have hlru : q.lru = p.lru ++ [id] := rfl
  have hfreed : q.freed = p.freed.erase id := by
    simp [hq, freshBuffer, haveBuffer, insertBufferHash, setBufferState]
  have hdirty : ∀ m, q.dirty m = (p.dirty m).erase id := by
    intro m
    simp [hq, freshBuffer, haveBuffer, insertBufferHash, setBufferState]
  have hnext : q.next = p.next := rfl
  refine ⟨fun m b => ?_, ?_, ?_, fun m => ?_, fun x hx => ?_, fun x hx => ?_⟩
  · rw [hhash]
    split
    · next heq =>
        obtain ⟨rfl, hb⟩ := heq
        refine ((h.hash m _).cons fun hno => hold hno.1).congr fun x => ?_
        by_cases hx : x = id
        · subst hx
          rw [hself]
          simp [huse, hb]
        · rw [hiff x hx, hother x hx]
          simp [hx]
    · next hne =>
        refine (h.hash m b).congr fun x => ?_
        by_cases hx : x = id
        · subst hx
          rw [hself]
          refine iff_of_false (fun hno => hold hno.1) fun hno => hne ?_
          exact ⟨hno.2.1.symm, hno.2.2⟩
        · rw [hiff x hx, hother x hx]
  · rw [hlru]
    refine (h.lru.append hold).congr fun x => ?_
    by_cases hx : x = id
    · subst hx
      simp [huse]
    · rw [hiff x hx]
      simp [hx]
  · rw [hfreed]
    refine h.freed.congr fun x => ?_
    by_cases hx : x = id
    · subst hx
      simp [huse]
    · rw [hiff x hx, hnext]
      simp [hx]
  · rw [hdirty]
    refine ((h.dirty m).erase id).congr fun x => ?_
    by_cases hx : x = id
    · subst hx
      rw [hself]
      simp
    · rw [hother x hx]
      simp [hx]
  · have hxi : x ≠ id := by
      have hlt := h.lt
      have hle : p.next ≤ x := hx
      omega
    rw [hiff x hxi]
    exact h.beyond x hx
  · have hxi : x ≠ id := by
      rintro rfl
      exact hx huse
    rw [hother x hxi]
    exact h.idle x fun hu => hx ((hiff x hxi).mpr hu)

/-! ## Changes of one buffer -/

/-- A change of a buffer that leaves map, index and state, and the lists with it. -/
theorem Linked.touch {q : Pool Data} (h : Linked bucketOf p)
    (hsame : ∀ x, (q.buf x).map = (p.buf x).map ∧ (q.buf x).index = (p.buf x).index ∧
      (q.buf x).state = (p.buf x).state)
    (hcount : ∀ x, ¬ p.Hashed x → (q.buf x).count = 0) (hnext : q.next = p.next)
    (hhash : q.hash = p.hash) (hlru : Lists q.lru p.Hashed) (hfreed : q.freed = p.freed)
    (hdirty : q.dirty = p.dirty) : Linked bucketOf q := by
  have hiff : ∀ x, q.Hashed x ↔ p.Hashed x := by
    intro x
    unfold Pool.Hashed
    rw [(hsame x).2.2]
  refine ⟨fun m b => ?_, hlru.congr fun x => (hiff x).symm, ?_, fun m => ?_, fun x hx => ?_,
    fun x hx => hcount x fun hu => hx ((hiff x).mpr hu)⟩
  · rw [hhash]
    refine (h.hash m b).congr fun x => ?_
    rw [hiff, (hsame x).1, (hsame x).2.1]
  · rw [hfreed, hnext]
    refine h.freed.congr fun x => ?_
    rw [hiff]
  · rw [hdirty]
    refine (h.dirty m).congr fun x => ?_
    rw [(hsame x).1, (hsame x).2.2]
  · rw [hiff]
    exact h.beyond x (hnext ▸ hx)

theorem setBufferState_self {state : BufferState} :
    (setBufferState p id state).buf id = { p.buf id with state := state } :=
  Function.update_self _ _ _

theorem setBufferState_other {state : BufferState} {x : ℕ} (hx : x ≠ id) :
    (setBufferState p id state).buf x = p.buf x := Function.update_of_ne hx _ _

/-- Moving a buffer in use to another state in use. -/
theorem setBufferState_linked {state : BufferState} (h : Linked bucketOf p) (hid : p.Hashed id)
    (hstate : state ≠ .freed) : Linked bucketOf (setBufferState p id state) := by
  set q := setBufferState p id state with hq
  have hself : q.buf id = { p.buf id with state := state } := setBufferState_self
  have hother : ∀ x, x ≠ id → q.buf x = p.buf x := fun x hx => setBufferState_other hx
  have hiff : ∀ x, q.Hashed x ↔ p.Hashed x := by
    intro x
    by_cases hx : x = id
    · subst hx
      refine iff_of_true ?_ hid
      unfold Pool.Hashed
      rw [hself]
      exact hstate
    · unfold Pool.Hashed
      rw [hother x hx]
  refine ⟨fun m b => ?_, h.lru.congr fun x => (hiff x).symm, ?_, fun m => ?_, fun x hx => ?_,
    fun x hx => ?_⟩
  · refine (h.hash m b).congr fun x => ?_
    rw [hiff]
    by_cases hx : x = id
    · subst hx
      rw [hself]
    · rw [hother x hx]
  · have hfreed : q.freed = p.freed.erase id := if_neg hstate
    rw [hfreed]
    refine (h.freed.erase id).congr fun x => ?_
    rw [hiff]
    refine ⟨And.right, fun hx => ⟨fun heq => hx.2 (heq ▸ hid), hx⟩⟩
  · have hdirty : q.dirty m = if state = .dirty ∧ m = (p.buf id).map
        then (p.dirty m).erase id ++ [id] else (p.dirty m).erase id := rfl
    rw [hdirty]
    split
    · next hd =>
        refine (((h.dirty m).erase id).append fun hno => hno.1 rfl).congr fun x => ?_
        by_cases hx : x = id
        · subst hx
          rw [hself]
          simp [hd.1, hd.2]
        · rw [hother x hx]
          simp [hx]
    · next hd =>
        refine ((h.dirty m).erase id).congr fun x => ?_
        by_cases hx : x = id
        · subst hx
          rw [hself]
          refine iff_of_false (fun hno => hno.1 rfl) fun hno => hd ⟨hno.1, hno.2.symm⟩
        · rw [hother x hx]
          simp [hx]
  · rw [hiff]
    exact h.beyond x hx
  · have hxi : x ≠ id := by
      rintro rfl
      exact hx ((hiff x).mpr hid)
    rw [hother x hxi]
    exact h.idle x fun hu => hx ((hiff x).mpr hu)

theorem hashed_update {b : BufferHead Data} (h : b.state ≠ .freed) :
    Pool.Hashed { p with buf := Function.update p.buf id b } id := by
  unfold Pool.Hashed
  dsimp only
  rwa [Function.update_self]

theorem Linked.setData (h : Linked bucketOf p) (hid : p.Hashed id) (data : Data) :
    Linked bucketOf { p with buf := Function.update p.buf id { p.buf id with data := data } } := by
  have hother : ∀ x, x ≠ id →
      Function.update p.buf id { p.buf id with data := data } x = p.buf x :=
    fun x hx => Function.update_of_ne hx _ _
  refine h.touch (fun x => ?_) (fun x hx => ?_) rfl rfl h.lru rfl rfl
  · dsimp only
    by_cases hx : x = id
    · rw [hx, Function.update_self]
      exact ⟨rfl, rfl, rfl⟩
    · rw [hother x hx]
      exact ⟨rfl, rfl, rfl⟩
  · dsimp only
    rw [hother x (by rintro rfl; exact hx hid)]
    exact h.idle x hx

theorem Linked.count {lru : List ℕ} {n : ℕ} (h : Linked bucketOf p) (hid : p.Hashed id)
    (hlru : Lists lru p.Hashed) :
    Linked bucketOf { p with
      lru := lru
      buf := Function.update p.buf id { p.buf id with count := n } } := by
  have hother : ∀ x, x ≠ id → Function.update p.buf id { p.buf id with count := n } x = p.buf x :=
    fun x hx => Function.update_of_ne hx _ _
  refine h.touch (fun x => ?_) (fun x hx => ?_) rfl rfl hlru rfl rfl
  · dsimp only
    by_cases hx : x = id
    · rw [hx, Function.update_self]
      exact ⟨rfl, rfl, rfl⟩
    · rw [hother x hx]
      exact ⟨rfl, rfl, rfl⟩
  · dsimp only
    rw [hother x (by rintro rfl; exact hx hid)]
    exact h.idle x hx

/-! ## Reading -/

/-- `blockread` of a block without a buffer, from `have_buffer` to the end of the transfer. -/
def loadBuffer (bucketOf : ℕ → Option ℕ) (p : Pool Data) (devOf : ℕ → ℕ) (id map block : ℕ) :
    Pool Data :=
  let p := haveBuffer p id map
  let p := { p with buf := Function.update p.buf id { p.buf id with index := block } }
  devBlockio (insertBufferHash bucketOf p id) devOf id false

theorem loadBuffer_self {devOf : ℕ → ℕ} {map block : ℕ} :
    (loadBuffer bucketOf p devOf id map block).buf id =
      ⟨map, block, (p.buf id).count + 1, .clean, p.dev (devOf map) block⟩ := by
  simp [loadBuffer, haveBuffer, devBlockio, insertBufferHash, setBufferState]

theorem loadBuffer_other {devOf : ℕ → ℕ} {map block x : ℕ} (hx : x ≠ id) :
    (loadBuffer bucketOf p devOf id map block).buf x = p.buf x := by
  simp [loadBuffer, haveBuffer, devBlockio, insertBufferHash, setBufferState,
    Function.update_of_ne hx]

theorem loadBuffer_linked (devOf : ℕ → ℕ) (map block : ℕ) (h : Ready bucketOf p id) :
    Linked bucketOf (loadBuffer bucketOf p devOf id map block) := by
  have hfresh := freshBuffer_linked map block h
  have huse : (freshBuffer bucketOf p id map block).Hashed id := by
    unfold Pool.Hashed
    rw [freshBuffer_self]
    exact BufferState.noConfusion
  exact setBufferState_linked (hfresh.setData huse _) (hashed_update huse) BufferState.noConfusion

/-- A read of a block with a buffer, and one of a block without. -/
theorem blockget_cases {q : Pool Data}
    (hget : blockget bucketOf p maxBuffers map block = some (q, id)) :
    ∃ b, bucketOf block = some b ∧
      ((p.hash map b).find? (fun id => (p.buf id).index = block) = some id ∧
          q = { p with
            lru := p.lru.erase id ++ [id]
            buf := Function.update p.buf id { p.buf id with count := (p.buf id).count + 1 } } ∨
        (p.hash map b).find? (fun id => (p.buf id).index = block) = none ∧
          ∃ q₀, newBuffer p maxBuffers map = some (q₀, id) ∧ q = insertBufferHash bucketOf { q₀ with
            buf := Function.update q₀.buf id { q₀.buf id with index := block } } id) := by
  unfold blockget at hget
  split at hget
  · cases hget
  · next b hb =>
      refine ⟨b, hb, ?_⟩
      split at hget
      · next y hfind =>
          obtain ⟨hq, rfl⟩ := Prod.mk.inj (Option.some.inj hget)
          exact Or.inl ⟨hfind, hq.symm⟩
      · next hfind =>
          split at hget
          · cases hget
          · next q₀ y hnew =>
              obtain ⟨hq, rfl⟩ := Prod.mk.inj (Option.some.inj hget)
              exact Or.inr ⟨hfind, q₀, hnew, hq.symm⟩

/-- What `blockget` does: it holds the buffer of the block, or a new one. -/
inductive Got (p q : Pool Data) (map block id : ℕ) : Prop where
  | found (hid : p.Hashed id) (hmap : (p.buf id).map = map) (hindex : (p.buf id).index = block)
      (hbuf : q.buf = Function.update p.buf id { p.buf id with count := (p.buf id).count + 1 })
  | new (hnone : ∀ x, p.Hashed x → (p.buf x).map = map → (p.buf x).index ≠ block)
      (hself : ∃ data, q.buf id = ⟨map, block, 1, .empty, data⟩)
      (hfree : p.Hashed id → (p.buf id).state = .clean ∧ (p.buf id).count = 0)
      (hother : ∀ x, x ≠ id → q.buf x = p.buf x ∨ (p.buf x).state = .clean ∧ (p.buf x).count = 0 ∧
        q.buf x = { p.buf x with state := .freed })

theorem Got.hashed {p q : Pool Data} {block id : ℕ} (h : Got p q map block id) : q.Hashed id := by
  unfold Pool.Hashed
  cases h with
  | found hid hmap hindex hbuf =>
      rw [hbuf, Function.update_self]
      exact hid
  | new hnone hself hfree hother =>
      obtain ⟨data, hself⟩ := hself
      rw [hself]
      exact BufferState.noConfusion

theorem Got.outside (hgot : Got p q map block id) : ∀ y, y ≠ id → q.buf y = p.buf y ∨
    (p.buf y).state = .clean ∧ (p.buf y).count = 0 ∧ ¬ q.Hashed y := by
  intro y hy
  cases hgot with
  | found hid hmap hindex hbuf =>
      rw [hbuf, Function.update_of_ne hy]
      exact .inl rfl
  | new hnone hself hfree hother =>
      refine (hother y hy).imp_right fun ⟨hstate, hzero, heq⟩ => ⟨hstate, hzero, ?_⟩
      rw [Pool.Hashed, heq]
      exact fun hno => hno rfl

theorem Linked.get (h : Linked bucketOf p)
    (hget : blockget bucketOf p maxBuffers map block = some (q, id)) :
    Linked bucketOf q ∧ q.dev = p.dev ∧ Got p q map block id := by
  obtain ⟨b, hb, ⟨hfind, rfl⟩ | ⟨hfind, q₀, hnew, rfl⟩⟩ := blockget_cases hget
  · have hindex : (p.buf id).index = block := by simpa using List.find?_some hfind
    obtain ⟨huse, hmap, -⟩ := ((h.hash map _).2 id).mp (List.mem_of_find?_eq_some hfind)
    refine ⟨h.count huse (h.lru.moveTail huse), rfl, .found huse hmap hindex rfl⟩
  · obtain ⟨p₁, p₂, ⟨hlinked, hdev⟩, hev, hready, rfl, hsame, hfree, hdev', hcount⟩ :=
      newBuffer_rule (I := fun q => Linked bucketOf q ∧ q.dev = p.dev) (fun _ hq => hq.1)
        (fun _ _ hq hclean hcount => ⟨evictBuffer_linked hq.1 hclean hcount, hq.2⟩) ⟨h, rfl⟩ hnew
    refine ⟨freshBuffer_linked map block hready, hdev'.trans hdev, .new ?_ ?_ ?_ ?_⟩
    · intro x hx hmap hindex
      have hmem := ((h.hash map b).2 x).mpr ⟨hx, hmap, hindex ▸ hb⟩
      exact List.find?_eq_none.mp hfind x hmem (decide_eq_true hindex)
    · have hself := @freshBuffer_self Data bucketOf p₂ id map block
      rw [hcount] at hself
      exact ⟨_, hself⟩
    · intro hid
      rcases hev id with heq | ⟨hclean, hzero, -⟩
      · unfold Pool.Hashed at hfree hid
        rw [heq] at hfree
        exact absurd hid hfree
      · exact ⟨hclean, hzero⟩
    · intro x hx
      have heq : (freshBuffer bucketOf p₂ id map block).buf x = p₁.buf x :=
        (freshBuffer_other hx).trans (hsame x hx)
      change (freshBuffer bucketOf p₂ id map block).buf x = _ ∨ _ ∧ _ ∧
        (freshBuffer bucketOf p₂ id map block).buf x = _
      rw [heq]
      exact hev x

end

end Tux3.Buffer
