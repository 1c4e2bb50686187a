import Tux3.BufferLists

/-!
# Coherence of the block cache

A buffer in use has the contents last put in its block, a clean one also agrees with the device, and
a block without a buffer is on the device. This holds as long as no device block is used through two
maps: the cache knows a block by map and index only.
-/
namespace Tux3.Buffer

section
variable {Data : Type}

/-- The cache and the device have the contents `val` of every block that may be used. -/
structure Coherent (bucketOf : ℕ → Option ℕ) (devOf : ℕ → ℕ) (own : ℕ → ℕ → Prop)
    (val : ℕ → ℕ → Data) (p : Pool Data) : Prop where
  linked : Linked bucketOf p
  unique : ∀ x y, p.Hashed x → p.Hashed y → (p.buf x).map = (p.buf y).map →
    (p.buf x).index = (p.buf y).index → x = y
  loaded : ∀ x, (p.buf x).state ≠ .empty
  owned : ∀ x, p.Hashed x → own (p.buf x).map (p.buf x).index
  data : ∀ x, p.Hashed x → (p.buf x).data = val (p.buf x).map (p.buf x).index
  disk : ∀ x, (p.buf x).state = .clean →
    p.dev (devOf (p.buf x).map) (p.buf x).index = val (p.buf x).map (p.buf x).index
  absent : ∀ m i, own m i → (∀ x, p.Hashed x → ¬ ((p.buf x).map = m ∧ (p.buf x).index = i)) →
    p.dev (devOf m) i = val m i

variable {bucketOf : ℕ → Option ℕ} {devOf : ℕ → ℕ} {own : ℕ → ℕ → Prop} {val : ℕ → ℕ → Data}
  {p p' : Pool Data} {id map block maxBuffers : ℕ}

/-! ## Eviction -/

theorem Coherent.evict (h : Coherent bucketOf devOf own val p) (hclean : (p.buf id).state = .clean)
    (hcount : (p.buf id).count = 0) : Coherent bucketOf devOf own val (evictBuffer p id) := by
  have hself : (evictBuffer p id).buf id = { p.buf id with state := .freed } :=
    Function.update_self _ _ _
  have hother : ∀ x, x ≠ id → (evictBuffer p id).buf x = p.buf x :=
    fun x hx => Function.update_of_ne hx _ _
  have hne : ∀ x, (evictBuffer p id).Hashed x → x ≠ id := by
    rintro x hx rfl
    exact hx (by rw [hself])
  have huse : ∀ x, (evictBuffer p id).Hashed x → p.Hashed x := by
    intro x hx
    have heq := hother x (hne x hx)
    unfold Pool.Hashed at hx ⊢
    rwa [heq] at hx
  refine ⟨evictBuffer_linked h.linked hclean hcount, fun x y hx hy hm hi => ?_, fun x => ?_,
    fun x hx => ?_, fun x hx => ?_, fun x hx => ?_, fun m i hown hno => ?_⟩
  · rw [hother x (hne x hx), hother y (hne y hy)] at hm hi
    exact h.unique x y (huse x hx) (huse y hy) hm hi
  · by_cases hx : x = id
    · subst hx
      rw [hself]
      exact BufferState.noConfusion
    · rw [hother x hx]
      exact h.loaded x
  · rw [hother x (hne x hx)]
    exact h.owned x (huse x hx)
  · rw [hother x (hne x hx)]
    exact h.data x (huse x hx)
  · have hxi := hne x (hashed_of_clean hx)
    rw [hother x hxi] at hx ⊢
    exact h.disk x hx
  · -- the block of the victim is on the device, as the victim is clean
    by_cases hid : (p.buf id).map = m ∧ (p.buf id).index = i
    · have hdisk := h.disk id hclean
      rw [hid.1, hid.2] at hdisk
      exact hdisk
    · refine h.absent m i hown fun x hx hxm => ?_
      have hxi : x ≠ id := by
        rintro rfl
        exact hid hxm
      refine hno x ?_ ?_
      · unfold Pool.Hashed
        rw [hother x hxi]
        exact hx
      · rw [hother x hxi]
        exact hxm

theorem newBuffer_cases (h : Coherent bucketOf devOf own val p)
    (hnew : newBuffer p maxBuffers map = some (p', id)) :
    ∃ p₁ p₂, Coherent bucketOf devOf own val p₁ ∧ Evicted p p₁ ∧ Ready bucketOf p₂ id ∧
      p' = haveBuffer p₂ id map ∧
      (∀ x, x ≠ id → p₂.buf x = p₁.buf x) ∧ ¬ p₁.Hashed id ∧ p₂.dev = p₁.dev ∧
      (p₂.buf id).count = 0 :=
  newBuffer_rule (I := Coherent bucketOf devOf own val) (fun _ hq => hq.linked)
    (fun _ _ hq hclean hcount => hq.evict hclean hcount) h hnew

/-! ## Reading -/

theorem Coherent.load {p₁ p₂ : Pool Data} (h : Coherent bucketOf devOf own val p₁)
    (hready : Ready bucketOf p₂ id)
    (hsame : ∀ x, x ≠ id → p₂.buf x = p₁.buf x) (hfree : ¬ p₁.Hashed id) (hdev : p₂.dev = p₁.dev)
    (hown : own map block)
    (hno : ∀ x, p₁.Hashed x → ¬ ((p₁.buf x).map = map ∧ (p₁.buf x).index = block)) :
    Coherent bucketOf devOf own val (loadBuffer bucketOf p₂ devOf id map block) ∧
      ((loadBuffer bucketOf p₂ devOf id map block).buf id).data = val map block := by
  set q := loadBuffer bucketOf p₂ devOf id map block with hq
  have hself : q.buf id = ⟨map, block, (p₂.buf id).count + 1, .clean, p₂.dev (devOf map) block⟩ :=
    loadBuffer_self
  have hother : ∀ x, x ≠ id → q.buf x = p₁.buf x := fun x hx =>
    (loadBuffer_other hx).trans (hsame x hx)
  have hqdev : q.dev = p₁.dev := hdev
  have huse : ∀ x, x ≠ id → (q.Hashed x ↔ p₁.Hashed x) := by
    intro x hx
    unfold Pool.Hashed
    rw [hother x hx]
  have hval : p₂.dev (devOf map) block = val map block := hdev ▸ h.absent map block hown hno
  refine ⟨⟨loadBuffer_linked devOf map block hready, fun x y hx hy hm hi => ?_, fun x => ?_,
    fun x hx => ?_, fun x hx => ?_, fun x hx => ?_, fun m i hmi hnone => ?_⟩, by rw [hself]; exact hval⟩
  · by_cases hxi : x = id
    · by_cases hyi : y = id
      · rw [hxi, hyi]
      · rw [hxi, hself, hother y hyi] at hm hi
        exact absurd ⟨hm.symm, hi.symm⟩ (hno y ((huse y hyi).mp hy))
    · by_cases hyi : y = id
      · rw [hyi, hself, hother x hxi] at hm hi
        exact absurd ⟨hm, hi⟩ (hno x ((huse x hxi).mp hx))
      · rw [hother x hxi, hother y hyi] at hm hi
        exact h.unique x y ((huse x hxi).mp hx) ((huse y hyi).mp hy) hm hi
  · by_cases hxi : x = id
    · subst hxi
      rw [hself]
      exact BufferState.noConfusion
    · rw [hother x hxi]
      exact h.loaded x
  · by_cases hxi : x = id
    · subst hxi
      rw [hself]
      exact hown
    · rw [hother x hxi]
      exact h.owned x ((huse x hxi).mp hx)
  · by_cases hxi : x = id
    · subst hxi
      rw [hself]
      exact hval
    · rw [hother x hxi]
      exact h.data x ((huse x hxi).mp hx)
  · rw [hqdev]
    by_cases hxi : x = id
    · subst hxi
      rw [hself]
      exact hdev ▸ hval
    · rw [hother x hxi] at hx ⊢
      exact h.disk x hx
  · rw [hqdev]
    refine h.absent m i hmi fun x hx hxm => ?_
    have hxi : x ≠ id := by
      rintro rfl
      exact hfree hx
    refine hnone x ((huse x hxi).mpr hx) ?_
    rw [hother x hxi]
    exact hxm

/-- A change of counts only, with the LRU list in another order. -/
theorem Coherent.touch {q : Pool Data} (h : Coherent bucketOf devOf own val p)
    (hsame : ∀ x, (q.buf x).map = (p.buf x).map ∧ (q.buf x).index = (p.buf x).index ∧
      (q.buf x).state = (p.buf x).state) (hdata : ∀ x, (q.buf x).data = (p.buf x).data)
    (hlinked : Linked bucketOf q) (hdev : q.dev = p.dev) : Coherent bucketOf devOf own val q := by
  have huse : ∀ x, q.Hashed x ↔ p.Hashed x := by
    intro x
    unfold Pool.Hashed
    rw [(hsame x).2.2]
  refine ⟨hlinked, fun x y hx hy hm hi => ?_, fun x => ?_, fun x hx => ?_, fun x hx => ?_,
    fun x hx => ?_, fun m i hmi hno => ?_⟩
  · rw [(hsame x).1, (hsame y).1] at hm
    rw [(hsame x).2.1, (hsame y).2.1] at hi
    exact h.unique x y ((huse x).mp hx) ((huse y).mp hy) hm hi
  · rw [(hsame x).2.2]
    exact h.loaded x
  · rw [(hsame x).1, (hsame x).2.1]
    exact h.owned x ((huse x).mp hx)
  · rw [hdata, (hsame x).1, (hsame x).2.1]
    exact h.data x ((huse x).mp hx)
  · rw [(hsame x).2.2] at hx
    rw [hdev, (hsame x).1, (hsame x).2.1]
    exact h.disk x hx
  · rw [hdev]
    refine h.absent m i hmi fun x hx hxm => hno x ((huse x).mpr hx) ?_
    rw [(hsame x).1, (hsame x).2.1]
    exact hxm

theorem Coherent.count {f : ℕ → ℕ} {lru : List ℕ} (h : Coherent bucketOf devOf own val p)
    (hid : p.Hashed id) (hlru : Lists lru p.Hashed) :
    Coherent bucketOf devOf own val { p with
      lru := lru
      buf := Function.update p.buf id { p.buf id with count := f (p.buf id).count } } := by
  have hsame : ∀ x, (Function.update p.buf id { p.buf id with count := f (p.buf id).count } x).map =
        (p.buf x).map ∧
      (Function.update p.buf id { p.buf id with count := f (p.buf id).count } x).index =
        (p.buf x).index ∧
      (Function.update p.buf id { p.buf id with count := f (p.buf id).count } x).state =
        (p.buf x).state ∧
      (Function.update p.buf id { p.buf id with count := f (p.buf id).count } x).data =
        (p.buf x).data := by
    intro x
    by_cases hx : x = id
    · subst hx
      rw [Function.update_self]
      exact ⟨rfl, rfl, rfl, rfl⟩
    · rw [Function.update_of_ne hx]
      exact ⟨rfl, rfl, rfl, rfl⟩
  exact h.touch (fun x => ⟨(hsame x).1, (hsame x).2.1, (hsame x).2.2.1⟩)
    (fun x => (hsame x).2.2.2) (h.linked.count hid hlru) rfl

theorem blockread_cases (hread : blockread bucketOf p devOf maxBuffers map block = some (p', id)) :
    ∃ q, blockget bucketOf p maxBuffers map block = some (q, id) ∧
      p' = if (q.buf id).state = .empty then devBlockio q devOf id false else q := by
  unfold Buffer.blockread at hread
  split at hread
  · cases hread
  · next q x hget =>
      split at hread
      · next he =>
          obtain ⟨rfl, rfl⟩ := Prod.mk.inj (Option.some.inj hread)
          exact ⟨q, hget, (if_pos he).symm⟩
      · next he =>
          obtain ⟨rfl, rfl⟩ := Prod.mk.inj (Option.some.inj hread)
          exact ⟨q, hget, (if_neg he).symm⟩

/-- `blockread` returns the contents last put in the block. -/
theorem Coherent.blockread (h : Coherent bucketOf devOf own val p) (hown : own map block)
    (hread : blockread bucketOf p devOf maxBuffers map block = some (p', id)) :
    Coherent bucketOf devOf own val p' ∧ (p'.buf id).data = val map block := by
  obtain ⟨q, hget, hp'⟩ := blockread_cases hread
  obtain ⟨b, hb, ⟨hfind, rfl⟩ | ⟨hfind, q₀, hnew, rfl⟩⟩ := blockget_cases hget
  · -- a buffer of the block
    have hindex : (p.buf id).index = block := by simpa using List.find?_some hfind
    obtain ⟨huse, hmap, -⟩ := ((h.linked.hash map _).2 id).mp (List.mem_of_find?_eq_some hfind)
    have hne : (p.buf id).state ≠ .empty := h.loaded id
    have hself := Function.update_self id { p.buf id with count := (p.buf id).count + 1 } p.buf
    rw [if_neg (by dsimp only; rw [hself]; exact hne)] at hp'
    subst hp'
    refine ⟨h.count (f := fun n => n + 1) huse (h.linked.lru.moveTail huse), ?_⟩
    dsimp only
    rw [hself]
    have hdata := h.data id huse
    rw [hmap, hindex] at hdata
    exact hdata
  · obtain ⟨p₁, p₂, hco, hev, hready, rfl, hsame, hfree, hdev, -⟩ := newBuffer_cases h hnew
    rw [if_pos (by simp [insertBufferHash, haveBuffer, setBufferState])] at hp'
    have hno : ∀ x, p₁.Hashed x → ¬ ((p₁.buf x).map = map ∧ (p₁.buf x).index = block) := by
      intro x hx hxm
      have heq : p₁.buf x = p.buf x := by
        rcases hev x with heq | ⟨-, -, heq⟩
        · exact heq
        · exact absurd (by rw [heq]) hx
      unfold Pool.Hashed at hx
      rw [heq] at hx hxm
      have hmem := ((h.linked.hash map b).2 x).mpr ⟨hx, hxm.1, hxm.2 ▸ hb⟩
      exact List.find?_eq_none.mp hfind x hmem (decide_eq_true hxm.2)
    have hload := hco.load hready hsame hfree hdev hown hno
    rw [hp']
    exact hload

/-! ## Changing and flushing -/

/-- A changed and dirty buffer is the contents of its block. -/
theorem Coherent.changeBuffer (h : Coherent bucketOf devOf own val p) (hid : p.Hashed id) (data : Data) :
    Coherent bucketOf devOf own (fun m i => if m = (p.buf id).map ∧ i = (p.buf id).index then data
      else val m i) (changeBuffer p id data) := by
  set q := Buffer.changeBuffer p id data with hq
  set p₁ : Pool Data := { p with buf := Function.update p.buf id { p.buf id with data := data } }
    with hp₁
  have h₁self : p₁.buf id = { p.buf id with data := data } := Function.update_self _ _ _
  have h₁other : ∀ x, x ≠ id → p₁.buf x = p.buf x := fun x hx => Function.update_of_ne hx _ _
  have h₁linked : Linked bucketOf p₁ := h.linked.setData hid data
  have h₁use : p₁.Hashed id := by
    unfold Pool.Hashed
    rw [h₁self]
    exact hid
  have hqp : q = if (p₁.buf id).state = .dirty then p₁ else setBufferState p₁ id .dirty := rfl
  have hlinked : Linked bucketOf q := by
    rw [hqp]
    split
    · exact h₁linked
    · exact setBufferState_linked h₁linked h₁use BufferState.noConfusion
  have hself : q.buf id = { p.buf id with data := data, state := .dirty } := by
    rw [hqp]
    split
    · next hd =>
        rw [h₁self] at hd ⊢
        rw [← hd]
    · rw [setBufferState_self, h₁self]
  have hother : ∀ x, x ≠ id → q.buf x = p.buf x := by
    intro x hx
    rw [hqp]
    split
    · exact h₁other x hx
    · exact (setBufferState_other hx).trans (h₁other x hx)
  have hdev : q.dev = p.dev := by
    rw [hqp]
    split <;> rfl
  have huse : ∀ x, q.Hashed x ↔ p.Hashed x := by
    intro x
    by_cases hx : x = id
    · subst hx
      exact iff_of_true (hashed_of_dirty (by rw [hself])) hid
    · unfold Pool.Hashed
      rw [hother x hx]
  -- another buffer in use is of another block
  have hblock : ∀ x, x ≠ id → p.Hashed x →
      ¬ ((p.buf x).map = (p.buf id).map ∧ (p.buf x).index = (p.buf id).index) :=
    fun x hx hux heq => hx (h.unique x id hux hid heq.1 heq.2)
  have hplace : ∀ x, (q.buf x).map = (p.buf x).map ∧ (q.buf x).index = (p.buf x).index := by
    intro x
    by_cases hx : x = id
    · subst hx
      rw [hself]
      exact ⟨rfl, rfl⟩
    · rw [hother x hx]
      exact ⟨rfl, rfl⟩
  refine ⟨hlinked, fun x y hx hy hm hi => ?_, fun x => ?_, fun x hx => ?_, fun x hx => ?_,
    fun x hx => ?_, fun m i hmi hno => ?_⟩
  · rw [(hplace x).1, (hplace y).1] at hm
    rw [(hplace x).2, (hplace y).2] at hi
    exact h.unique x y ((huse x).mp hx) ((huse y).mp hy) hm hi
  · by_cases hx : x = id
    · subst hx
      rw [hself]
      exact BufferState.noConfusion
    · rw [hother x hx]
      exact h.loaded x
  · rw [(hplace x).1, (hplace x).2]
    exact h.owned x ((huse x).mp hx)
  · rw [(hplace x).1, (hplace x).2]
    by_cases hxi : x = id
    · subst hxi
      rw [hself, if_pos ⟨rfl, rfl⟩]
    · rw [hother x hxi, if_neg (hblock x hxi ((huse x).mp hx))]
      exact h.data x ((huse x).mp hx)
  · have hxi : x ≠ id := by
      rintro rfl
      rw [hself] at hx
      cases hx
    have hux := (huse x).mp (hashed_of_clean hx)
    rw [hother x hxi] at hx ⊢
    rw [hdev, if_neg (hblock x hxi hux)]
    exact h.disk x hx
  · rw [hdev, if_neg fun heq => hno id ((huse id).mpr hid) ?_]
    · refine h.absent m i hmi fun x hx hxm => hno x ((huse x).mpr hx) ?_
      rw [(hplace x).1, (hplace x).2]
      exact hxm
    · rw [(hplace id).1, (hplace id).2]
      exact ⟨heq.1.symm, heq.2.symm⟩

/-- Writing a dirty buffer puts its contents on the device, where no other map has a block. -/
theorem Coherent.writeBuffer (h : Coherent bucketOf devOf own val p)
    (hexcl : ∀ m m' i, own m i → own m' i → devOf m = devOf m' → m = m')
    (hdirty : (p.buf id).state = .dirty) :
    Coherent bucketOf devOf own val (devBlockio p devOf id true) := by
  set q := devBlockio p devOf id true with hq
  have hid : p.Hashed id := hashed_of_dirty hdirty
  have hself : q.buf id = { p.buf id with state := .clean } := setBufferState_self
  have hother : ∀ x, x ≠ id → q.buf x = p.buf x := fun x hx => setBufferState_other hx
  have hdev : ∀ d i, q.dev d i = if d = devOf (p.buf id).map ∧ i = (p.buf id).index
      then val (p.buf id).map (p.buf id).index else p.dev d i := by
    intro d i
    change Function.update p.dev _ (Function.update (p.dev _) _ _) d i = _
    by_cases hd : d = devOf (p.buf id).map
    · subst hd
      rw [Function.update_self]
      by_cases hi : i = (p.buf id).index
      · subst hi
        rw [Function.update_self, if_pos ⟨rfl, rfl⟩]
        exact h.data id hid
      · rw [Function.update_of_ne hi, if_neg fun hno => hi hno.2]
    · rw [Function.update_of_ne hd, if_neg fun hno => hd hno.1]
  have hlinked : Linked bucketOf q := by
    refine setBufferState_linked ?_ hid BufferState.noConfusion
    exact h.linked.touch (fun _ => ⟨rfl, rfl, rfl⟩) h.linked.idle rfl rfl h.linked.lru rfl rfl
  have hplace : ∀ x, (q.buf x).map = (p.buf x).map ∧ (q.buf x).index = (p.buf x).index ∧
      (q.buf x).data = (p.buf x).data := by
    intro x
    by_cases hx : x = id
    · subst hx
      rw [hself]
      exact ⟨rfl, rfl, rfl⟩
    · rw [hother x hx]
      exact ⟨rfl, rfl, rfl⟩
  have huse : ∀ x, q.Hashed x ↔ p.Hashed x := by
    intro x
    by_cases hx : x = id
    · subst hx
      exact iff_of_true (hashed_of_clean (by rw [hself])) hid
    · unfold Pool.Hashed
      rw [hother x hx]
  refine ⟨hlinked, fun x y hx hy hm hi => ?_, fun x => ?_, fun x hx => ?_, fun x hx => ?_,
    fun x hx => ?_, fun m i hmi hno => ?_⟩
  · rw [(hplace x).1, (hplace y).1] at hm
    rw [(hplace x).2.1, (hplace y).2.1] at hi
    exact h.unique x y ((huse x).mp hx) ((huse y).mp hy) hm hi
  · by_cases hx : x = id
    · subst hx
      rw [hself]
      exact BufferState.noConfusion
    · rw [hother x hx]
      exact h.loaded x
  · rw [(hplace x).1, (hplace x).2.1]
    exact h.owned x ((huse x).mp hx)
  · rw [(hplace x).1, (hplace x).2.1, (hplace x).2.2]
    exact h.data x ((huse x).mp hx)
  · rw [(hplace x).1, (hplace x).2.1, hdev]
    have hux := (huse x).mp (hashed_of_clean hx)
    split
    · next heq =>
        -- the same block of the device: the same map, so the same buffer
        have hown := h.owned x hux
        rw [heq.2] at hown
        have hmap := hexcl _ _ _ hown (h.owned id hid) heq.1
        rw [hmap, heq.2]
    · next hne =>
        have hxi : x ≠ id := by
          rintro rfl
          exact hne ⟨rfl, rfl⟩
        rw [hother x hxi] at hx
        exact h.disk x hx
  · rw [hdev, if_neg fun heq => ?_]
    · refine h.absent m i hmi fun x hx hxm => hno x ((huse x).mpr hx) ?_
      rw [(hplace x).1, (hplace x).2.1]
      exact hxm
    · have hown := h.owned id hid
      rw [← heq.2] at hown
      have hmap := hexcl _ _ _ hmi hown heq.1
      refine hno id ((huse id).mpr hid) ?_
      rw [(hplace id).1, (hplace id).2.1]
      exact ⟨hmap.symm, heq.2.symm⟩

theorem Coherent.flushList (h : Coherent bucketOf devOf own val p)
    (hexcl : ∀ m m' i, own m i → own m' i → devOf m = devOf m' → m = m') (map fuel : ℕ) :
    Coherent bucketOf devOf own val (flushList devOf map fuel p) := by
  induction fuel generalizing p with
  | zero => exact h
  | succ fuel ih =>
      rw [Buffer.flushList]
      split
      · exact h
      · next x rest hlist =>
          have hdirty := ((h.linked.dirty map).2 x).mp (hlist ▸ List.mem_cons_self)
          exact ih (h.writeBuffer hexcl hdirty.1)

/-! ## Runs -/

/-- The sequences of `blockread`, changes of held buffers, `blockput` and `flush_buffers` on maps
over devices with given contents, with the data last put in each block of each map. `own` says
which blocks each map is used for. -/
inductive Run (bucketOf : ℕ → Option ℕ) (devOf : ℕ → ℕ) (own : ℕ → ℕ → Prop) (maxBuffers : ℕ)
    (dev : ℕ → ℕ → Data) :
    Pool Data → (ℕ → ℕ → Option Data) → Prop where
  | start (memory : ℕ → Data) :
      Run bucketOf devOf own maxBuffers dev ⟨fun id => ⟨0, 0, 0, .freed, memory id⟩, 0, [], fun _ => [],
        fun _ _ => [], [], 0, dev⟩ fun _ _ => none
  | read {p p' : Pool Data} {last : ℕ → ℕ → Option Data} {id : ℕ} (map block : ℕ)
      (h : Run bucketOf devOf own maxBuffers dev p last) (hown : own map block)
      (hread : blockread bucketOf p devOf maxBuffers map block = some (p', id)) :
      Run bucketOf devOf own maxBuffers dev p' last
  | change {p : Pool Data} {last : ℕ → ℕ → Option Data} (id : ℕ) (data : Data)
      (h : Run bucketOf devOf own maxBuffers dev p last) (hheld : 0 < (p.buf id).count) :
      Run bucketOf devOf own maxBuffers dev (changeBuffer p id data)
        (fun m i => if m = (p.buf id).map ∧ i = (p.buf id).index then some data else last m i)
  | put {p p' : Pool Data} {last : ℕ → ℕ → Option Data} (id : ℕ)
      (h : Run bucketOf devOf own maxBuffers dev p last) (hput : blockput p id = some p') :
      Run bucketOf devOf own maxBuffers dev p' last
  | flush {p : Pool Data} {last : ℕ → ℕ → Option Data} (map : ℕ)
      (h : Run bucketOf devOf own maxBuffers dev p last) :
      Run bucketOf devOf own maxBuffers dev (flushBuffers p devOf map) last

/-- The blocks that the maps are used for do not overlap on a device. -/
def Disjoint (devOf : ℕ → ℕ) (own : ℕ → ℕ → Prop) : Prop :=
  ∀ m m' i, own m i → own m' i → devOf m = devOf m' → m = m'

variable {dev : ℕ → ℕ → Data} {last : ℕ → ℕ → Option Data}

theorem run_coherent (hown : Disjoint devOf own) (h : Run bucketOf devOf own maxBuffers dev p last) :
    Coherent bucketOf devOf own (fun m i => (last m i).getD (dev (devOf m) i)) p := by
  induction h with
  | start memory =>
      have hfree : ∀ x, ¬ Pool.Hashed (⟨fun id => ⟨0, 0, 0, .freed, memory id⟩, 0, [], fun _ => [],
          fun _ _ => [], [], 0, dev⟩ : Pool Data) x := fun x => not_hashed rfl
      have hnil : ∀ P : ℕ → Prop, (∀ x, ¬ P x) → Lists [] P :=
        fun P hP => ⟨List.nodup_nil, fun x => iff_of_false List.not_mem_nil (hP x)⟩
      refine ⟨⟨fun m b => hnil _ fun x hx => hfree x hx.1, hnil _ hfree,
        hnil _ fun x hx => Nat.not_lt_zero x hx.1, fun m => hnil _ fun x hx => ?_, fun x _ => hfree x,
        fun _ _ => rfl⟩, fun x y hx => absurd hx (hfree x), fun x => BufferState.noConfusion,
        fun x hx => absurd hx (hfree x), fun x hx => absurd hx (hfree x), fun x hx => ?_,
        fun _ _ _ _ => rfl⟩
      · cases hx.1
      · cases hx
  | read map block h hmi hread ih => exact (ih.blockread hmi hread).1
  | @change p last id data h hheld ih =>
      have hid : p.Hashed id := by
        by_contra hno
        rw [ih.linked.idle id hno] at hheld
        exact Nat.lt_irrefl 0 hheld
      have hch := ih.changeBuffer hid data
      have hval : (fun m i => if m = (p.buf id).map ∧ i = (p.buf id).index then data
          else (last m i).getD (dev (devOf m) i)) = fun m i =>
          ((if m = (p.buf id).map ∧ i = (p.buf id).index then some data
            else last m i).getD (dev (devOf m) i)) := by
        funext m i
        split <;> rfl
      exact hval ▸ hch
  | @put p p' last id h hput ih =>
      unfold blockput at hput
      dsimp only at hput
      split at hput
      · cases hput
      · next hcount =>
          have hid : p.Hashed id := by
            by_contra hno
            exact hcount (ih.linked.idle id hno)
          obtain rfl := Option.some.inj hput
          exact ih.count (f := fun n => n - 1) hid ih.linked.lru
  | flush map h ih => exact ih.flushList hown map _

/-- In every state of every run whose maps do not overlap: a successful `blockread` returns the data
last put in the block or the initial contents of the device, a block has at most one buffer, and
`new_buffer` takes no buffer that is dirty or held. -/
theorem cache_coherent (hown : Disjoint devOf own) (h : Run bucketOf devOf own maxBuffers dev p last) :
    (∀ m i p' id, own m i → blockread bucketOf p devOf maxBuffers m i = some (p', id) →
      (p'.buf id).data = (last m i).getD (dev (devOf m) i)) ∧
    (∀ m b m' b' x y, x ∈ p.hash m b → y ∈ p.hash m' b' → (p.buf x).map = (p.buf y).map →
      (p.buf x).index = (p.buf y).index → x = y) ∧
    ∀ m p' id, newBuffer p maxBuffers m = some (p', id) →
      (0 < (p.buf id).count ∨ (p.buf id).state = .dirty → False) ∧
      ∀ x, x ≠ id → 0 < (p.buf x).count ∨ (p.buf x).state = .dirty → p'.buf x = p.buf x := by
  have hco := run_coherent hown h
  refine ⟨fun m i p' id hmi hread => (hco.blockread hmi hread).2,
    fun m b m' b' x y hx hy hm hi => ?_, fun m p' id hnew => ?_⟩
  · exact hco.unique x y (((hco.linked.hash m b).2 x).mp hx).1 (((hco.linked.hash m' b').2 y).mp hy).1
      hm hi
  · obtain ⟨p₁, p₂, -, hev, -, rfl, hsame, hfree, -, -⟩ := newBuffer_cases hco hnew
    have hkeep : ∀ x, 0 < (p.buf x).count ∨ (p.buf x).state = .dirty → p₁.buf x = p.buf x := by
      intro x hx
      rcases hev x with heq | ⟨hclean, hcount, -⟩
      · exact heq
      · rcases hx with hx | hx
        · exact absurd hx (hcount ▸ Nat.lt_irrefl 0)
        · rw [hclean] at hx
          cases hx
    refine ⟨fun hx => ?_, fun x hxi hx => ?_⟩
    · have hno : ¬ p.Hashed id := by
        intro hu
        unfold Pool.Hashed at hfree hu
        rw [hkeep id hx] at hfree
        exact hfree hu
      rcases hx with hx | hx
      · rw [hco.linked.idle id hno] at hx
        exact Nat.lt_irrefl 0 hx
      · exact hno (hashed_of_dirty hx)
    · rw [← hkeep x hx, ← hsame x hxi]
      simp [haveBuffer, setBufferState, Function.update_of_ne hxi]

end

/-- A block is read, changed, released and flushed, another one is read, and the first is read
again. -/
theorem cache_coherent_flushed : ∃ (p p' : Pool ℕ) (last : ℕ → ℕ → Option ℕ) (id : ℕ),
    Run hashBucket (fun m => m) (fun _ _ => True) 100 (fun _ _ => 7) p last ∧
      last 0 0 = some 3 ∧ p.dev 0 0 = 3 ∧
      blockread hashBucket p (fun m => m) 100 0 0 = some (p', id) ∧ (p'.buf id).data = 3 := by
  have hread : Run hashBucket (fun m => m) (fun _ _ => True) 100 (fun _ _ => 7) _ _ :=
    Run.read 0 0 (Run.start fun _ => 0) trivial rfl
  have hput := Run.put 0 (Run.change 0 3 hread (by decide)) rfl
  have hrun := Run.put 1 (Run.read 1 0 (Run.flush 0 hput) trivial rfl) rfl
  obtain ⟨hcoherent, -⟩ := cache_coherent (fun _ _ _ _ _ h => h) hrun
  exact ⟨_, _, _, _, hrun, rfl, rfl, rfl, hcoherent 0 0 _ _ trivial rfl⟩

/-- Three maps on one device: the second reads the old contents of the block that the first has
changed, and after the flush of the first the third reads contents that were never put through it. -/
theorem shared_device_stale : ∃ (p : Pool ℕ) (last : ℕ → ℕ → Option ℕ) (p' : Pool ℕ) (id : ℕ)
      (q : Pool ℕ) (q' : Pool ℕ) (id' : ℕ),
    Run hashBucket (fun _ => 0) (fun _ _ => True) 100 (fun _ _ => 0) p last ∧
      last 0 0 = some 1 ∧ blockread hashBucket p (fun _ => 0) 100 1 0 = some (p', id) ∧
      (p'.buf id).data = 0 ∧
      Run hashBucket (fun _ => 0) (fun _ _ => True) 100 (fun _ _ => 0) q last ∧
      last 2 0 = none ∧ blockread hashBucket q (fun _ => 0) 100 2 0 = some (q', id') ∧
      (q'.buf id').data = 1 := by
  have hstart : Run hashBucket (fun _ => 0) (fun _ _ => True) 100 (fun _ _ => 0) _ _ :=
    Run.start fun _ => 0
  have hread := Run.read 0 0 hstart trivial rfl
  have hchange := Run.change 0 1 hread (by decide)
  have hflush := Run.flush 0 hchange
  exact ⟨_, _, _, _, _, _, _, hchange, rfl, rfl, rfl, hflush, rfl, rfl, rfl⟩

end Tux3.Buffer
