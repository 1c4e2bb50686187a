import Tux3.Filemap

/-!
# The transfers of a region

`filemap_extent_io` goes through its region with an `int`. Each round takes the buffer of the index
that the `int` stands for, and makes it clean.
-/
namespace Tux3.Filemap

open Buffer MapRegion TreeChop

/-! ## Indexes -/

section
variable {i j start : ℕ}

theorem intIndex_eq : intIndex (BitVec.ofNat 32 i) =
    if i % 2 ^ 32 < 2 ^ 31 then i % 2 ^ 32 else i % 2 ^ 32 + (2 ^ 64 - 2 ^ 32) := by
  rw [intIndex, BitVec.toNat_signExtend, BitVec.toNat_setWidth, BitVec.toNat_ofNat,
    BitVec.msb_eq_decide, BitVec.toNat_ofNat]
  split
  · next hmsb =>
      have hge := of_decide_eq_true hmsb
      rw [if_neg (by omega)]
      omega
  · next hmsb =>
      have hlt := of_decide_eq_false (Bool.eq_false_of_not_eq_true hmsb)
      rw [if_pos (by omega)]
      omega

theorem intIndex_small (h : i < 2 ^ 31) : intIndex (BitVec.ofNat 32 i) = i := by
  rw [intIndex_eq, if_pos (by omega)]
  omega

theorem intIndex_near {b : ℕ} (hb : b < 2 ^ 48) (hlow : i < b + 64) (hhigh : b < i + 64)
    (heq : intIndex (BitVec.ofNat 32 i) = b) : i = b := by
  rw [intIndex_eq] at heq
  split at heq
  · omega
  · omega

theorem intIndex_outside (hstart : start < 2 ^ 48) (hlow : start ≤ i) (hhigh : i < start + 64)
    (hlarge : 2 ^ 31 ≤ i) : intIndex (BitVec.ofNat 32 i) < start ∨
      start + 64 ≤ intIndex (BitVec.ofNat 32 i) := by
  rw [intIndex_eq]
  split
  · omega
  · omega

end

/-! ## The loops -/

section
variable {Data : Type} {bucketOf : ℕ → Option ℕ} {zero : Data} {maxBuffers dev map start : ℕ}
  {write : Bool} {I : ℕ → Io Data → Prop} {io io' : Io Data} {s : Seg} {segs : List Seg}

theorem transferSeg_rule {index j left : ℕ}
    (hstep : ∀ j < s.count, ∀ io io', I (index + j) io →
      transferBlock bucketOf zero maxBuffers dev map write s (BitVec.ofNat 32 index) j io =
        some io' → I (index + j + 1) io')
    (hleft : j + left = s.count) (h : I (index + j) io)
    (hrun : transferSeg bucketOf zero maxBuffers dev map write s (BitVec.ofNat 32 index) left j io =
      some io') : I (index + s.count) io' := by
  induction left generalizing j io with
  | zero =>
      cases hrun
      rwa [← hleft]
  | succ left ih =>
      obtain ⟨io₁, hone, hrest⟩ := Option.bind_eq_some_iff.mp hrun
      exact ih (by omega) (hstep j (by omega) io io₁ h hone) hrest

theorem transferSegs_rule
    (hstep : ∀ x ∈ placed start segs, ∀ j < x.2.count, ∀ io io', I (x.1 + j) io →
      transferBlock bucketOf zero maxBuffers dev map write x.2 (BitVec.ofNat 32 x.1) j io =
        some io' → I (x.1 + j + 1) io')
    (h : I start io)
    (hrun : transferSegs bucketOf zero maxBuffers dev map write (BitVec.ofNat 32 start) segs io =
      some io') : I (start + total segs) io' := by
  induction segs generalizing start io with
  | nil =>
      cases hrun
      exact h
  | cons s segs ih =>
      obtain ⟨io₁, hone, hrest⟩ := Option.bind_eq_some_iff.mp hrun
      rw [placed_cons] at hstep
      have hseg := transferSeg_rule (hstep (start, s) List.mem_cons_self) (Nat.zero_add _) h hone
      rw [← BitVec.ofNat_add] at hrest
      rw [total_cons, ← Nat.add_assoc]
      exact ih (fun x hx => hstep x (List.mem_cons_of_mem _ hx)) hseg hrest

/-! ## One transfer -/

theorem setBufferClean_eq {p q : Pool Data} {id : ℕ} (h : setBufferClean p id = some q) :
    (p.buf id).state ≠ .clean ∧ q = setBufferState p id .clean := by
  unfold setBufferClean at h
  split at h
  · cases h
  · next hstate => exact ⟨hstate, (Option.some.inj h).symm⟩

theorem blockput_eq {p q : Pool Data} {id : ℕ} (h : blockput p id = some q) :
    q = { p with
      buf := Function.update p.buf id { p.buf id with count := (p.buf id).count - 1 } } := by
  unfold blockput at h
  dsimp only at h
  split at h
  · cases h
  · exact (Option.some.inj h).symm

/-- The data that a transfer moves. -/
structure Moved (zero : Data) (dev : ℕ) (write : Bool) (s : Seg) (j : ℕ) (q p' : Pool Data)
    (id : ℕ) : Prop where
  other : ∀ x, x ≠ id → p'.buf x = q.buf x
  map : (p'.buf id).map = (q.buf id).map
  index : (p'.buf id).index = (q.buf id).index
  written : write = true → (p'.buf id).data = (q.buf id).data ∧
    p'.dev = Function.update q.dev dev (Function.update (q.dev dev) (s.block + j) (q.buf id).data)
  read : write = false → p'.dev = q.dev ∧
    (p'.buf id).data = if s.state = .hole then zero else q.dev dev (s.block + j)

theorem setData_self {p : Pool Data} {id : ℕ} {data : Data} :
    (setData p id data).buf id = { p.buf id with data := data } := Function.update_self _ _ _

theorem setData_other {p : Pool Data} {id x : ℕ} {data : Data} (hx : x ≠ id) :
    (setData p id data).buf x = p.buf x := Function.update_of_ne hx _ _

theorem moveData_read {q : Pool Data} {id j : ℕ} : moveData zero dev false s j q id =
    setData q id (if s.state = .hole then zero else q.dev dev (s.block + j)) := by
  unfold moveData target
  by_cases hhole : s.state = .hole
  · rw [if_pos ⟨rfl, hhole⟩, if_pos hhole]
  · rw [if_neg fun hno => hhole hno.2, if_neg hhole]
    rfl

theorem moveData_spec {q : Pool Data} {id j : ℕ} (h : Linked bucketOf q) (hid : q.Hashed id) :
    Moved zero dev write s j q (moveData zero dev write s j q id) id ∧
      ((moveData zero dev write s j q id).buf id).count = (q.buf id).count ∧
      ((moveData zero dev write s j q id).buf id).state = (q.buf id).state ∧
      Linked bucketOf (moveData zero dev write s j q id) := by
  cases write with
  | true =>
      unfold moveData target
      rw [if_neg (fun hno => absurd hno.1 (by decide))]
      refine ⟨⟨fun _ _ => rfl, rfl, rfl, fun _ => ⟨rfl, rfl⟩, fun hno => absurd hno (by decide)⟩,
        rfl, rfl, ?_⟩
      exact h.touch (fun _ => ⟨rfl, rfl, rfl⟩) h.idle rfl rfl h.lru rfl rfl
  | false =>
      rw [moveData_read]
      refine ⟨⟨fun x hx => setData_other hx, ?_, ?_, fun hno => absurd hno (by decide),
        fun _ => ⟨rfl, ?_⟩⟩, ?_, ?_, h.setData hid _⟩
      all_goals rw [setData_self]

/-- A transfer makes its buffer clean, and puts it. -/
theorem transferBlock_spec {i j : ℕ} (h : Linked bucketOf io.pool)
    (hrun : transferBlock bucketOf zero maxBuffers dev map write s (BitVec.ofNat 32 i) j io =
      some io') :
    ∃ q id, Got io.pool q map (intIndex (BitVec.ofNat 32 (i + j))) id ∧ q.dev = io.pool.dev ∧
      Linked bucketOf q ∧ (q.buf id).state ≠ .clean ∧ Moved zero dev write s j q io'.pool id ∧
      (io'.pool.buf id).state = .clean ∧ (io'.pool.buf id).count = (q.buf id).count - 1 ∧
      Linked bucketOf io'.pool ∧ io'.transfers =
        io.transfers ++ [⟨intIndex (BitVec.ofNat 32 (i + j)), id, target write s j⟩] := by
  rw [BitVec.ofNat_add]
  unfold transferBlock at hrun
  split at hrun
  · cases hrun
  · next q id hget =>
      obtain ⟨hlinked, hdev, hgot⟩ := h.get hget
      have hid := hgot.hashed
      obtain ⟨hmoved, hcount, hstate, hlinked'⟩ :=
        @moveData_spec Data bucketOf zero dev write s q id j hlinked hid
      split at hrun
      · cases hrun
      · next q' hclean =>
          obtain ⟨p', hput, rfl⟩ := Option.map_eq_some_iff.mp hrun
          obtain ⟨hdirty, rfl⟩ := setBufferClean_eq hclean
          have hput := blockput_eq hput
          generalize moveData zero dev write s j q id = r at *
          have hself : p'.buf id = { r.buf id with
              state := .clean
              count := (q.buf id).count - 1 } := by
            rw [hput]
            dsimp only
            rw [Function.update_self, setBufferState_self, hcount]
          have hother : ∀ x, x ≠ id → p'.buf x = r.buf x := by
            intro x hx
            rw [hput]
            dsimp only
            rw [Function.update_of_ne hx, setBufferState_other hx]
          have hrid : r.Hashed id := by
            unfold Pool.Hashed at hid ⊢
            rwa [hstate]
          have hclean' : (setBufferState r id .clean).Hashed id :=
            hashed_of_clean (by rw [setBufferState_self])
          have hset : Linked bucketOf (setBufferState r id .clean) :=
            setBufferState_linked hlinked' hrid BufferState.noConfusion
          refine ⟨q, id, hgot, hdev, hlinked, hstate ▸ hdirty,
            ⟨fun x hx => ?_, ?_, ?_, fun hw => ?_, fun hr => ?_⟩,
            by rw [hself], by rw [hself], ?_, rfl⟩
          · rw [hother x hx, hmoved.other x hx]
          · rw [hself]
            exact hmoved.map
          · rw [hself]
            exact hmoved.index
          · rw [hself]
            have hpdev : p'.dev = r.dev := by rw [hput]; rfl
            rw [hpdev]
            exact hmoved.written hw
          · rw [hself]
            have hpdev : p'.dev = r.dev := by rw [hput]; rfl
            rw [hpdev]
            exact hmoved.read hr
          · rw [hput]
            exact hset.count hclean' hset.lru

theorem IsBuffer.eq {p : Pool Data} {k k' id : ℕ} (h : IsBuffer p map k id)
    (h' : IsBuffer p map k' id) : k = k' := h.2.2.symm.trans h'.2.2

theorem IsBuffer.congr {p q : Pool Data} {k id : ℕ} (h : IsBuffer p map k id)
    (heq : q.buf id = p.buf id) : IsBuffer q map k id := by
  unfold IsBuffer Pool.Hashed at *
  rwa [heq]

section
variable {p q p' : Pool Data} {k id j : ℕ} (hgot : Got p q map k id)
include hgot

theorem isBuffer_of_got : IsBuffer q map k id := by
  refine ⟨hgot.hashed, ?_⟩
  cases hgot with
  | found hid hmap hindex hbuf =>
      rw [hbuf, Function.update_self]
      exact ⟨hmap, hindex⟩
  | new hnone hself hfree hother =>
      obtain ⟨data, heq⟩ := hself
      rw [heq]
      exact ⟨rfl, rfl⟩

theorem Cached.got (hcached : Cached bucketOf map p) (hlinked : Linked bucketOf q) :
    Cached bucketOf map q := by
  -- another buffer is of another block
  have hback : ∀ y k', y ≠ id → IsBuffer q map k' y → IsBuffer p map k' y ∧ k' ≠ k := by
    intro y k' hy hin
    have hsame : IsBuffer p map k' y :=
      hin.congr ((hgot.outside y hy).resolve_right fun hno => hno.2.2 hin.1).symm
    refine ⟨hsame, ?_⟩
    rintro rfl
    cases hgot with
    | found hid hmap hindex hbuf => exact hy (hcached.same hsame ⟨hid, hmap, hindex⟩)
    | new hnone hself hfree hother => exact hnone y hsame.1 hsame.2.1 hsame.2.2
  refine ⟨hlinked, fun y z hy hz hymap hzmap hindex => ?_⟩
  have hy : IsBuffer q map (q.buf y).index y := ⟨hy, hymap, rfl⟩
  have hz : IsBuffer q map (q.buf y).index z := ⟨hz, hzmap, hindex.symm⟩
  by_cases hyid : y = id
  · by_cases hzid : z = id
    · rw [hyid, hzid]
    · exact absurd (hy.eq (hyid ▸ (isBuffer_of_got hgot))) (hback z _ hzid hz).2
  · by_cases hzid : z = id
    · exact absurd (hz.eq (hzid ▸ (isBuffer_of_got hgot))) (hback y _ hyid hy).2
    · exact hcached.same (hback y _ hyid hy).1 (hback z _ hzid hz).1

variable (hmoved : Moved zero dev write s j q p' id)
include hmoved

theorem Moved.isBuffer (hclean : (p'.buf id).state = .clean) : IsBuffer p' map k id :=
  ⟨hashed_of_clean hclean, hmoved.map.trans (isBuffer_of_got hgot).2.1,
    hmoved.index.trans (isBuffer_of_got hgot).2.2⟩

theorem Moved.cached (hcached : Cached bucketOf map p) (hq : Linked bucketOf q)
    (hlinked : Linked bucketOf p') : Cached bucketOf map p' := by
  have hback : ∀ y k', IsBuffer p' map k' y → IsBuffer q map k' y := by
    intro y k' hy
    by_cases hyid : y = id
    · rw [hyid] at hy ⊢
      exact ⟨hgot.hashed, hmoved.map ▸ hy.2.1, hmoved.index ▸ hy.2.2⟩
    · exact hy.congr (hmoved.other y hyid).symm
  exact ⟨hlinked, fun y z hy hz hymap hzmap hindex => (hcached.got hgot hq).same
    (hback y _ ⟨hy, hymap, rfl⟩) (hback z _ ⟨hz, hzmap, hindex.symm⟩)⟩

end

/-- The transfers are those of the blocks of the segments, in order. -/
structure Logged (write : Bool) (start : ℕ) (segs : List Seg) (i : ℕ) (transfers : List Transfer) :
    Prop where
  all : ∀ k, start ≤ k → k < i → ∃ tr ∈ transfers, tr.index = intIndex (BitVec.ofNat 32 k)
  origin : ∀ tr ∈ transfers, ∃ x ∈ placed start segs, ∃ j < x.2.count, x.1 + j < i ∧
    tr.index = intIndex (BitVec.ofNat 32 (x.1 + j)) ∧ tr.block = target write x.2 j

theorem Logged.nil : Logged write start segs start [] :=
  ⟨fun _ hge hlt => absurd hlt (Nat.not_lt.mpr hge), fun _ htr => absurd htr List.not_mem_nil⟩

theorem Logged.snoc {j id : ℕ} {x : ℕ × Seg} {transfers : List Transfer}
    (h : Logged write start segs (x.1 + j) transfers) (hx : x ∈ placed start segs)
    (hj : j < x.2.count) : Logged write start segs (x.1 + j + 1)
      (transfers ++ [⟨intIndex (BitVec.ofNat 32 (x.1 + j)), id, target write x.2 j⟩]) := by
  refine ⟨fun k hge hlt => ?_, fun tr htr => ?_⟩
  · rcases Nat.lt_or_eq_of_le (Nat.le_of_lt_succ hlt) with hlt | rfl
    · obtain ⟨tr, htr, heq⟩ := h.all k hge hlt
      exact ⟨tr, List.mem_append_left _ htr, heq⟩
    · exact ⟨_, List.mem_append_right _ List.mem_cons_self, rfl⟩
  · rcases List.mem_append.mp htr with htr | htr
    · obtain ⟨y, hy, j', hj', hlt, hrest⟩ := h.origin tr htr
      exact ⟨y, hy, j', hj', Nat.lt_succ_of_lt hlt, hrest⟩
    · rw [List.mem_singleton.mp htr]
      exact ⟨x, hx, j, hj, Nat.lt_succ_self _, rfl, rfl⟩

theorem transferSegs_logged {p : Pool Data} (h : Linked bucketOf p)
    (hrun : transferSegs bucketOf zero maxBuffers dev map write (BitVec.ofNat 32 start) segs
      ⟨p, []⟩ = some io) : Logged write start segs (start + total segs) io.transfers := by
  have hall := transferSegs_rule
    (I := fun i io => Linked bucketOf io.pool ∧ Logged write start segs i io.transfers)
    (fun x hx j hj io io' hio hstep => by
      obtain ⟨q, id, -, -, -, -, -, -, -, hlinked, htransfers⟩ := transferBlock_spec hio.1 hstep
      rw [htransfers]
      exact ⟨hlinked, hio.2.snoc hx hj⟩) ⟨h, Logged.nil⟩ hrun
  exact hall.2

/-! ## Writing -/

/-- The transfers of a region whose blocks all have a buffer, up to an index. -/
structure Writing (bucketOf : ℕ → Option ℕ) (dev map start : ℕ) (segs : List Seg) (p : Pool Data)
    (i : ℕ) (io : Io Data) : Prop where
  linked : Linked bucketOf io.pool
  all : ∀ k, start ≤ k → k < i → ∃ tr ∈ io.transfers, tr.index = k
  log : ∀ tr ∈ io.transfers, tr.index < i ∧ IsBuffer p map tr.index tr.id ∧
    (p.buf tr.id).state ≠ .clean ∧ IsBuffer io.pool map tr.index tr.id ∧
    (io.pool.buf tr.id).state = .clean ∧ (io.pool.buf tr.id).data = (p.buf tr.id).data
  blocks : ∀ tr ∈ io.transfers, ∃ x ∈ placed start segs, ∃ j < x.2.count, tr.index = x.1 + j ∧
    tr.block = some (x.2.block + j) ∧ io.pool.dev dev (x.2.block + j) = (p.buf tr.id).data
  kept : ∀ x, (∀ tr ∈ io.transfers, tr.id ≠ x) → io.pool.buf x = p.buf x
  disk : ∀ d block, (d = dev → ∀ tr ∈ io.transfers, tr.block ≠ some block) →
    io.pool.dev d block = p.dev d block

theorem Writing.step {p : Pool Data} {x : ℕ × Seg} {j : ℕ} (hcached : Cached bucketOf map p)
    (hbuffers : ∀ k, start ≤ k → k < start + total segs → ∃ id, IsBuffer p map k id)
    (hsmall : start + total segs ≤ 2 ^ 31)
    (hinj : ∀ x ∈ placed start segs, ∀ y ∈ placed start segs, ∀ i < x.2.count, ∀ j < y.2.count,
      x.2.block + i = y.2.block + j → x.1 + i = y.1 + j)
    (hx : x ∈ placed start segs) (hj : j < x.2.count)
    (h : Writing bucketOf dev map start segs p (x.1 + j) io)
    (hstep : transferBlock bucketOf zero maxBuffers dev map true x.2 (BitVec.ofNat 32 x.1) j io =
      some io') : Writing bucketOf dev map start segs p (x.1 + j + 1) io' := by
  obtain ⟨hlow, hhigh⟩ := placed_bounds hx
  obtain ⟨q, id, hgot, hdev, -, hdirty, hmoved, hclean, -, hlinked, htransfers⟩ :=
    transferBlock_spec h.linked hstep
  rw [intIndex_small (by omega)] at hgot htransfers
  obtain ⟨id₀, hid₀⟩ := hbuffers (x.1 + j) (by omega) (by omega)
  have hid := hmoved.isBuffer hgot hclean
  -- the buffer of the block was not transferred yet
  have hnew : ∀ id, IsBuffer p map (x.1 + j) id → ∀ tr ∈ io.transfers, tr.id ≠ id := by
    rintro id hid tr htr rfl
    have hlt := (h.log tr htr).1
    rw [hid.eq (h.log tr htr).2.1] at hlt
    exact Nat.lt_irrefl _ hlt
  have hkept := h.kept id₀ (hnew id₀ hid₀)
  have hold : id = id₀ ∧ q.buf = Function.update io.pool.buf id
      { io.pool.buf id with count := (io.pool.buf id).count + 1 } := by
    cases hgot with
    | new hnone hself hfree hother =>
        have hbuf := hid₀.congr hkept
        exact absurd hbuf.2.2 (hnone id₀ hbuf.1 hbuf.2.1)
    | found hid hmap hindex hbuf =>
        refine ⟨?_, hbuf⟩
        have hout : ∀ tr ∈ io.transfers, tr.id ≠ id := by
          rintro tr htr rfl
          obtain ⟨hlt, -, -, hin, -⟩ := h.log tr htr
          rw [IsBuffer.eq ⟨hid, hmap, hindex⟩ hin] at hlt
          exact Nat.lt_irrefl _ hlt
        exact hcached.same (IsBuffer.congr ⟨hid, hmap, hindex⟩ (h.kept id hout).symm) hid₀
  obtain ⟨rfl, hbuf⟩ := hold
  have hself : q.buf id = { p.buf id with count := (p.buf id).count + 1 } := by
    rw [hbuf, Function.update_self, hkept]
  have hother : ∀ y, y ≠ id → io'.pool.buf y = io.pool.buf y := by
    intro y hy
    rw [hmoved.other y hy, hbuf, Function.update_of_ne hy]
  obtain ⟨hdata, hwritten⟩ := hmoved.written rfl
  rw [hself] at hdata hdirty hwritten
  rw [hdev] at hwritten
  have hblock : target true x.2 j = some (x.2.block + j) :=
    if_neg fun hno => absurd hno.1 (by decide)
  rw [hblock] at htransfers
  refine ⟨hlinked, fun k hge hlt => ?_, fun tr htr => ?_, fun tr htr => ?_, fun y hy => ?_,
    fun d block hd => ?_⟩
  · rw [htransfers]
    rcases Nat.lt_or_eq_of_le (Nat.le_of_lt_succ hlt) with hlt | rfl
    · obtain ⟨tr, htr, heq⟩ := h.all k hge hlt
      exact ⟨tr, List.mem_append_left _ htr, heq⟩
    · exact ⟨_, List.mem_append_right _ List.mem_cons_self, rfl⟩
  · rw [htransfers] at htr
    rcases List.mem_append.mp htr with htr | htr
    · obtain ⟨hlt, hp, hstate, hin, hrest⟩ := h.log tr htr
      have hne := hnew id hid₀ tr htr
      refine ⟨Nat.lt_succ_of_lt hlt, hp, hstate, hin.congr (hother _ hne), ?_⟩
      rw [hother _ hne]
      exact hrest
    · rw [List.mem_singleton.mp htr]
      exact ⟨Nat.lt_succ_self _, hid₀, hdirty, hid, hclean, hdata⟩
  · rw [htransfers] at htr
    rcases List.mem_append.mp htr with htr | htr
    · obtain ⟨y, hy, i, hi, heq, hblock', hval⟩ := h.blocks tr htr
      refine ⟨y, hy, i, hi, heq, hblock', ?_⟩
      have hlt := (h.log tr htr).1
      have hne : y.2.block + i ≠ x.2.block + j := fun hsame => by
        have hplace := hinj y hy x hx i hi j hj hsame
        omega
      rw [hwritten, Function.update_self, Function.update_of_ne hne]
      exact hval
    · rw [List.mem_singleton.mp htr]
      refine ⟨x, hx, j, hj, rfl, rfl, ?_⟩
      rw [hwritten, Function.update_self, Function.update_self]
  · rw [htransfers] at hy
    have hne : y ≠ id := fun hsame =>
      hy _ (List.mem_append_right _ List.mem_cons_self) hsame.symm
    rw [hother y hne]
    exact h.kept y fun tr htr => hy tr (List.mem_append_left _ htr)
  · rw [htransfers] at hd
    rw [hwritten]
    by_cases hsame : d = dev
    · subst hsame
      have hne : block ≠ x.2.block + j := by
        rintro rfl
        exact hd rfl _ (List.mem_append_right _ List.mem_cons_self) rfl
      rw [Function.update_self, Function.update_of_ne hne]
      exact h.disk d block fun _ tr htr => hd rfl tr (List.mem_append_left _ htr)
    · rw [Function.update_of_ne hsame]
      exact h.disk d block fun hno => absurd hno hsame

theorem transferSegs_writing {p : Pool Data} (hcached : Cached bucketOf map p)
    (hbuffers : ∀ k, start ≤ k → k < start + total segs → ∃ id, IsBuffer p map k id)
    (hsmall : start + total segs ≤ 2 ^ 31)
    (hinj : ∀ x ∈ placed start segs, ∀ y ∈ placed start segs, ∀ i < x.2.count, ∀ j < y.2.count,
      x.2.block + i = y.2.block + j → x.1 + i = y.1 + j)
    (hrun : transferSegs bucketOf zero maxBuffers dev map true (BitVec.ofNat 32 start) segs
      ⟨p, []⟩ = some io) : Writing bucketOf dev map start segs p (start + total segs) io := by
  refine transferSegs_rule (fun x hx j hj io io' h hstep =>
    h.step hcached hbuffers hsmall hinj hx hj hstep) ⟨hcached.linked, ?_, ?_, ?_, ?_, ?_⟩ hrun
  · exact fun k hge hlt => absurd hlt (Nat.not_lt.mpr hge)
  · exact fun tr htr => absurd htr List.not_mem_nil
  · exact fun tr htr => absurd htr List.not_mem_nil
  · exact fun _ _ => rfl
  · exact fun _ _ _ => rfl

/-! ## Reading -/

/-- What the blocks of a segment read as. -/
def readData (zero : Data) (dev : ℕ) (p : Pool Data) (s : Seg) (j : ℕ) : Data :=
  if s.state = .hole then zero else p.dev dev (s.block + j)

/-- The transfers that read a region from a held buffer on, up to an index. -/
structure Reading (bucketOf : ℕ → Option ℕ) (zero : Data) (dev map start buffer : ℕ)
    (segs : List Seg) (p : Pool Data) (i : ℕ) (io : Io Data) : Prop where
  cached : Cached bucketOf map io.pool
  log : ∀ tr ∈ io.transfers, start ≤ tr.index ∧ tr.index < i ∧
    (∀ id, IsBuffer p map tr.index id → id = tr.id) ∧
    (p.Hashed tr.id → (p.buf tr.id).state = .clean ∧ (p.buf tr.id).count = 0 ∨
      ∃ k, start ≤ k ∧ k < i ∧ IsBuffer p map k tr.id)
  kept : ∀ x, (∀ tr ∈ io.transfers, tr.id ≠ x) → io.pool.buf x = p.buf x ∨
    (p.buf x).state = .clean ∧ (p.buf x).count = 0 ∧ ¬ io.pool.Hashed x
  disk : io.pool.dev = p.dev
  own : start < i → IsBuffer io.pool map start buffer ∧ (io.pool.buf buffer).state = .clean ∧
    0 < (io.pool.buf buffer).count ∧ ∃ x ∈ placed start segs, ∃ j < x.2.count, x.1 + j = start ∧
      (io.pool.buf buffer).data = readData zero dev p x.2 j ∧
      ⟨start, buffer, target false x.2 j⟩ ∈ io.transfers

theorem Reading.step {p : Pool Data} {x : ℕ × Seg} {j buffer : ℕ} (hcached : Cached bucketOf map p)
    (hbuffer : IsBuffer p map start buffer) (hheld : 0 < (p.buf buffer).count)
    (hempty : ∀ k, start < k → k < start + total segs → ∀ id, IsBuffer p map k id →
      (p.buf id).state = .empty)
    (hsmall : start + total segs ≤ 2 ^ 31)
    (hx : x ∈ placed start segs) (hj : j < x.2.count)
    (h : Reading bucketOf zero dev map start buffer segs p (x.1 + j) io)
    (hstep : transferBlock bucketOf zero maxBuffers dev map false x.2 (BitVec.ofNat 32 x.1) j io =
      some io') : Reading bucketOf zero dev map start buffer segs p (x.1 + j + 1) io' := by
  obtain ⟨hlow, hhigh⟩ := placed_bounds hx
  obtain ⟨q, id, hgot, hdev, hq, -, hmoved, hclean, hcount, hlinked, htransfers⟩ :=
    transferBlock_spec h.cached.linked hstep
  rw [intIndex_small (by omega)] at hgot htransfers
  obtain ⟨hdev', hdata⟩ := hmoved.read rfl
  -- the buffer of the block, if there is one, was neither transferred nor evicted yet
  have hnew : ∀ y, IsBuffer p map (x.1 + j) y →
      (∀ tr ∈ io.transfers, tr.id ≠ y) ∧ io.pool.buf y = p.buf y := by
    intro y hy
    have hstay : ¬ ((p.buf y).state = .clean ∧ (p.buf y).count = 0) := by
      rintro ⟨hstate, hzero⟩
      rcases Nat.eq_or_lt_of_le (Nat.le_trans hlow (Nat.le_add_right x.1 j)) with heq | hlt
      · rw [← heq] at hy
        rw [hcached.same hy hbuffer] at hzero
        omega
      · rw [hempty _ hlt (by omega) y hy] at hstate
        cases hstate
    have hout : ∀ tr ∈ io.transfers, tr.id ≠ y := by
      rintro tr htr rfl
      rcases (h.log tr htr).2.2.2 hy.1 with hno | ⟨k, -, hlt, hk⟩
      · exact hstay hno
      · rw [hy.eq hk] at hlt
        exact Nat.lt_irrefl _ hlt
    exact ⟨hout, (h.kept y hout).resolve_right fun hno => hstay ⟨hno.1, hno.2.1⟩⟩
  have hself : ∀ y, IsBuffer p map (x.1 + j) y → y = id := by
    intro y hy
    have hin := hy.congr (hnew y hy).2
    cases hgot with
    | new hnone hself hfree hother => exact absurd hin.2.2 (hnone y hin.1 hin.2.1)
    | found hid hmap hindex hbuf => exact h.cached.same hin ⟨hid, hmap, hindex⟩
  have hother : ∀ y, y ≠ id → io'.pool.buf y = io.pool.buf y ∨ (io.pool.buf y).state = .clean ∧
      (io.pool.buf y).count = 0 ∧ ¬ io'.pool.Hashed y := by
    intro y hy
    rw [Pool.Hashed, hmoved.other y hy]
    exact hgot.outside y hy
  have hid := hmoved.isBuffer hgot hclean
  refine ⟨hmoved.cached hgot h.cached hq hlinked, fun tr htr => ?_, fun y hy => ?_,
    hdev'.trans (hdev.trans h.disk), fun _ => ?_⟩
  · rw [htransfers] at htr
    rcases List.mem_append.mp htr with htr | htr
    · obtain ⟨hge, hlt, hone, hold⟩ := h.log tr htr
      refine ⟨hge, Nat.lt_succ_of_lt hlt, hone, fun hin => (hold hin).imp_right fun hother => ?_⟩
      obtain ⟨k, hk, hlt, hin⟩ := hother
      exact ⟨k, hk, Nat.lt_succ_of_lt hlt, hin⟩
    · rw [List.mem_singleton.mp htr]
      refine ⟨Nat.le_trans hlow (Nat.le_add_right _ _), Nat.lt_succ_self _, hself, fun hin => ?_⟩
      dsimp only at hin ⊢
      by_cases hout : ∀ tr ∈ io.transfers, tr.id ≠ id
      · rcases h.kept id hout with heq | ⟨hstate, hzero, -⟩
        · cases hgot with
          | found hid hmap hindex hbuf =>
              exact .inr ⟨_, Nat.le_trans hlow (Nat.le_add_right _ _), Nat.lt_succ_self _,
                IsBuffer.congr ⟨hid, hmap, hindex⟩ heq.symm⟩
          | new hnone hself hfree hother =>
              rw [Pool.Hashed, heq] at hfree
              exact .inl (hfree hin)
        · exact .inl ⟨hstate, hzero⟩
      · push Not at hout
        obtain ⟨tr', htr', rfl⟩ := hout
        refine ((h.log tr' htr').2.2.2 hin).imp_right fun hother => ?_
        obtain ⟨k, hk, hlt, hin⟩ := hother
        exact ⟨k, hk, Nat.lt_succ_of_lt hlt, hin⟩
  · rw [htransfers] at hy
    have hne : y ≠ id := fun hsame =>
      hy _ (List.mem_append_right _ List.mem_cons_self) hsame.symm
    rcases h.kept y fun tr htr => hy tr (List.mem_append_left _ htr) with heq | ⟨hstate, hzero, hno⟩
    · rw [← heq]
      exact hother y hne
    · refine .inr ⟨hstate, hzero, ?_⟩
      rcases hother y hne with heq | ⟨-, -, hno'⟩
      · rw [Pool.Hashed, heq]
        exact hno
      · exact hno'
  · rw [htransfers]
    rcases Nat.eq_or_lt_of_le (Nat.le_trans hlow (Nat.le_add_right x.1 j)) with heq | hlt
    · rw [heq] at hbuffer
      have hsame := hself buffer hbuffer
      subst hsame
      have hold := (hnew buffer hbuffer).2
      refine ⟨heq ▸ hid, hclean, ?_, x, hx, j, hj, heq.symm, ?_, ?_⟩
      · rw [hcount]
        cases hgot with
        | found hid hmap hindex hbuf =>
            rw [hbuf, Function.update_self, hold]
            exact Nat.lt_of_lt_of_le hheld (Nat.le_refl _)
        | new hnone hself hfree hother =>
            have hin := hbuffer.congr hold
            exact absurd hin.2.2 (hnone buffer hin.1 hin.2.1)
      · rw [hdata, hdev, h.disk]
        rfl
      · rw [heq]
        exact List.mem_append_right _ List.mem_cons_self
    · obtain ⟨hin, hstate, hpos, y, hy, i, hi, hplace, hval, htr⟩ := h.own hlt
      have hne : buffer ≠ id := by
        rintro rfl
        cases hgot with
        | found hid hmap hindex hbuf =>
            have hsame := hin.eq ⟨hid, hmap, hindex⟩
            omega
        | new hnone hself hfree hother =>
            have hzero := (hfree hin.1).2
            omega
      have hsame := (hother buffer hne).resolve_right fun hno => by
        have hzero := hno.2.1
        omega
      rw [hsame]
      exact ⟨hin.congr hsame, hstate, hpos, y, hy, i, hi, hplace, hval,
        List.mem_append_left _ htr⟩

theorem transferSegs_reading {p : Pool Data} {buffer : ℕ} (hcached : Cached bucketOf map p)
    (hbuffer : IsBuffer p map start buffer) (hheld : 0 < (p.buf buffer).count)
    (hempty : ∀ k, start < k → k < start + total segs → ∀ id, IsBuffer p map k id →
      (p.buf id).state = .empty)
    (hsmall : start + total segs ≤ 2 ^ 31)
    (hrun : transferSegs bucketOf zero maxBuffers dev map false (BitVec.ofNat 32 start) segs
      ⟨p, []⟩ = some io) :
    Reading bucketOf zero dev map start buffer segs p (start + total segs) io := by
  refine transferSegs_rule (fun x hx j hj io io' h hstep =>
    h.step hcached hbuffer hheld hempty hsmall hx hj hstep) ⟨hcached, ?_, ?_, rfl, ?_⟩ hrun
  · exact fun tr htr => absurd htr List.not_mem_nil
  · exact fun _ _ => .inl rfl
  · exact fun hlt => absurd hlt (Nat.lt_irrefl _)

end

end Tux3.Filemap
