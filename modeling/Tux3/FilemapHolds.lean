import Tux3.FilemapServes

/-!
# What the cache and the device hold

A block of a file is in its buffer, once that is not empty, and on the device, unless the buffer is
dirty. Transfers keep this whatever they evict.
-/
namespace Tux3.Filemap

open Buffer MapRegion TreeChop

/-- What the device has for a block of a file; a hole is zeros. -/
def stored {Data : Type} (zero : Data) (t : Dtree) (disk : ℕ → Data) (k : ℕ) : Data :=
  (fileBlock t k).elim zero disk

/-- The cache and the device hold the blocks of a file. -/
structure Holds {Data : Type} (bucketOf : ℕ → Option ℕ) (zero : Data) (dev map : ℕ)
    (val : ℕ → Data) (t : Dtree) (p : Pool Data) : Prop where
  cached : Cached bucketOf map p
  index : ∀ k id, IsBuffer p map k id → k < 2 ^ 64 - 1
  data : ∀ k id, IsBuffer p map k id → (p.buf id).state ≠ .empty → (p.buf id).data = val k
  device : ∀ k, (∀ id, IsBuffer p map k id → (p.buf id).state ≠ .dirty) →
    stored zero t (p.dev dev) k = val k

section
variable {Data : Type} {bucketOf : ℕ → Option ℕ} {zero : Data} {maxBuffers dev map : ℕ}
  {val : ℕ → Data} {t : Dtree} {p q : Pool Data} {k id : ℕ}

/-! ## The cache -/

theorem Holds.change (h : Holds bucketOf zero dev map val t p) (hcached : Cached bucketOf map q)
    (hdev : q.dev dev = p.dev dev)
    (hback : ∀ k id, IsBuffer q map k id → k < 2 ^ 64 - 1 ∧
      ((q.buf id).state ≠ .empty → (q.buf id).data = val k))
    (hdirty : ∀ k id, IsBuffer p map k id → (p.buf id).state = .dirty →
      IsBuffer q map k id ∧ (q.buf id).state = .dirty) : Holds bucketOf zero dev map val t q := by
  refine ⟨hcached, fun k id hid => (hback k id hid).1, fun k id hid => (hback k id hid).2,
    fun k hk => ?_⟩
  rw [hdev]
  refine h.device k fun id hid hstate => ?_
  obtain ⟨hid', hstate'⟩ := hdirty k id hid hstate
  exact hk id hid' hstate'

theorem Holds.got (h : Holds bucketOf zero dev map val t p) (hlinked : Linked bucketOf q)
    (hdev : q.dev = p.dev) (hgot : Got p q map k id) (hk : k < 2 ^ 64 - 1) :
    Holds bucketOf zero dev map val t q := by
  refine h.change (h.cached.got hgot hlinked) (by rw [hdev]) (fun k' x hx => ?_)
    fun k' x hx hstate => ?_
  · by_cases hxid : x = id
    · subst hxid
      obtain rfl := hx.eq (isBuffer_of_got hgot)
      refine ⟨hk, fun hne => ?_⟩
      cases hgot with
      | found hid hmap hindex hbuf =>
          rw [hbuf, Function.update_self] at hne ⊢
          exact h.data k' x ⟨hid, hmap, hindex⟩ hne
      | new hnone hself hfree hother =>
          obtain ⟨data, hself⟩ := hself
          rw [hself] at hne
          exact absurd rfl hne
    · have heq := (hgot.outside x hxid).resolve_right fun hno => hno.2.2 hx.1
      have hold := hx.congr heq.symm
      rw [heq]
      exact ⟨h.index k' x hold, h.data k' x hold⟩
  · by_cases hxid : x = id
    · subst hxid
      cases hgot with
      | found hid hmap hindex hbuf =>
          unfold IsBuffer Pool.Hashed at *
          rw [hbuf, Function.update_self]
          exact ⟨hx, hstate⟩
      | new hnone hself hfree hother =>
          rw [(hfree hx.1).1] at hstate
          cases hstate
    · rcases hgot.outside x hxid with heq | ⟨hclean, -⟩
      · rw [heq]
        exact ⟨hx.congr heq, hstate⟩
      · rw [hclean] at hstate
        cases hstate

theorem Holds.walked (h : Holds bucketOf zero dev map val t p)
    (hwalked : Walked bucketOf map p q) : Holds bucketOf zero dev map val t q := by
  refine h.change (hwalked.cached h.cached) (by rw [hwalked.dev]) (fun k x hx => ?_)
    fun k x hx hstate => ?_
  · have hold := hwalked.isBuffer hx
    rw [hwalked.same x hx.1 hx.2.1]
    exact ⟨h.index k x hold, h.data k x hold⟩
  · obtain ⟨heq, hin⟩ := hwalked.stays hx (.inl (by
      rw [hstate]
      exact BufferState.noConfusion))
    rw [heq]
    exact ⟨hin, hstate⟩

/-- A change of one buffer that stays where it is. -/
structure Touched (p q : Pool Data) (id : ℕ) : Prop where
  other : ∀ x, x ≠ id → q.buf x = p.buf x
  map : (q.buf id).map = (p.buf id).map
  index : (q.buf id).index = (p.buf id).index
  before : p.Hashed id
  after : q.Hashed id
  dev : q.dev = p.dev

theorem Touched.isBuffer_iff (h : Touched p q id) {x : ℕ} :
    IsBuffer q map k x ↔ IsBuffer p map k x := by
  by_cases hx : x = id
  · rw [hx, IsBuffer, IsBuffer, h.map, h.index]
    exact and_congr_left fun _ => iff_of_true h.after h.before
  · rw [IsBuffer, IsBuffer, Pool.Hashed, Pool.Hashed, h.other x hx]

theorem Touched.trans {r : Pool Data} (h : Touched p q id)
    (h' : Touched q r id) : Touched p r id :=
  ⟨fun x hx => (h'.other x hx).trans (h.other x hx), h'.map.trans h.map, h'.index.trans h.index,
    h.before, h'.after, h'.dev.trans h.dev⟩

theorem Touched.cached (h : Touched p q id) (hcached : Cached bucketOf map p)
    (hlinked : Linked bucketOf q) : Cached bucketOf map q :=
  ⟨hlinked, fun _ _ hx hy hxmap hymap hindex => hcached.same (h.isBuffer_iff.mp ⟨hx, hxmap, rfl⟩)
    (h.isBuffer_iff.mp ⟨hy, hymap, hindex.symm⟩)⟩

theorem markBufferDirty_touched (hid : p.Hashed id) :
    Touched p (markBufferDirty p id) id ∧ ((markBufferDirty p id).buf id).state = .dirty ∧
      ((markBufferDirty p id).buf id).data = (p.buf id).data := by
  unfold markBufferDirty
  split
  · next hdirty => exact ⟨⟨fun _ _ => rfl, rfl, rfl, hid, hid, rfl⟩, hdirty, rfl⟩
  · have hself : (setBufferState p id .dirty).buf id = { p.buf id with state := .dirty } :=
      setBufferState_self
    refine ⟨⟨fun x hx => setBufferState_other hx, by rw [hself], by rw [hself], hid,
      hashed_of_dirty (by rw [hself]), rfl⟩, by rw [hself], by rw [hself]⟩

theorem markBufferDirty_linked (h : Linked bucketOf p)
    (hid : p.Hashed id) : Linked bucketOf (markBufferDirty p id) := by
  unfold markBufferDirty
  split
  · exact h
  · exact setBufferState_linked h hid BufferState.noConfusion

theorem setData_touched {data : Data} (hid : p.Hashed id) :
    Touched p (setData p id data) id := by
  refine ⟨fun x hx => setData_other hx, by rw [setData_self], by rw [setData_self], hid, ?_, rfl⟩
  rw [Pool.Hashed, setData_self]
  exact hid

theorem Holds.put (h : Holds bucketOf zero dev map val t p) (hid : p.Hashed id)
    (hput : blockput p id = some q) : Holds bucketOf zero dev map val t q := by
  have heq := blockput_eq hput
  have hself : q.buf id = { p.buf id with count := (p.buf id).count - 1 } := by
    rw [heq]
    exact Function.update_self _ _ _
  have htouched : Touched p q id := by
    refine ⟨fun x hx => ?_, by rw [hself], by rw [hself], hid, ?_, by rw [heq]⟩
    · rw [heq]
      exact Function.update_of_ne hx _ _
    · rw [Pool.Hashed, hself]
      exact hid
  have hsame : ∀ x, (q.buf x).state = (p.buf x).state ∧ (q.buf x).data = (p.buf x).data := by
    intro x
    by_cases hx : x = id
    · rw [hx, hself]
      exact ⟨rfl, rfl⟩
    · rw [htouched.other x hx]
      exact ⟨rfl, rfl⟩
  have hlinked : Linked bucketOf q := by
    rw [heq]
    exact h.cached.linked.count hid h.cached.linked.lru
  refine h.change (htouched.cached h.cached hlinked) (by rw [htouched.dev]) (fun k x hx => ?_)
    fun k x hx hstate => ?_
  · have hold := htouched.isBuffer_iff.mp hx
    rw [(hsame x).1, (hsame x).2]
    exact ⟨h.index k x hold, h.data k x hold⟩
  · rw [(hsame x).1]
    exact ⟨htouched.isBuffer_iff.mpr hx, hstate⟩

/-- A change of the contents of a buffer that makes it dirty is one of its block. -/
theorem Holds.dirtied (h : Holds bucketOf zero dev map val t p) (htouched : Touched p q id)
    (hlinked : Linked bucketOf q) (hid : IsBuffer p map k id) (hstate : (q.buf id).state = .dirty) :
    Holds bucketOf zero dev map (Function.update val k (q.buf id).data) t q := by
  have hid' := htouched.isBuffer_iff.mpr hid
  have hcached := htouched.cached h.cached hlinked
  refine ⟨hcached, fun k' x hx => h.index k' x (htouched.isBuffer_iff.mp hx), fun k' x hx hne => ?_,
    fun k' hk => ?_⟩
  · have hold := htouched.isBuffer_iff.mp hx
    by_cases hxid : x = id
    · subst hxid
      rw [hx.eq hid', Function.update_self]
    · have hkk : k' ≠ k := fun hsame => hxid (hcached.same (hsame ▸ hx) hid')
      rw [htouched.other x hxid] at hne ⊢
      rw [Function.update_of_ne hkk, h.data k' x hold hne]
  · have hkk : k' ≠ k := by
      rintro rfl
      exact hk id hid' hstate
    rw [Function.update_of_ne hkk, htouched.dev]
    refine h.device k' fun x hx hdirty => ?_
    have hxid : x ≠ id := by
      rintro rfl
      exact hkk (hx.eq hid)
    exact hk x (htouched.isBuffer_iff.mpr hx) (by rwa [htouched.other x hxid])

/-! ## Reading -/

section
variable {start count : ℕ} {segs : List Seg} {io io' : Io Data}

/-- The blocks of a region up to an index are read. -/
structure ReadUpTo (bucketOf : ℕ → Option ℕ) (zero : Data) (dev map stop : ℕ) (val : ℕ → Data)
    (t : Dtree) (i : ℕ) (io : Io Data) : Prop where
  holds : Holds bucketOf zero dev map val t io.pool
  pending : ∀ k, i ≤ k → k < stop → ∀ id, IsBuffer io.pool map k id →
    (io.pool.buf id).state = .empty

theorem ReadUpTo.step {x : ℕ × Seg} {j : ℕ} (hmaps : Maps t start segs)
    (hsmall : start + total segs ≤ 2 ^ 31) (hx : x ∈ placed start segs) (hj : j < x.2.count)
    (h : ReadUpTo bucketOf zero dev map (start + total segs) val t (x.1 + j) io)
    (hstep : transferBlock bucketOf zero maxBuffers dev map false x.2 (BitVec.ofNat 32 x.1) j io =
      some io') : ReadUpTo bucketOf zero dev map (start + total segs) val t (x.1 + j + 1) io' := by
  obtain ⟨hlow, hhigh⟩ := placed_bounds hx
  obtain ⟨q, id, hgot, hdev, hq, hnot, hmoved, hclean, -, hlinked, -⟩ :=
    transferBlock_spec h.holds.cached.linked hstep
  rw [intIndex_small (by omega)] at hgot
  have hown := isBuffer_of_got hgot
  have hholds := h.holds.got hq hdev hgot (by omega)
  obtain ⟨hdev', hdata⟩ := hmoved.read rfl
  have hempty : (q.buf id).state = .empty := by
    cases hgot with
    | found hid hmap hindex hbuf =>
        rw [hbuf, Function.update_self]
        exact h.pending _ (Nat.le_refl _) (by omega) id ⟨hid, hmap, hindex⟩
    | new hnone hself hfree hother =>
        obtain ⟨data, hself⟩ := hself
        rw [hself]
  have htouched : Touched q io'.pool id := ⟨hmoved.other, hmoved.map, hmoved.index, hown.1,
    hashed_of_clean hclean, hdev'⟩
  -- the block comes from the device, where no dirty buffer stands before it
  have hval : (io'.pool.buf id).data = val (x.1 + j) := by
    rw [hdata, ← hholds.device (x.1 + j) fun y hy => ?_, stored, hmaps x hx j hj]
    · split
      · rfl
      · rfl
    · rw [hholds.cached.same hy hown, hempty]
      exact BufferState.noConfusion
  refine ⟨hholds.change (htouched.cached hholds.cached hlinked) (by rw [hdev'])
    (fun k y hy => ?_) fun k y hy hstate => ?_, fun k hge hlt y hy => ?_⟩
  · have hold := htouched.isBuffer_iff.mp hy
    by_cases hyid : y = id
    · subst hyid
      obtain rfl := hold.eq hown
      exact ⟨hholds.index _ y hold, fun _ => hval⟩
    · rw [hmoved.other y hyid]
      exact ⟨hholds.index k y hold, hholds.data k y hold⟩
  · have hyid : y ≠ id := by
      rintro rfl
      rw [hempty] at hstate
      cases hstate
    rw [hmoved.other y hyid]
    exact ⟨htouched.isBuffer_iff.mpr hy, hstate⟩
  · have hold := htouched.isBuffer_iff.mp hy
    have hyid : y ≠ id := by
      rintro rfl
      have hsame := hold.eq hown
      omega
    have heq := (hgot.outside y hyid).resolve_right fun hno => hno.2.2 hold.1
    rw [hmoved.other y hyid, heq]
    exact h.pending k (by omega) hlt y (hold.congr heq.symm)

end

/-! ## Calls -/

section
variable {blocksize n start count buffer : ℕ} {write : Bool} {segs : List Seg} {r : ExtentIo Data}

/-- A read keeps the blocks, and leaves the buffer of the call clean and held. -/
theorem Holds.read (h : Holds bucketOf zero dev (p.buf buffer).map val t p)
    (hc : Carried bucketOf zero maxBuffers dev false blocksize n q p t buffer start count segs r)
    (hwalked : Walked bucketOf (p.buf buffer).map p q) (hid : p.Hashed buffer)
    (hempty : (p.buf buffer).state = .empty) (hheld : 0 < (p.buf buffer).count) :
    r.mapped.tree = t ∧ Holds bucketOf zero dev (p.buf buffer).map val t r.pool ∧
      IsBuffer r.pool (p.buf buffer).map (p.buf buffer).index buffer ∧
      (r.pool.buf buffer).state = .clean ∧ 0 < (r.pool.buf buffer).count := by
  obtain ⟨hstart, htree, hmaps⟩ := hc.read rfl
  have hlow := hc.low
  have hhigh := hc.high
  have hwithin := hc.within
  have hbuffer : IsBuffer p (p.buf buffer).map (p.buf buffer).index buffer := ⟨hid, rfl, rfl⟩
  have hholds := h.walked hwalked
  obtain ⟨hsame, hin⟩ := hwalked.stays hbuffer (.inr hheld)
  have hregion : ∀ k, start ≤ k → k < start + total segs → ∀ x, IsBuffer q (p.buf buffer).map k x →
      (q.buf x).state = .empty := by
    intro k hge hlt x hx
    have hold := hwalked.isBuffer hx
    rw [hwalked.same x hx.1 hx.2.1]
    by_cases hk : k = (p.buf buffer).index
    · rw [h.cached.same hold (hk ▸ hbuffer), hempty]
    · exact hc.region k hge (by omega) hk x hold
  have hread := transferSegs_rule
    (I := ReadUpTo bucketOf zero dev (p.buf buffer).map (start + total segs) val t)
    (fun x hx j hj io io' hio hstep => hio.step hmaps hc.small hx hj hstep) ⟨hholds, hregion⟩ hc.run
  obtain ⟨hown, hclean, hpos, -⟩ := (transferSegs_reading hholds.cached (hstart ▸ hin)
    (hsame ▸ hheld) (fun k hlt hstop => hregion k (Nat.le_of_lt hlt) hstop) hc.small hc.run).own
    (by omega)
  exact ⟨htree, hread.holds, hstart ▸ hown, hclean, hpos⟩

/-- A write keeps the blocks. -/
theorem Holds.written (h : Holds bucketOf zero dev (p.buf buffer).map val t p)
    (hc : Carried bucketOf zero maxBuffers dev true blocksize n q p t buffer start count segs r)
    (hwalked : Walked bucketOf (p.buf buffer).map p q) (hdirty : (p.buf buffer).state = .dirty) :
    r.mapped.tree.GoodFor (fun _ => True) blocksize n ∧
      Holds bucketOf zero dev (p.buf buffer).map val r.mapped.tree r.pool := by
  obtain ⟨hgood, hmaps, hholes, houtside⟩ := hc.written rfl
  have hwithin := hc.within
  have hneighbours := hc.region
  have hrun := hc.run
  have hbuffer : IsBuffer p (p.buf buffer).map (p.buf buffer).index buffer :=
    ⟨hashed_of_dirty hdirty, rfl, rfl⟩
  have hholds := h.walked hwalked
  generalize (p.buf buffer).map = map at *
  -- each block of the region has a dirty buffer
  have hregion : ∀ k, start ≤ k → k < start + total segs →
      ∃ id, IsBuffer q map k id ∧ (q.buf id).state = .dirty := by
    intro k hge hlt
    obtain ⟨id, hid, hstate⟩ : ∃ id, IsBuffer p map k id ∧ (p.buf id).state = .dirty := by
      by_cases hk : k = (p.buf buffer).index
      · exact ⟨buffer, hk ▸ hbuffer, hdirty⟩
      · exact hneighbours k hge (by omega) hk
    obtain ⟨heq, hin⟩ := hwalked.stays hid (.inl (by
      rw [hstate]
      exact BufferState.noConfusion))
    exact ⟨id, hin, heq ▸ hstate⟩
  have hblock : ∀ x ∈ placed start segs, ∀ i < x.2.count,
      fileBlock r.mapped.tree (x.1 + i) = some (x.2.block + i) := by
    intro x hx i hi
    rw [hmaps x hx i hi, if_neg (hholes x.2 (placed_seg hx))]
  have hw := transferSegs_writing hholds.cached
    (fun k hge hlt => (hregion k hge hlt).imp fun _ h => h.1) hc.small
    (fun x hx y hy i hi j hj heq => fileBlock_inj hgood (hblock x hx i hi)
      (heq ▸ hblock y hy j hj)) hrun
  have hplace : ∀ tr ∈ r.transfers, start ≤ tr.index ∧ tr.index < start + total segs := by
    intro tr htr
    obtain ⟨x, hx, j, hj, heq, -⟩ := hw.blocks tr htr
    obtain ⟨hge, hle⟩ := placed_bounds hx
    omega
  have hlog : ∀ tr ∈ r.transfers, (q.buf tr.id).data = val tr.index := by
    intro tr htr
    obtain ⟨hge, hlt⟩ := hplace tr htr
    obtain ⟨id, hid, hstate⟩ := hregion tr.index hge hlt
    obtain ⟨-, hold, -⟩ := hw.log tr htr
    have hsame := hholds.cached.same hold hid
    refine hholds.data tr.index tr.id hold ?_
    rw [hsame, hstate]
    exact BufferState.noConfusion
  have hback : ∀ k x, IsBuffer r.pool map k x → IsBuffer q map k x := by
    intro k x hx
    by_cases hin : ∃ tr ∈ r.transfers, tr.id = x
    · obtain ⟨tr, htr, rfl⟩ := hin
      obtain ⟨-, hold, -, hnew, -⟩ := hw.log tr htr
      rw [hx.eq hnew]
      exact hold
    · exact hx.congr (hw.kept x fun tr htr heq => hin ⟨tr, htr, heq⟩).symm
  refine ⟨hgood, ⟨hw.linked, fun x y hx hy hxmap hymap hindex => ?_⟩, fun k x hx => ?_,
    fun k x hx hne => ?_, fun k hk => ?_⟩
  · exact hholds.cached.same (hback _ x ⟨hx, hxmap, rfl⟩) (hback _ y ⟨hy, hymap, hindex.symm⟩)
  · exact hholds.index k x (hback k x hx)
  · by_cases hin : ∃ tr ∈ r.transfers, tr.id = x
    · obtain ⟨tr, htr, rfl⟩ := hin
      obtain ⟨-, -, -, hnew, -, hdata⟩ := hw.log tr htr
      rw [hdata, hlog tr htr, hx.eq hnew]
    · have heq := hw.kept x fun tr htr heq => hin ⟨tr, htr, heq⟩
      rw [heq] at hne ⊢
      exact hholds.data k x (hback k x hx) hne
  · by_cases hin : start ≤ k ∧ k < start + total segs
    · obtain ⟨tr, htr, rfl⟩ := hw.all k hin.1 hin.2
      obtain ⟨x, hx, j, hj, heq, -, hdisk⟩ := hw.blocks tr htr
      rw [stored, heq, hblock x hx j hj, ← heq, ← hlog tr htr, ← hdisk]
      rfl
    · have hout : k < start ∨ start + total segs ≤ k := by omega
      rw [← hholds.device k fun id hid hstate => ?_, stored, stored, houtside k hout]
      · cases hfile : fileBlock t k with
        | none => rfl
        | some block =>
            -- another block of the file is not written
            refine hw.disk dev block fun _ tr htr heq => ?_
            obtain ⟨x, hx, j, hj, hindex, htarget, -⟩ := hw.blocks tr htr
            obtain rfl := Option.some.inj (htarget.symm.trans heq)
            have hsame := fileBlock_inj hgood (hblock x hx j hj)
              ((houtside k hout).trans hfile)
            have hbounds := hplace tr htr
            omega
      · have hkept : r.pool.buf id = q.buf id := by
          refine hw.kept id fun tr htr heq => ?_
          obtain ⟨-, hold, -⟩ := hw.log tr htr
          have hsame := hold.eq (heq ▸ hid)
          have hbounds := hplace tr htr
          omega
        exact hk id (hid.congr hkept) (hkept ▸ hstate)

end

end

end Tux3.Filemap
