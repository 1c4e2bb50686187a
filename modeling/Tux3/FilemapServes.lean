import Tux3.FilemapTransfers
import Tux3.MapReach

/-!
# Whether a call serves its buffer

`filemap_extent_io` is called for one buffer, and widens the call to a region. The buffer is served
when the segments of the region reach its block, and no index that they reach is too large for an
`int`.
-/
namespace Tux3.Filemap

open Buffer MapRegion TreeChop

/-- A call serves its buffer: the data goes to the block of the file, or comes from there, and the
buffer is clean. Only neighbours in the region are transferred besides it, and nothing else changes,
except that clean buffers may be evicted. -/
structure Serves {Data : Type} (zero : Data) (dev : ℕ) (write : Bool) (p : Pool Data)
    (buffer start count : ℕ) (r : ExtentIo Data) : Prop where
  own : ⟨(p.buf buffer).index, buffer, fileBlock r.mapped.tree (p.buf buffer).index⟩ ∈ r.transfers
  clean : (r.pool.buf buffer).state = .clean
  written : write = true → (r.pool.buf buffer).data = (p.buf buffer).data ∧
    ∃ block, fileBlock r.mapped.tree (p.buf buffer).index = some block ∧
      r.pool.dev dev block = (p.buf buffer).data
  read : write = false → (r.pool.buf buffer).data =
    (fileBlock r.mapped.tree (p.buf buffer).index).elim zero (p.dev dev)
  neighbours : ∀ tr ∈ r.transfers, tr.index ≠ (p.buf buffer).index →
    start ≤ tr.index ∧ tr.index < start + count ∧
      Neighbour p (p.buf buffer).map write tr.index ∧
      ∀ id, IsBuffer p (p.buf buffer).map tr.index id → id = tr.id
  untouched : ∀ x, p.Hashed x → (p.buf x).map = (p.buf buffer).map →
    (∀ tr ∈ r.transfers, tr.id ≠ x) →
      r.pool.buf x = p.buf x ∨ (p.buf x).state = .clean ∧ (p.buf x).count = 0
  disk : ∀ d block, r.pool.dev d block ≠ p.dev d block →
    write = true ∧ d = dev ∧ ∃ tr ∈ r.transfers, tr.block = some block

/-- What `map_region` does to the cache of a file: it may evict clean buffers that nobody holds. -/
structure Walked {Data : Type} (bucketOf : ℕ → Option ℕ) (map : ℕ) (p q : Pool Data) : Prop where
  linked : Linked bucketOf q
  same : ∀ x, q.Hashed x → (q.buf x).map = map → q.buf x = p.buf x
  kept : ∀ x, p.Hashed x → (p.buf x).map = map →
    q.buf x = p.buf x ∨ (p.buf x).state = .clean ∧ (p.buf x).count = 0
  dev : q.dev = p.dev

/-- Every index that a call reaches is the value of its `int`. -/
def FitsInt (t : Dtree) (start count : ℕ) : Prop := ∀ i, Reached t start count 10 i → i < 2 ^ 31

/-- A call that transfers the segments of its region, that of its buffer among them. -/
structure Carried {Data : Type} (bucketOf : ℕ → Option ℕ) (zero : Data) (maxBuffers dev : ℕ)
    (write : Bool) (blocksize n : ℕ) (q p : Pool Data) (t : Dtree) (buffer start count : ℕ)
    (segs : List Seg) (r : ExtentIo Data) : Prop where
  low : start ≤ (p.buf buffer).index
  high : (p.buf buffer).index < start + total segs
  within : total segs ≤ count
  small : start + total segs ≤ 2 ^ 31
  region : ∀ i, start ≤ i → i < start + count → i ≠ (p.buf buffer).index →
    Neighbour p (p.buf buffer).map write i
  run : transferSegs bucketOf zero maxBuffers dev (p.buf buffer).map write (BitVec.ofNat 32 start)
    segs ⟨q, []⟩ = some r.toIo
  read : write = false →
    start = (p.buf buffer).index ∧ r.mapped.tree = t ∧ Maps t start segs
  written : write = true → r.mapped.tree.GoodFor (fun _ => True) blocksize n ∧
    Maps r.mapped.tree start segs ∧ (∀ s ∈ segs, s.state ≠ .hole) ∧
    ∀ i, i < start ∨ start + total segs ≤ i → fileBlock r.mapped.tree i = fileBlock t i

section
variable {Data : Type} {bucketOf : ℕ → Option ℕ} {zero : Data} {maxBuffers dev : ℕ} {write : Bool}
  {blocksize n last start count buffer map : ℕ} {walked : Pool Data → Pool Data} {p q : Pool Data}
  {t : Dtree} {supply : Supply} {r : ExtentIo Data} {segs : List Seg}

theorem Walked.refl (h : Linked bucketOf p) : Walked bucketOf map p p :=
  ⟨h, fun _ _ _ => rfl, fun _ _ _ => .inl rfl, rfl⟩

theorem Walked.isBuffer (h : Walked bucketOf map p q) {k x : ℕ} (hx : IsBuffer q map k x) :
    IsBuffer p map k x := hx.congr (h.same x hx.1 hx.2.1).symm

theorem Walked.stays (h : Walked bucketOf map p q) {k x : ℕ} (hx : IsBuffer p map k x)
    (hstay : (p.buf x).state ≠ .clean ∨ 0 < (p.buf x).count) :
    q.buf x = p.buf x ∧ IsBuffer q map k x := by
  have heq : q.buf x = p.buf x := (h.kept x hx.1 hx.2.1).resolve_right fun hno => by
    rcases hstay with hstate | hpos
    · exact hstate hno.1
    · rw [hno.2] at hpos
      exact Nat.lt_irrefl 0 hpos
  exact ⟨heq, hx.congr heq⟩

theorem Walked.cached (h : Walked bucketOf map p q) (hcached : Cached bucketOf map p) :
    Cached bucketOf map q := by
  refine ⟨h.linked, fun x y hx hy hxmap hymap hindex => ?_⟩
  exact hcached.same (h.isBuffer ⟨hx, hxmap, rfl⟩) (h.isBuffer ⟨hy, hymap, hindex.symm⟩)

theorem cached_of_coherent {devOf : ℕ → ℕ} {own : ℕ → ℕ → Prop} {val : ℕ → ℕ → Data}
    (h : Coherent bucketOf devOf own val p) (map : ℕ) :
    Cached bucketOf map p :=
  ⟨h.linked, fun x y hx hy hxmap hymap hindex =>
    h.unique x y hx hy (hxmap.trans hymap.symm) hindex⟩

/-- A call that returns 0 maps its region and transfers the segments. -/
theorem filemapExtentIo_cases
    (hrun : filemapExtentIo bucketOf zero maxBuffers dev write blocksize n walked p last t supply
      buffer = some r) (herr : r.err = false)
    (hguess : guessRegion bucketOf p (p.buf buffer).map last (p.buf buffer).index write =
      some (start, count)) :
    (p.buf buffer).index < 2 ^ 48 ∧ ∃ segs,
      mapRegion blocksize n t supply start count 10 (if write then 1 else 0) = some r.mapped ∧
      r.mapped.map = some segs ∧ (segs = [] ∨
        transferSegs bucketOf zero maxBuffers dev (p.buf buffer).map write (BitVec.ofNat 32 start)
          segs ⟨walked p, []⟩ = some r.toIo) := by
  unfold filemapExtentIo at hrun
  dsimp only at hrun
  split at hrun
  · cases hrun
    cases herr
  · next hindex =>
      refine ⟨Nat.not_le.mp hindex, ?_⟩
      rw [hguess] at hrun
      dsimp only at hrun
      split at hrun
      · cases hrun
      · next m hmap =>
          split at hrun
          · cases hrun
            cases herr
          · next hnil =>
              split at hrun
              · cases hrun
                cases herr
              · obtain ⟨q, -, rfl⟩ := Option.map_eq_some_iff.mp hrun
                exact ⟨[], hmap, hnil, .inl rfl⟩
          · next segs _ hsegs =>
              obtain ⟨io, hio, rfl⟩ := Option.map_eq_some_iff.mp hrun
              exact ⟨segs, hmap, hsegs, .inr hio⟩

theorem filemapExtentIo_region
    (hrun : filemapExtentIo bucketOf zero maxBuffers dev write blocksize n walked p last t supply
      buffer = some r) (herr : r.err = false) : ∃ start count,
    guessRegion bucketOf p (p.buf buffer).map last (p.buf buffer).index write =
      some (start, count) := by
  unfold filemapExtentIo at hrun
  dsimp only at hrun
  split at hrun
  · cases hrun
    cases herr
  · split at hrun
    · cases hrun
    · next start count hguess => exact ⟨start, count, hguess⟩

theorem not_serves_hidden (hlinked : Linked bucketOf q)
    (hindex : (p.buf buffer).index < 2 ^ 48)
    (hhole : ∃ s map, segs = s :: map ∧ s.state = .hole) (hcounts : ∀ s ∈ segs, 0 < s.count)
    (htotal : total segs ≤ 64) (hblock : fileBlock r.mapped.tree (p.buf buffer).index ≠ none)
    (hrun : transferSegs bucketOf zero maxBuffers dev map false
      (BitVec.ofNat 32 (p.buf buffer).index) segs ⟨q, []⟩ = some r.toIo) :
    ¬ Serves zero dev false p buffer start count r := by
  intro hserves
  obtain ⟨s, rest, rfl, hstate⟩ := hhole
  obtain ⟨x, hx, j, hj, hlt, heq, htarget⟩ :=
    (transferSegs_logged hlinked hrun).origin _ hserves.own
  obtain ⟨hlow, hhigh⟩ := placed_bounds hx
  dsimp only at heq htarget
  have hplace := intIndex_near hindex (by omega) (by omega) heq.symm
  have hpos := hcounts s List.mem_cons_self
  have hsame := @placed_same _ (p.buf buffer).index _ x ((p.buf buffer).index, s) hx
    List.mem_cons_self ⟨by omega, by omega⟩ ⟨Nat.le_refl _, Nat.lt_add_of_pos_right hpos⟩
  rw [hsame, target, if_pos ⟨rfl, hstate⟩] at htarget
  exact hblock htarget

/-- A buffer that is served was reached, and all that was reached fits in an `int`. -/
theorem Serves.reached (h : Serves zero dev write p buffer start count r)
    (hspans : Spans t start count 10 segs) (hcount : count ≤ 64)
    (hindex : (p.buf buffer).index < 2 ^ 48) (hlow : start ≤ (p.buf buffer).index)
    (hhigh : (p.buf buffer).index < start + count)
    (hlog : Logged write start segs (start + total segs) r.transfers) :
    Reached t start count 10 (p.buf buffer).index ∧ FitsInt t start count := by
  have hregion : ∀ i, Reached t start count 10 i → i < start + count :=
    fun i hi => Nat.lt_of_lt_of_le hi.2.1 (Nat.min_le_left _ _)
  constructor
  · obtain ⟨x, hx, j, hj, hlt, heq, -⟩ := hlog.origin _ h.own
    have hge := (placed_bounds hx).1
    have hreach := (hspans.reach (x.1 + j)).mp ⟨by omega, hlt⟩
    have hin := hregion _ hreach
    rw [← intIndex_near hindex (by omega) (by omega) heq.symm]
    exact hreach
  · intro i hi
    by_contra hlarge
    obtain ⟨hge, hlt⟩ := (hspans.reach i).mpr hi
    obtain ⟨tr, htr, heq⟩ := hlog.all i hge hlt
    have hin := hregion i hi
    have hout := intIndex_outside (by omega) hge (by omega) (Nat.not_lt.mp hlarge)
    rw [← heq] at hout
    obtain ⟨hge', hlt', -⟩ := h.neighbours tr htr (by omega)
    omega

/-- The segments are in the region, and end where an `int` ends. -/
theorem spans_bounds (h : Spans t start count 10 segs) (hint : FitsInt t start count) :
    0 < total segs ∧ total segs ≤ count ∧ start + total segs ≤ 2 ^ 31 := by
  obtain ⟨s, segs, rfl⟩ := List.exists_cons_of_ne_nil h.nonempty
  have hpos := h.counts s List.mem_cons_self
  rw [total_cons] at *
  have hlast := (h.reach (start + (s.count + total segs) - 1)).mp (by
    rw [total_cons]
    omega)
  have hsmall := hint _ hlast
  have hin := Nat.lt_of_lt_of_le hlast.2.1 (Nat.min_le_left _ _)
  omega

section
variable (hcached : Cached bucketOf (p.buf buffer).map p)
  (hwalked : Walked bucketOf (p.buf buffer).map p q)
  (hbuffer : IsBuffer p (p.buf buffer).map (p.buf buffer).index buffer)
  (hregion : ∀ i, start ≤ i → i < start + count → i ≠ (p.buf buffer).index →
    Neighbour p (p.buf buffer).map write i)
  (hmaps : Maps r.mapped.tree start segs) (htotal : total segs ≤ count)
  (hsmall : start + total segs ≤ 2 ^ 31) (hreach : (p.buf buffer).index < start + total segs)
include hcached hwalked hbuffer hregion hmaps htotal hsmall hreach

/-- A region that is written serves the buffer when it reaches it. -/
theorem serves_written (hwrite : write = true) (hlow : start ≤ (p.buf buffer).index)
    (hheld : 0 < (p.buf buffer).count ∨ (p.buf buffer).state = .dirty)
    (hholes : ∀ s ∈ segs, s.state ≠ .hole)
    (hinj : ∀ i j block, fileBlock r.mapped.tree i = some block →
      fileBlock r.mapped.tree j = some block → i = j)
    (hrun : transferSegs bucketOf zero maxBuffers dev (p.buf buffer).map write
      (BitVec.ofNat 32 start) segs ⟨q, []⟩ = some r.toIo) :
    Serves zero dev write p buffer start count r := by
  subst hwrite
  have hblock : ∀ x ∈ placed start segs, ∀ i < x.2.count,
      fileBlock r.mapped.tree (x.1 + i) = some (x.2.block + i) := by
    intro x hx i hi
    rw [hmaps x hx i hi, if_neg (hholes x.2 (placed_seg hx))]
  have hcached' := hwalked.cached hcached
  obtain ⟨hsame, hin⟩ := hwalked.stays hbuffer (hheld.symm.imp_left fun hdirty => by
    rw [hdirty]
    exact BufferState.noConfusion)
  have hw := transferSegs_writing hcached' (fun k hge hlt => by
    by_cases hk : k = (p.buf buffer).index
    · exact ⟨buffer, hk ▸ hin⟩
    · obtain ⟨id, hid, hdirty⟩ := hregion k hge (by omega) hk
      exact ⟨id, (hwalked.stays hid (.inl (by
        rw [hdirty]
        exact BufferState.noConfusion))).2⟩) hsmall (fun x hx y hy i hi j hj heq =>
      hinj _ _ _ (hblock x hx i hi) (heq ▸ hblock y hy j hj)) hrun
  obtain ⟨tr, htr, hindex⟩ := hw.all _ hlow hreach
  obtain ⟨-, hold, -, -, hclean, hdata⟩ := hw.log tr htr
  obtain ⟨x, hx, j, hj, hplace, htarget, hdisk⟩ := hw.blocks tr htr
  have hid : tr.id = buffer := hcached'.same hold (hindex ▸ hin)
  have hmapped := hblock x hx j hj
  rw [← hplace, hindex] at hmapped
  rw [hid] at hclean hdata hdisk
  rw [hsame] at hdata hdisk
  have hsplit : ∀ tr ∈ r.transfers, IsBuffer p (p.buf buffer).map tr.index tr.id :=
    fun tr htr => hwalked.isBuffer (hw.log tr htr).2.1
  refine ⟨?_, hclean, fun _ => ⟨hdata, _, hmapped, hdisk⟩, fun hno => absurd hno (by decide),
    fun tr' htr' hne => ?_, fun x hx hxmap hout => ?_, fun d block hne => ?_⟩
  · rw [hmapped, ← hindex, ← hid, ← htarget]
    exact htr
  · obtain ⟨y, hy, i, hi, hplace', -⟩ := hw.blocks tr' htr'
    obtain ⟨hge, hle⟩ := placed_bounds hy
    exact ⟨by omega, by omega, hregion _ (by omega) (by omega) hne,
      fun id hid => hcached.same hid (hsplit tr' htr')⟩
  · rw [hw.kept x hout]
    exact hwalked.kept x hx hxmap
  · by_contra hno
    refine hne ?_
    rw [← hwalked.dev]
    exact hw.disk d block fun hd tr htr heq => hno ⟨rfl, hd, tr, htr, heq⟩

/-- A region that is read serves the buffer that it begins with. -/
theorem serves_read (hread : write = false) (hstart : start = (p.buf buffer).index)
    (hheld : 0 < (p.buf buffer).count)
    (hrun : transferSegs bucketOf zero maxBuffers dev (p.buf buffer).map write
      (BitVec.ofNat 32 start) segs ⟨q, []⟩ = some r.toIo) :
    Serves zero dev write p buffer start count r := by
  subst hread
  have hcached' := hwalked.cached hcached
  obtain ⟨hsame, hin⟩ := hwalked.stays hbuffer (.inr hheld)
  have hr : Reading bucketOf zero dev _ start buffer segs q _ r.toIo :=
    transferSegs_reading hcached' (hstart ▸ hin) (hsame ▸ hheld) (fun k hge hlt id hid => by
      have hempty := hregion k (by omega) (by omega) (by omega) id (hwalked.isBuffer hid)
      rwa [hwalked.same id hid.1 hid.2.1]) hsmall hrun
  obtain ⟨-, hclean, -, x, hx, j, hj, hplace, hdata, htr⟩ := hr.own (by omega)
  have hmapped := hmaps x hx j hj
  rw [hplace, hstart] at hmapped
  rw [hstart] at htr
  refine ⟨?_, hclean, fun hno => absurd hno (by decide), fun _ => ?_, fun tr htr hne => ?_,
    fun y hy hymap hout => ?_, fun d block hne => ?_⟩
  · rw [hmapped]
    simpa only [target, true_and] using htr
  · rw [hmapped, hdata, readData, hwalked.dev]
    split
    · rfl
    · rfl
  · obtain ⟨hge, hlt, hone, -⟩ := hr.log tr htr
    refine ⟨hge, by omega, hregion _ hge (by omega) hne, fun id hid => ?_⟩
    have hempty := hregion _ hge (by omega) hne id hid
    refine hone id (hwalked.stays hid (.inl ?_)).2
    rw [hempty]
    exact BufferState.noConfusion
  · rcases hwalked.kept y hy hymap with heq | hevicted
    · rw [← heq]
      exact (hr.kept y hout).imp_right fun h => ⟨h.1, h.2.1⟩
    · exact .inr hevicted
  · rw [hr.disk, hwalked.dev] at hne
    exact absurd rfl hne

end

section
variable {blockbits : ℕ} (hbits : 8 ≤ blockbits)
  (hgood : t.hasRoot = true →
    t.GoodFor (fun _ => True) (2 ^ blockbits) (calcEntriesPerNode (2 ^ blockbits)))
  (hcached : Cached bucketOf (p.buf buffer).map p)
  (hfirst : ∀ id, ¬ IsBuffer p (p.buf buffer).map (2 ^ 64 - 1) id)
  (hroots : supply.root.Nodup)
  (hrun : filemapExtentIo bucketOf zero maxBuffers dev write (2 ^ blockbits)
    (calcEntriesPerNode (2 ^ blockbits)) walked p last t supply buffer = some r)
  (herr : r.err = false)
  (hhanded : write = true →
    Handed (rooted (2 ^ blockbits) supply t) r.mapped.allocated supply.leaves)
  (hguess : guessRegion bucketOf p (p.buf buffer).map last (p.buf buffer).index write =
    some (start, count))
include hbits hgood hcached hfirst hroots hrun herr hhanded hguess

theorem filemapExtentIo_spans (hkey : start < 2 ^ 56) (hseen : Seen t start) :
    ∃ segs, Spans t start count 10 segs ∧
    transferSegs bucketOf zero maxBuffers dev (p.buf buffer).map write (BitVec.ofNat 32 start) segs
      ⟨walked p, []⟩ = some r.toIo ∧
    (write = false → r.mapped.tree = t ∧ Maps t start segs) ∧
    (write = true → start + count < 2 ^ 48 →
      r.mapped.tree.GoodFor (fun _ => True) (2 ^ blockbits) (calcEntriesPerNode (2 ^ blockbits)) ∧
      Maps r.mapped.tree start segs ∧ (∀ s ∈ segs, s.state ≠ .hole) ∧
      ∀ i, i < start ∨ start + total segs ≤ i → fileBlock r.mapped.tree i = fileBlock t i) := by
  obtain ⟨hblocksize, hfour, hn⟩ := blocksize_bounds hbits
  obtain ⟨hindex, segs, hcall, hsegs, hcase⟩ := filemapExtentIo_cases hrun herr hguess
  obtain ⟨hlow, hhigh, hcount, -, -⟩ := guessRegion_spec hcached hindex hfirst hguess
  obtain ⟨hspan, hreads, hwrites⟩ := mapRegion_spans hn hblocksize hfour hgood hseen
    hkey (by omega) hcount (by decide) hroots hcall hsegs fun hcreate => hhanded (by
      by_contra hno
      exact hcreate (if_neg hno))
  refine ⟨segs, hspan, hcase.resolve_left hspan.nonempty, fun hread => ?_, fun hwrite => ?_⟩
  · exact hreads (if_neg (by rw [hread]; decide))
  · rw [if_pos hwrite] at hwrites
    exact hwrites Nat.one_ne_zero

/-- A call that also reaches its block below `2 ^ 31` transfers it. -/
theorem filemapExtentIo_carried (hseen : Seen t start)
    (hreached : Reached t start count 10 (p.buf buffer).index) (hint : FitsInt t start count) :
    ∃ segs, Carried bucketOf zero maxBuffers dev write (2 ^ blockbits)
      (calcEntriesPerNode (2 ^ blockbits)) (walked p) p t buffer start count segs r := by
  obtain ⟨hindex, -⟩ := filemapExtentIo_cases hrun herr hguess
  obtain ⟨hlow, hhigh, hcount, hread, hregion⟩ := guessRegion_spec hcached hindex hfirst hguess
  have hfits := hint start (reached_start (by omega) (by omega) (by decide))
  obtain ⟨segs, hspan, hio, hreads, hwrites⟩ := filemapExtentIo_spans hbits hgood hcached hfirst
    hroots hrun herr hhanded hguess (Nat.lt_trans hfits (by decide)) hseen
  obtain ⟨hpos, hwithin, hsmall⟩ := spans_bounds hspan hint
  exact ⟨segs, hlow, ((hspan.reach _).mpr hreached).2, hwithin, hsmall, hregion, hio,
    fun hno => ⟨hread hno, hreads hno⟩, fun hwrite => hwrites hwrite (by omega)⟩

end

/-- A call that returns 0 serves its buffer when it finds the extents of its region, reaches the
block of the buffer, and every index that it reaches fits in an `int`. A call that serves its
buffer, of a block below `2 ^ 56`, is such a call, unless it writes from an extent on that it does
not find. -/
theorem filemapExtentIo_serves {blockbits : ℕ} (hbits : 8 ≤ blockbits)
    (hgood : t.hasRoot = true →
      t.GoodFor (fun _ => True) (2 ^ blockbits) (calcEntriesPerNode (2 ^ blockbits)))
    (hcached : Cached bucketOf (p.buf buffer).map p)
    (hfirst : ∀ id, ¬ IsBuffer p (p.buf buffer).map (2 ^ 64 - 1) id)
    (hheld : 0 < (p.buf buffer).count ∨ write = true ∧ (p.buf buffer).state = .dirty)
    (hwalked : Walked bucketOf (p.buf buffer).map p (walked p)) (hroots : supply.root.Nodup)
    (hrun : filemapExtentIo bucketOf zero maxBuffers dev write (2 ^ blockbits)
      (calcEntriesPerNode (2 ^ blockbits)) walked p last t supply buffer = some r)
    (herr : r.err = false)
    (hhanded : write = true →
      Handed (rooted (2 ^ blockbits) supply t) r.mapped.allocated supply.leaves)
    (hguess : guessRegion bucketOf p (p.buf buffer).map last (p.buf buffer).index write =
      some (start, count)) :
    (Seen t start ∧ Reached t start count 10 (p.buf buffer).index ∧ FitsInt t start count →
      Serves zero dev write p buffer start count r) ∧
    ((p.buf buffer).index < 2 ^ 56 → (write = true → Seen t start) →
      Serves zero dev write p buffer start count r →
      Seen t start ∧ Reached t start count 10 (p.buf buffer).index ∧ FitsInt t start count) := by
  have hbuffer : IsBuffer p (p.buf buffer).map (p.buf buffer).index buffer := by
    refine ⟨?_, rfl, rfl⟩
    rcases hheld with hpos | ⟨-, hdirty⟩
    · by_contra hno
      rw [hcached.linked.idle buffer hno] at hpos
      exact Nat.lt_irrefl 0 hpos
    · exact hashed_of_dirty hdirty
  refine ⟨fun ⟨hseen, hreached, hint⟩ => ?_, fun hbelow hseen hserves => ?_⟩
  · obtain ⟨segs, hc⟩ := filemapExtentIo_carried hbits hgood hcached hfirst hroots hrun herr hhanded
      hguess hseen hreached hint
    by_cases hwrite : write = true
    · obtain ⟨hgood', hmaps, hholes, -⟩ := hc.written hwrite
      exact serves_written hcached hwalked hbuffer hc.region hmaps hc.within hc.small hc.high hwrite
        hc.low (hheld.imp_right And.right) hholes (fun i j block => fileBlock_inj hgood') hc.run
    · have hread := Bool.eq_false_of_not_eq_true hwrite
      obtain ⟨hstart, htree, hmaps⟩ := hc.read hread
      exact serves_read hcached hwalked hbuffer hc.region (htree ▸ hmaps) hc.within hc.small hc.high
        hread hstart (hheld.resolve_right fun hno => hwrite hno.1) hc.run
  · obtain ⟨hindex, segs, hcall, hsegs, hcase⟩ := filemapExtentIo_cases hrun herr hguess
    obtain ⟨hlow, hhigh, hcount, hread, -⟩ := guessRegion_spec hcached hindex hfirst hguess
    by_cases hfound : Seen t start
    · obtain ⟨segs, hspan, hio, -⟩ := filemapExtentIo_spans hbits hgood hcached hfirst hroots hrun
        herr hhanded hguess (Nat.lt_of_le_of_lt hlow hbelow) hfound
      have hlog := transferSegs_logged hwalked.linked hio
      exact ⟨hfound, hserves.reached hspan hcount hindex hlow hhigh hlog⟩
    · have hwrite : write = false := Bool.eq_false_of_not_eq_true fun hno => hfound (hseen hno)
      subst hwrite
      have hstart := hread rfl
      obtain ⟨hhole, hcounts, htotal, htree, hblock⟩ :=
        mapRegion_hidden hgood hfound (by omega) (by omega) (by decide) hcall hsegs
      have hio := hcase.resolve_left (by
        obtain ⟨s, rest, rfl, -⟩ := hhole
        exact List.cons_ne_nil s rest)
      rw [hstart] at hio
      refine absurd hserves
        (not_serves_hidden hwalked.linked hindex hhole hcounts (by omega) ?_ hio)
      rw [htree, ← hstart]
      exact hblock

end

deriving instance DecidableEq for BufferHead

/-- A cache without buffers, over a device of sevens. -/
def coldPool : Pool ℕ :=
  ⟨fun _ => ⟨0, 0, 0, .freed, 0⟩, 0, [], fun _ => [], fun _ _ => [], [], 0, fun _ _ => 7⟩

/-- A file without a btree. -/
def sparse : Dtree := ⟨⟨fun _ => [], 0, 0⟩, fun _ => Dleaf.dleafInit 256⟩

/-- The cache when a block of file 1 was read and set to 5. -/
def changed (block : ℕ) : Option (Pool ℕ × ℕ) :=
  (blockread hashBucket coldPool (fun m => m) 100 1 block).map fun x =>
    (changeBuffer x.1 x.2 5, x.2)

theorem changed_run {block id : ℕ} {p : Pool ℕ} (h : changed block = some (p, id))
    (hheld : (p.buf id).count ≠ 0) :
    ∃ last, Run hashBucket (fun m => m) (fun _ i => i = block) 100 (fun _ _ => 7) p last := by
  obtain ⟨⟨q, id'⟩, hread, heq⟩ := Option.map_eq_some_iff.mp h
  obtain ⟨rfl, rfl⟩ := Prod.mk.inj heq
  have hstart : Run hashBucket (fun m => m) (fun _ i => i = block) 100 (fun _ _ => 7) coldPool _ :=
    Run.start fun _ => 0
  refine ⟨_, Run.change _ 5 (Run.read 1 block hstart rfl hread) (Nat.pos_of_ne_zero ?_)⟩
  intro hzero
  refine hheld ?_
  dsimp only
  unfold changeBuffer markBufferDirty
  split
  · dsimp only
    rw [Function.update_self]
    exact hzero
  · rw [setBufferState_self]
    dsimp only
    rw [Function.update_self]
    exact hzero

/-- A dirty block of a file without a btree is written. -/
def firstWrite : Option ((Pool ℕ × ℕ) × ExtentIo ℕ) :=
  (changed 3).bind fun x =>
    (filemapExtentIo hashBucket 0 100 0 true (2 ^ 8) (calcEntriesPerNode (2 ^ 8)) (fun p => p) x.1 9
      sparse ⟨[1, 2], [100], []⟩ x.2).map fun r => (x, r)

theorem firstWrite_before : firstWrite.map (fun x => (x.1.2, x.1.1.buf 0)) =
    some (0, ⟨1, 3, 1, .dirty, 5⟩) := by decide

theorem firstWrite_region : firstWrite.map (fun x => guessRegion hashBucket x.1.1 1 9 3 true) =
    some (some (3, 1)) := by decide

theorem firstWrite_after : firstWrite.map (fun x => (x.2.err, x.2.mapped.allocated,
    x.2.pool.dev 0 100)) = some (false, [(100, 1)], 5) := by decide

theorem filemapExtentIo_serves_first : ∃ p r,
    filemapExtentIo hashBucket 0 100 0 true (2 ^ 8) (calcEntriesPerNode (2 ^ 8)) (fun p => p) p 9
      sparse ⟨[1, 2], [100], []⟩ 0 = some r ∧ p.buf 0 = ⟨1, 3, 1, .dirty, 5⟩ ∧
    Serves 0 0 true p 0 3 1 r := by
  obtain ⟨⟨⟨p, id⟩, r⟩, hfirst, hbefore⟩ := Option.map_eq_some_iff.mp firstWrite_before
  have hafter := firstWrite_after
  have hguess := firstWrite_region
  rw [hfirst, Option.map_some, Option.some.injEq] at hafter hguess
  obtain ⟨⟨p₀, id₀⟩, hchanged, hfirst⟩ := Option.bind_eq_some_iff.mp hfirst
  obtain ⟨r', hrun, heq⟩ := Option.map_eq_some_iff.mp hfirst
  cases heq
  simp only [Prod.mk.injEq] at hbefore hafter
  obtain ⟨rfl, hbuf⟩ := hbefore
  obtain ⟨herr, hallocated, -⟩ := hafter
  obtain ⟨last, hchange⟩ := changed_run hchanged (by rw [hbuf]; decide)
  have hco := run_coherent (fun _ _ _ _ _ h => h) hchange
  refine ⟨p, r, hrun, hbuf, (filemapExtentIo_serves (by decide)
    (fun hroot => absurd hroot (by decide)) (cached_of_coherent hco _) (fun id hid => ?_)
    (.inr ⟨rfl, ?_⟩) (Walked.refl hco.linked) (by decide) hrun herr (fun _ => ?_) ?_).1
      ⟨?_, ?_, ?_⟩⟩
  · have hown := hco.owned id hid.1
    rw [hid.2.2] at hown
    exact absurd hown (by decide)
  · rw [hbuf]
  · rw [hallocated]
    exact ⟨by decide, by decide⟩
  · rw [hbuf]
    exact hguess
  · intro q hq
    exact absurd hq List.not_mem_nil
  · rw [hbuf]
    unfold Reached
    decide
  · intro i hi
    have hlt := Nat.lt_of_lt_of_le hi.2.1 (Nat.min_le_left _ _)
    omega

theorem changed_count : (changed 0).map (fun x => (x.1.buf x.2).count) = some 1 := by decide

/-- A block with a large index is read when the first block of the file is dirty: the cache with the
buffer, and what the call leaves. -/
def largeRead : Option ((Pool ℕ × ℕ) × ExtentIo ℕ) :=
  (changed 0).bind fun x => (blockput x.1 x.2).bind fun p =>
    (blockget hashBucket p 100 1 (2 ^ 32)).bind fun y =>
      (filemapExtentIo hashBucket 0 100 0 false 256 15 (fun p => p) y.1 0 sparse ⟨[], [], []⟩
        y.2).map fun r => (y, r)

theorem largeRead_before : largeRead.map (fun x => (x.1.2, x.1.1.buf 0, x.1.1.buf 1)) =
    some (1, ⟨1, 0, 0, .dirty, 5⟩, ⟨1, 2 ^ 32, 1, .empty, 0⟩) := by decide

theorem largeRead_region : largeRead.map (fun x =>
    guessRegion hashBucket x.1.1 1 0 (2 ^ 32) false) = some (some (2 ^ 32, 1)) := by decide

theorem largeRead_after : largeRead.map (fun x => (x.2.err, x.2.pool.buf 0, x.2.pool.buf 1)) =
    some (false, ⟨1, 0, 0, .clean, 0⟩, ⟨1, 2 ^ 32, 1, .empty, 0⟩) := by decide

/-- The buffer of the first block is read instead, and what was changed there is lost. -/
theorem filemapExtentIo_overwrites : ∃ p r,
    filemapExtentIo hashBucket 0 100 0 false 256 15 (fun p => p) p 0 sparse ⟨[], [], []⟩ 1 =
      some r ∧ r.err = false ∧ Cached hashBucket 1 p ∧ p.buf 1 = ⟨1, 2 ^ 32, 1, .empty, 0⟩ ∧
    guessRegion hashBucket p 1 0 (2 ^ 32) false = some (2 ^ 32, 1) ∧
    p.buf 0 = ⟨1, 0, 0, .dirty, 5⟩ ∧ r.pool.buf 0 = ⟨1, 0, 0, .clean, 0⟩ ∧
    r.pool.buf 1 = ⟨1, 2 ^ 32, 1, .empty, 0⟩ ∧ ¬ Serves 0 0 false p 1 (2 ^ 32) 1 r := by
  obtain ⟨⟨⟨p, id⟩, r⟩, hlarge, hbefore⟩ := Option.map_eq_some_iff.mp largeRead_before
  have hafter := largeRead_after
  have hguess := largeRead_region
  rw [hlarge, Option.map_some, Option.some.injEq] at hafter hguess
  obtain ⟨⟨p₀, id₀⟩, hchanged, hlarge⟩ := Option.bind_eq_some_iff.mp hlarge
  obtain ⟨p₁, hput, hlarge⟩ := Option.bind_eq_some_iff.mp hlarge
  obtain ⟨⟨p₂, id₂⟩, hget, hlarge⟩ := Option.bind_eq_some_iff.mp hlarge
  obtain ⟨r', hrun, heq⟩ := Option.map_eq_some_iff.mp hlarge
  cases heq
  simp only [Prod.mk.injEq] at hbefore hafter
  obtain ⟨rfl, hfirst, hlast⟩ := hbefore
  obtain ⟨herr, hfirst', hlast'⟩ := hafter
  have hheld := changed_count
  rw [hchanged, Option.map_some, Option.some.injEq] at hheld
  obtain ⟨last, hchange⟩ := changed_run hchanged (by
    dsimp only at hheld
    omega)
  have hco := run_coherent (fun _ _ _ _ _ h => h) (Run.put id₀ hchange hput)
  obtain ⟨hlinked, -, hgot⟩ := hco.linked.get hget
  refine ⟨p, r, hrun, herr, (cached_of_coherent hco 1).got hgot hlinked, hlast, hguess, hfirst,
    hfirst', hlast', fun hserves => ?_⟩
  have hno := hserves.clean
  rw [hlast'] at hno
  cases hno

end Tux3.Filemap
