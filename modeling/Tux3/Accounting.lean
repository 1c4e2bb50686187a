import Tux3.FreeBlocks

/-!
# Which operations keep the free-block count

One theorem per operation says exactly when `sb->freeblocks` stays the number of
clear bits; `op_accounted_iff` collects them.
-/
namespace Tux3.Balloc

variable {sb sb' : Sb} {blocks : ℕ}

/-! ## `balloc` -/

/-- The wrapped search past the end of a volume of more than `2^32` blocks: the last
partial byte of the map is searched too, and the check of `found` against the limit
is made on a block number cut to 32 bits. -/
structure Overshoots (sb : Sb) (blocks : ℕ) : Prop where
  pos : 0 < blocks
  large : 2 ^ 32 < sb.volblocks
  near : sb.volblocks - sb.nextalloc + sb.nextalloc % 8 + 7 < 2 ^ 32
  mapped : (sb.volblocks + (sb.mapsize - 1)) / sb.mapsize < 2 ^ 32
  found : ∃ f, sb.Reach blocks sb.nextalloc (8 * ((sb.volblocks + 7) / 8)) f
  none_inside : ∀ f, ¬ sb.Reach blocks sb.nextalloc sb.volblocks f

/-- `total - goal`, passed as an `unsigned`. -/
def Sb.remaining (sb : Sb) : ℕ := (((sb.volblocks : ℤ) - sb.nextalloc) % 2 ^ 32).toNat

theorem remaining_eq (hwf : sb.WF) : sb.remaining = u32 (sb.volblocks - sb.nextalloc) := by
  have := hwf.nextalloc
  unfold Sb.remaining u32
  omega

theorem lastFound_eq {f : ℕ} (hb : 0 < blocks) (hf : f < 2 ^ 32) :
    sb.lastFound blocks f + 1 = f + blocks := by
  have hle : f / sb.mapsize * sb.mapsize ≤ f := Nat.div_mul_le_self _ _
  have hf' : f / sb.mapsize * sb.mapsize + f % sb.mapsize = f := by
    rw [Nat.mul_comm, Nat.div_add_mod]
  rw [Sb.lastFound, u32_of_lt (by omega)]
  omega

theorem lastFound_lt (hdvd : sb.mapsize ∣ 2 ^ 32) {f : ℕ} (hb : 0 < blocks)
    (hfit : sb.Fits blocks f) : sb.lastFound blocks f < 2 ^ 32 := by
  obtain ⟨c, hc⟩ := u32_mul_mod hdvd (f / sb.mapsize)
  obtain ⟨d, hd⟩ := hdvd
  have hlt := u32_lt (f / sb.mapsize * sb.mapsize)
  rw [hc, hd] at hlt
  have hcd : c + 1 ≤ d := Nat.lt_of_mul_lt_mul_left hlt
  have hmul := Nat.mul_le_mul_left sb.mapsize hcd
  have hone := hfit.oneBlock
  rw [Nat.mul_add, ← hd] at hmul
  rw [Sb.lastFound, hc]
  omega

/-- A search that looks at nothing past `limit`, or only at 32-bit block numbers, keeps the
count. -/
theorem take_inside (hwf : sb.WF) (hacc : sb.Accounted) (hb : 0 < blocks)
    {limit mapblocks f : ℕ} {r : ℤ} (hfit : sb.Fits blocks f) (hle : limit ≤ sb.volblocks)
    (hin : f + blocks ≤ sb.volblocks ∨ f < 2 ^ 32)
    (h : sb.take blocks limit mapblocks f = some (r, sb')) :
    sb'.Accounted ∧ sb'.WF ∧ (r < 0 → sb' = sb) := by
  rw [take_eq hwf.mapsize_dvd] at h
  by_cases hlim : limit ≤ sb.lastFound blocks f
  · rw [if_pos hlim] at h
    split at h
    · cases h
      exact ⟨hacc, hwf, fun _ => rfl⟩
    · cases h
  · rw [if_neg hlim] at h
    cases h
    have hend : f + blocks ≤ sb.volblocks := by
      rcases hin with hin | hin
      · exact hin
      · have hlast : sb.lastFound blocks f + 1 = f + blocks := lastFound_eq hb hin
        omega
    refine ⟨(taken_accounted hwf hacc hb hfit).mpr hend, taken_wf hwf hb (by omega) hle, ?_⟩
    intro hneg
    omega

/-- The first call of `balloc`, from the goal to the end of the volume. -/
theorem first_search (hwf : sb.WF) (hacc : sb.Accounted) (hb : 0 < blocks) {r : ℤ}
    (hno : ¬ Overshoots sb blocks)
    (h : ballocFromRange sb sb.nextalloc sb.remaining blocks = some (r, sb')) :
    sb'.Accounted ∧ sb'.WF ∧ (r < 0 → sb' = sb) := by
  have hgoal := hwf.nextalloc
  have hrem := remaining_eq hwf
  have hcount : sb.remaining < 2 ^ 32 := hrem ▸ u32_lt _
  have hle : sb.nextalloc + sb.remaining ≤ sb.volblocks := by
    have := u32_le (sb.volblocks - sb.nextalloc)
    omega
  have hcut : sb.cut sb.nextalloc ≤ sb.nextalloc := cut_le _
  rcases ballocFromRange_first hwf.mapsize_le hb sb.nextalloc hcount with ⟨hff, hk⟩ | ⟨-, he⟩
  case inr =>
    rw [he] at h
    cases h
    exact ⟨hacc, hwf, fun _ => rfl⟩
  rcases hff with ⟨f, hf, hleast, ht⟩ | ⟨-, he⟩
  case inr =>
    rw [he] at h
    cases h
    exact ⟨hacc, hwf, fun _ => rfl⟩
  rw [ht] at h
  refine take_inside hwf hacc hb hf.fits hle ?_ h
  have hhigh := hf.high
  rw [searchTail] at hhigh
  by_cases hsmall : sb.volblocks ≤ 2 ^ 32
  · right
    have := u32_le (sb.remaining + sb.nextalloc % 8 + 7)
    omega
  left
  by_cases hnear : sb.volblocks - sb.nextalloc + sb.nextalloc % 8 + 7 < 2 ^ 32
  case neg =>
    -- the count or the number of bytes is cut to 32 bits: the search ends before the volume
    rw [hrem] at hhigh
    unfold u32 at hhigh
    omega
  have hrem' : sb.remaining = sb.volblocks - sb.nextalloc := by
    rw [hrem, u32_of_lt (by omega)]
  rw [hrem', u32_of_lt hnear] at hhigh
  by_cases hdiv : sb.nextalloc / sb.mapsize < 2 ^ 32
  case neg =>
    have := cut_add_le hdiv
    have := sb.mapsize_pos
    omega
  rw [cut_of_lt hdiv] at hhigh hf hleast
  have hhi : 8 * (sb.nextalloc / 8 + searchTail sb.nextalloc sb.remaining) =
      8 * ((sb.volblocks + 7) / 8) := by
    rw [searchTail, hrem', u32_of_lt hnear]
    omega
  rw [hhi] at hf hleast
  have hk := hk hdiv
  rw [show sb.nextalloc + sb.remaining = sb.volblocks by omega] at hk
  by_contra hpast
  refine hno ⟨hb, by omega, hnear, hk, ⟨f, hf⟩, fun g hg => ?_⟩
  -- a fit inside the volume would have come first
  have hg' : sb.Reach blocks sb.nextalloc (8 * ((sb.volblocks + 7) / 8)) g :=
    ⟨hg.low, by have := hg.high; omega, hg.fits, hg.readable⟩
  have := hg.high
  exact hleast g (by omega) hg'

/-- The second call, from block 0 to the goal, never leaves the volume. -/
theorem second_search (hwf : sb.WF) (hacc : sb.Accounted) (hb : 0 < blocks) {r : ℤ}
    (h : ballocFromRange sb 0 (u32 sb.nextalloc) blocks = some (r, sb')) :
    sb'.Accounted ∧ sb'.WF ∧ (r < 0 → sb' = sb) := by
  have hgoal := hwf.nextalloc
  have hle := u32_le sb.nextalloc
  rcases ballocFromRange_first hwf.mapsize_le hb 0 (u32_lt sb.nextalloc) with ⟨hff, -⟩ | ⟨-, he⟩
  case inr =>
    rw [he] at h
    cases h
    exact ⟨hacc, hwf, fun _ => rfl⟩
  rcases hff with ⟨f, hf, -, ht⟩ | ⟨-, he⟩
  case inr =>
    rw [he] at h
    cases h
    exact ⟨hacc, hwf, fun _ => rfl⟩
  rw [ht] at h
  refine take_inside hwf hacc hb hf.fits (by omega) (Or.inr ?_) h
  have hhigh := hf.high
  have hcut : sb.cut 0 ≤ 0 := cut_le 0
  have hlt := u32_lt sb.nextalloc
  have htail := u32_le (u32 sb.nextalloc + 0 % 8 + 7)
  rw [searchTail] at hhigh
  omega

theorem balloc_eq (hb : 0 < blocks) :
    balloc sb blocks =
      (ballocFromRange sb sb.nextalloc sb.remaining blocks).bind fun x =>
        if 0 ≤ x.1 then some (0, x.1, x.2)
        else (ballocFromRange x.2 0 (u32 sb.nextalloc) blocks).bind fun y =>
          if 0 ≤ y.1 then some (0, y.1, y.2) else some (-enospc, y.1, y.2) := by
  rw [balloc, if_neg (by omega)]
  rfl

theorem balloc_keeps (hwf : sb.WF) (hacc : sb.Accounted) (hb : 0 < blocks) {r block : ℤ}
    (hno : ¬ Overshoots sb blocks) (h : balloc sb blocks = some (r, block, sb')) :
    sb'.Accounted ∧ sb'.WF := by
  rw [balloc_eq hb, Option.bind_eq_some_iff] at h
  obtain ⟨⟨r1, sb1⟩, h1, h⟩ := h
  obtain ⟨hacc1, hwf1, hsame⟩ := first_search hwf hacc hb hno h1
  split at h
  · cases h
    exact ⟨hacc1, hwf1⟩
  · rename_i hneg
    obtain rfl := hsame (by simpa using hneg)
    rw [Option.bind_eq_some_iff] at h
    obtain ⟨⟨r2, sb2⟩, h2, h⟩ := h
    obtain ⟨hacc2, hwf2, -⟩ := second_search hwf hacc hb h2
    split at h <;> cases h <;> exact ⟨hacc2, hwf2⟩

/-- In the other direction an overshoot is an allocation outside the volume. -/
theorem balloc_overshoots (hwf : sb.WF) (hacc : sb.Accounted) (hover : Overshoots sb blocks) :
    ∃ block sb', balloc sb blocks = some (0, block, sb') ∧ ¬ sb'.Accounted := by
  have hb := hover.pos
  have hgoal := hwf.nextalloc
  have hnear := hover.near
  have hrem : sb.remaining = sb.volblocks - sb.nextalloc := by
    rw [remaining_eq hwf, u32_of_lt (by omega)]
  have hdiv : sb.nextalloc / sb.mapsize < 2 ^ 32 :=
    Nat.lt_of_le_of_lt (Nat.div_le_div_right (by omega)) hover.mapped
  have hcount : sb.remaining < 2 ^ 32 := by omega
  have hhi : 8 * (sb.nextalloc / 8 + searchTail sb.nextalloc sb.remaining) =
      8 * ((sb.volblocks + 7) / 8) := by
    rw [searchTail, hrem, u32_of_lt hnear]
    omega
  obtain ⟨g, hg⟩ := hover.found
  have hfirst := ballocFromRange_first hwf.mapsize_le hb sb.nextalloc hcount
  rw [cut_of_lt hdiv, hhi, show sb.nextalloc + sb.remaining = sb.volblocks by omega] at hfirst
  rcases hfirst with ⟨⟨f, hf, -, ht⟩ | ⟨hnone, -⟩, -⟩ | ⟨hbig, -⟩
  case inr => exact absurd hover.mapped hbig
  case inl.inr => exact absurd hg (hnone g)
  have hlast := lastFound_lt hwf.mapsize_dvd hb hf.fits
  rw [take_eq hwf.mapsize_dvd, if_neg (by have := hover.large; omega)] at ht
  refine ⟨((f % sb.mapsize + u32 (f / sb.mapsize * sb.mapsize) : ℕ) : ℤ), sb.taken blocks f,
    ?_, ?_⟩
  · rw [balloc_eq hb, ht, Option.bind_some, if_pos (Int.natCast_nonneg _)]
  · rw [taken_accounted hwf hacc hb hf.fits]
    intro hin
    exact hover.none_inside f ⟨hf.low, hin, hf.fits, hf.readable⟩

/-! ## `bfree` and `update_bitmap` -/

/-- Clearing a set range of one bitmap block, with `delta` added to the counter. -/
theorem cleared_accounted (hwf : sb.WF) (hacc : sb.Accounted) {m j n : ℕ} {delta : ℤ}
    (hj : j + n ≤ sb.mapsize) (hset : allSet (sb.bitmap m) j n = true) :
    Sb.Accounted { sb with
        bitmap := Function.update sb.bitmap m (clearBits (sb.bitmap m) j n)
        freeblocks := sb.freeblocks + delta } ↔
      delta = Count.overlap (m * sb.mapsize + j) n sb.volblocks := by
  have h32 := hwf.mapsize_le
  rw [allSet_iff (by omega)] at hset
  have hcount := @clearBlocks_clear sb { sb with
      bitmap := Function.update sb.bitmap m (clearBits (sb.bitmap m) j n)
      freeblocks := sb.freeblocks + delta } _ _ rfl (bit_clearBits m hj h32) (by
    intro b h1 h2
    obtain ⟨k, rfl⟩ := Nat.exists_eq_add_of_le (show m * sb.mapsize ≤ b by omega)
    rw [sb.bit_block m (by omega)]
    exact hset k (by omega) (by omega))
  unfold Sb.Accounted at hacc ⊢
  change sb.freeblocks + delta = _ ↔ _
  omega

/-- Setting a clear range, with `delta` added to the counter. -/
theorem set_accounted (hwf : sb.WF) (hacc : sb.Accounted) {m j n : ℕ} {delta : ℤ}
    (hj : j + n ≤ sb.mapsize) (hclear : allClear (sb.bitmap m) j n = true) :
    Sb.Accounted { sb with
        bitmap := Function.update sb.bitmap m (setBits (sb.bitmap m) j n)
        freeblocks := sb.freeblocks + delta } ↔
      delta = -(Count.overlap (m * sb.mapsize + j) n sb.volblocks : ℤ) := by
  have h32 := hwf.mapsize_le
  rw [allClear_iff (by omega)] at hclear
  have hcount := @clearBlocks_set sb { sb with
      bitmap := Function.update sb.bitmap m (setBits (sb.bitmap m) j n)
      freeblocks := sb.freeblocks + delta } _ _ rfl (bit_setBits m hj h32) (by
    intro b h1 h2
    obtain ⟨k, rfl⟩ := Nat.exists_eq_add_of_le (show m * sb.mapsize ≤ b by omega)
    rw [sb.bit_block m (by omega)]
    exact hclear k (by omega) (by omega))
  unfold Sb.Accounted at hacc ⊢
  change sb.freeblocks + delta = _ ↔ _
  omega

/-- `bfree` gets to its `clear_bits`. -/
def Frees (sb : Sb) (start blocks : ℕ) : Prop :=
  sb.readable (u32 (start / sb.mapsize)) = true ∧
    allSet (sb.bitmap (u32 (start / sb.mapsize))) (start % sb.mapsize) blocks = true

theorem bfree_of_frees {start : ℕ} (hb : 0 < blocks) (hf : Frees sb start blocks) :
    bfree sb start blocks = some (0, { sb with
      bitmap := Function.update sb.bitmap (u32 (start / sb.mapsize))
        (clearBits (sb.bitmap (u32 (start / sb.mapsize))) (start % sb.mapsize) blocks)
      freeblocks := sb.freeblocks + blocks }) := by
  rw [bfree, if_neg (by omega)]
  simp only [hf.1, hf.2, Bool.not_true, Bool.false_eq_true, if_false]

theorem bfree_keeps_iff (hwf : sb.WF) (hacc : sb.Accounted) {start : ℕ}
    (hone : start % sb.mapsize + blocks ≤ sb.mapsize) (hb : 0 < blocks) :
    (∀ r sb', bfree sb start blocks = some (r, sb') → sb'.Accounted) ↔
      (Frees sb start blocks → sb.cut start + blocks ≤ sb.volblocks) := by
  by_cases hf : Frees sb start blocks
  · have hacc' := @cleared_accounted _ hwf hacc _ _ _ blocks hone hf.2
    have hover : Count.overlap (sb.cut start) blocks sb.volblocks = blocks ↔
        sb.cut start + blocks ≤ sb.volblocks := Count.overlap_eq_iff hb
    rw [bfree_of_frees hb hf]
    constructor
    · intro h _
      rw [← hover]
      have := hacc'.mp (h _ _ rfl)
      unfold Sb.cut
      omega
    · rintro h r sb' hs
      cases hs
      refine hacc'.mpr ?_
      have := hover.mpr (h hf)
      unfold Sb.cut at this
      omega
  · refine iff_of_true (fun r sb' h => ?_) (fun h => absurd h hf)
    rw [bfree, if_neg (by omega)] at h
    by_cases hr : sb.readable (u32 (start / sb.mapsize)) = true
    · have hs : allSet (sb.bitmap (u32 (start / sb.mapsize))) (start % sb.mapsize) blocks =
          false := Bool.eq_false_iff.mpr (fun hs => hf ⟨hr, hs⟩)
      simp only [hr, hs, Bool.not_true, Bool.not_false, Bool.false_eq_true, if_false, if_true,
        reduceCtorEq] at h
    · simp only [Bool.eq_false_iff.mpr hr, Bool.not_false, if_true, Option.some.injEq,
        Prod.mk.injEq] at h
      exact h.2 ▸ hacc

/-- `update_bitmap` gets to its `set_bits` or `clear_bits`. -/
def Updates (sb : Sb) (start count : ℕ) (set : Bool) : Prop :=
  sb.readable (start / sb.mapsize) = true ∧
    (if set then allClear (sb.bitmap (start / sb.mapsize)) (start % sb.mapsize) count
      else allSet (sb.bitmap (start / sb.mapsize)) (start % sb.mapsize) count) = true

/-- Whatever it changes, `update_bitmap` moves the counter the wrong way. -/
theorem updateBitmap_keeps_iff (hwf : sb.WF) (hacc : sb.Accounted) {start count : ℕ} {set : Bool}
    (hone : start % sb.mapsize + count ≤ sb.mapsize) :
    (updateBitmap sb start count set).2.Accounted ↔ (Updates sb start count set → count = 0) := by
  have h32 := hwf.mapsize_le
  have hle := Count.overlap_le (start / sb.mapsize * sb.mapsize + start % sb.mapsize) count
    sb.volblocks
  by_cases hr : sb.readable (start / sb.mapsize) = true
  case neg =>
    refine iff_of_true ?_ (fun h => absurd h.1 hr)
    simpa only [updateBitmap, Bool.eq_false_iff.mpr hr, Bool.not_false, if_true] using hacc
  cases set with
  | true =>
      by_cases hc : allClear (sb.bitmap (start / sb.mapsize)) (start % sb.mapsize) count = true
      · have hset := @set_accounted _ hwf hacc _ _ _ count hone hc
        simp only [updateBitmap, hr, hc, Bool.not_true, Bool.false_eq_true, if_false, if_true, hset,
          Updates, and_self, true_implies]
        omega
      · refine iff_of_true ?_ (fun h => absurd h.2 hc)
        simpa only [updateBitmap, hr, Bool.eq_false_iff.mpr hc, Bool.not_true, Bool.not_false,
          Bool.false_eq_true, if_false, if_true] using hacc
  | false =>
      by_cases hc : allSet (sb.bitmap (start / sb.mapsize)) (start % sb.mapsize) count = true
      · have hset := @cleared_accounted _ hwf hacc _ _ _ (u32 (2 ^ 32 - count) : ℕ) hone hc
        simp only [updateBitmap, hr, hc, Bool.not_true, Bool.false_eq_true, if_false, hset,
          Updates, and_self, true_implies]
        -- `-count` of an `unsigned` is far above `count`
        unfold u32
        omega
      · refine iff_of_true ?_ (fun h => absurd h.2 hc)
        simpa only [updateBitmap, hr, Bool.eq_false_iff.mpr hc, Bool.not_true, Bool.not_false,
          Bool.false_eq_true, if_false, if_true] using hacc

/-! ## All operations -/

/-- The three operations that change the bitmap and the counter. -/
inductive Op where
  | balloc (blocks : ℕ)
  | bfree (start blocks : ℕ)
  | updateBitmap (start count : ℕ) (set : Bool)
  deriving DecidableEq, Repr

/-- The return value and the new state; `none` where the program ends. -/
def Op.run (sb : Sb) : Op → Option (ℤ × Sb)
  | .balloc blocks => (Balloc.balloc sb blocks).map fun x => (x.1, x.2.2)
  | .bfree start blocks => Balloc.bfree sb start blocks
  | .updateBitmap start count set => some (Balloc.updateBitmap sb start count set)

/-- The extent an operation is given lies inside one bitmap block. -/
def Op.OneBlock (sb : Sb) : Op → Prop
  | .balloc _ => True
  | .bfree start blocks => start % sb.mapsize + blocks ≤ sb.mapsize
  | .updateBitmap start count _ => start % sb.mapsize + count ≤ sb.mapsize

/-- When an operation keeps the count: an allocation does not overshoot the volume, a free
that succeeds is inside the volume, and a bitmap update does nothing. -/
def Op.Keeps (sb : Sb) : Op → Prop
  | .balloc blocks => ¬ Overshoots sb blocks
  | .bfree start blocks => 0 < blocks → Frees sb start blocks →
      sb.cut start + blocks ≤ sb.volblocks
  | .updateBitmap start count set => Updates sb start count set → count = 0

theorem bfree_wf (hwf : sb.WF) {start : ℕ} {r : ℤ} (h : bfree sb start blocks = some (r, sb')) :
    sb'.WF := by
  simp only [bfree] at h
  split at h
  · cases h
  split at h
  · cases h
    exact hwf
  split at h
  · cases h
  · cases h
    exact ⟨hwf.blockbits, hwf.nextalloc⟩

theorem updateBitmap_wf (hwf : sb.WF) (start count : ℕ) (set : Bool) :
    (updateBitmap sb start count set).2.WF := by
  unfold updateBitmap
  dsimp only
  generalize (if set then allClear _ _ _ else allSet _ _ _) = matches'
  cases sb.readable (start / sb.mapsize) with
  | false => exact hwf
  | true =>
      cases matches' with
      | false => exact hwf
      | true => exact ⟨hwf.blockbits, hwf.nextalloc⟩

theorem Op.Keeps.step {op : Op} (hkeeps : op.Keeps sb) (hwf : sb.WF) (hacc : sb.Accounted)
    (hone : op.OneBlock sb) {r : ℤ} (h : op.run sb = some (r, sb')) :
    sb'.WF ∧ sb'.Accounted := by
  cases op with
  | balloc blocks =>
      simp only [Op.run, Option.map_eq_some_iff, Prod.mk.injEq] at h
      obtain ⟨⟨r, block, sb'⟩, hrun, rfl, rfl⟩ := h
      cases Nat.eq_zero_or_pos blocks with
      | inl h0 =>
          rw [h0, Balloc.balloc, if_pos rfl] at hrun
          cases hrun
      | inr hb => exact (balloc_keeps hwf hacc hb hkeeps hrun).symm
  | bfree start blocks =>
      refine ⟨bfree_wf hwf h, ?_⟩
      cases Nat.eq_zero_or_pos blocks with
      | inl h0 =>
          rw [h0, Op.run, Balloc.bfree, if_pos rfl] at h
          cases h
      | inr hb => exact (bfree_keeps_iff hwf hacc hone hb).mpr (hkeeps hb) _ _ h
  | updateBitmap start count set =>
      rw [Op.run, Option.some.injEq] at h
      have hwf' := updateBitmap_wf hwf start count set
      have hacc' := (updateBitmap_keeps_iff hwf hacc hone).mpr hkeeps
      rw [h] at hwf' hacc'
      exact ⟨hwf', hacc'⟩

/-- A run of operations, each with its extent in one bitmap block and meeting `Keeps`. -/
inductive KeepingRun : Sb → Sb → Prop where
  | refl (sb : Sb) : KeepingRun sb sb
  | step {sb sb' sb'' : Sb} {r : ℤ} (op : Op) (one : op.OneBlock sb) (keeps : op.Keeps sb)
      (run : op.run sb = some (r, sb')) (rest : KeepingRun sb' sb'') : KeepingRun sb sb''

theorem KeepingRun.accounted (h : KeepingRun sb sb') (hwf : sb.WF) (hacc : sb.Accounted) :
    sb'.WF ∧ sb'.Accounted := by
  induction h with
  | refl => exact ⟨hwf, hacc⟩
  | step op one keeps run _ ih =>
      obtain ⟨hwf', hacc'⟩ := keeps.step hwf hacc one run
      exact ih hwf' hacc'

/-- The free-block count survives an operation, with any outcome, exactly under `Keeps`. -/
theorem op_accounted_iff (op : Op) (hwf : sb.WF) (hacc : sb.Accounted) (hone : op.OneBlock sb) :
    (∀ r sb', op.run sb = some (r, sb') → sb'.Accounted) ↔ op.Keeps sb := by
  refine ⟨fun h => ?_, fun h r sb' hrun => (h.step hwf hacc hone hrun).2⟩
  cases op with
  | balloc blocks =>
      intro hover
      obtain ⟨block, sb', hrun, hbad⟩ := balloc_overshoots hwf hacc hover
      refine hbad (h 0 sb' ?_)
      rw [Op.run, hrun, Option.map_some]
  | bfree start blocks =>
      intro hb
      exact (bfree_keeps_iff hwf hacc hone hb).mp h
  | updateBitmap start count set =>
      exact (updateBitmap_keeps_iff hwf hacc hone).mp (h _ _ rfl)

/-! ## An empty volume -/

/-- Sixteen free blocks of 256 bytes. -/
def emptyVolume : Sb where
  blockbits := 8
  volblocks := 16
  freeblocks := 16
  nextalloc := 0
  bitmap := fun _ _ => 0
  readable := fun _ => true

theorem emptyVolume_wf : emptyVolume.WF := ⟨by decide, by decide⟩

theorem emptyVolume_accounted : emptyVolume.Accounted := by
  unfold Sb.Accounted
  decide

/-- Replaying an allocation of two blocks leaves fourteen clear bits and a count of eighteen. -/
theorem updateBitmap_set_counts_up :
    emptyVolume.Accounted ∧ (Op.updateBitmap 3 2 true).OneBlock emptyVolume ∧
      ∃ sb', (Op.updateBitmap 3 2 true).run emptyVolume = some (0, sb') ∧
        sb'.freeblocks = 18 ∧ sb'.clearBlocks = 14 ∧ ¬ sb'.Accounted := by
  refine ⟨emptyVolume_accounted, by unfold Op.OneBlock; decide,
    (updateBitmap emptyVolume 3 2 true).2, rfl, rfl, by decide, ?_⟩
  unfold Sb.Accounted
  decide

theorem op_accounted_iff_emptyVolume :
    (∀ r sb', (Op.balloc 3).run emptyVolume = some (r, sb') → sb'.Accounted) ↔
      (Op.balloc 3).Keeps emptyVolume :=
  op_accounted_iff (.balloc 3) emptyVolume_wf emptyVolume_accounted trivial

end Tux3.Balloc
