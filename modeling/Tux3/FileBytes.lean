import Tux3.FileIo
import Tux3.FilemapHolds
import Mathlib.Data.List.GetD

/-!
# A file is an array of bytes

The blocks of a file, in its buffers or on the device, are the blocks of one array of bytes. Each
call changes the array as a file should, and reads from it.
-/
namespace Tux3.File

open Buffer MapRegion TreeChop Filemap

section
variable {blockbits : ℕ}

/-- The blocks of an array of bytes. -/
def blocks (byte : ℕ → UInt8) (k : ℕ) : Block blockbits := fun i => byte (k * 2 ^ blockbits + i)

/-! ## Bytes -/

theorem overwrite_nil (byte : ℕ → UInt8) (pos : ℕ) : overwrite byte pos [] = byte := by
  funext i
  simp [overwrite]

theorem overwrite_below {byte : ℕ → UInt8} {pos i : ℕ} {data : List UInt8} (h : i < pos) :
    overwrite byte pos data i = byte i := if_neg (Nat.not_le.mpr h)

theorem overwrite_above {byte : ℕ → UInt8} {pos i : ℕ} {data : List UInt8}
    (h : pos + data.length ≤ i) : overwrite byte pos data i = byte i := by
  rw [overwrite, if_pos (by omega), List.getD_eq_default _ _ (by omega)]

theorem overwrite_append (byte : ℕ → UInt8) (pos : ℕ) (front back : List UInt8) :
    overwrite (overwrite byte pos front) (pos + front.length) back =
      overwrite byte pos (front ++ back) := by
  funext i
  by_cases hlow : pos ≤ i
  · by_cases hhigh : pos + front.length ≤ i
    · rw [overwrite, if_pos hhigh, overwrite_above hhigh, overwrite, if_pos hlow,
        List.getD_append_right _ _ _ _ (by omega), Nat.sub_sub]
    · rw [overwrite_below (by omega), overwrite, if_pos hlow, overwrite, if_pos hlow,
        List.getD_append _ _ _ _ (by omega)]
  · rw [overwrite_below (by omega), overwrite_below (by omega), overwrite_below (by omega)]

theorem blocks_overwrite {byte : ℕ → UInt8} {k offset : ℕ} {data : List UInt8}
    (hfits : offset + data.length ≤ 2 ^ blockbits) :
    blocks (overwrite byte (k * 2 ^ blockbits + offset) data) =
      Function.update (blocks byte) k (copyIn (@blocks blockbits byte k) offset data) := by
  funext j i
  have hi := i.isLt
  by_cases hjk : j = k
  · subst hjk
    simp only [Function.update_self, copyIn, blocks, overwrite, Nat.add_le_add_iff_left,
      Nat.add_sub_add_left]
  · rw [Function.update_of_ne hjk, blocks, blocks]
    rcases Nat.lt_or_gt_of_ne hjk with hlt | hgt
    · have hle := Nat.mul_le_mul_right (2 ^ blockbits) (Nat.succ_le_of_lt hlt)
      rw [Nat.succ_mul] at hle
      exact overwrite_below (by omega)
    · have hle := Nat.mul_le_mul_right (2 ^ blockbits) (Nat.succ_le_of_lt hgt)
      rw [Nat.succ_mul] at hle
      exact overwrite_above (by omega)

theorem copyIn_whole {content content' : Block blockbits} {data : List UInt8}
    (h : data.length = 2 ^ blockbits) : copyIn content 0 data = copyIn content' 0 data := by
  funext i
  have hi : i.val < data.length := by rw [h]; exact i.isLt
  simp only [copyIn, Nat.zero_le, if_true, Nat.sub_zero, List.getD_eq_getElem _ _ hi]

theorem copyOut_blocks {byte : ℕ → UInt8} {k offset some : ℕ} (hfits : offset + some ≤ 2 ^ blockbits) :
    copyOut (@blocks blockbits byte k) offset some =
      (List.range' (k * 2 ^ blockbits + offset) some).map byte := by
  rw [copyOut, List.range'_eq_map_range, List.range'_eq_map_range, List.map_map, List.map_map]
  refine List.map_congr_left fun j hj => ?_
  have hlt : offset + j < 2 ^ blockbits := by
    have := List.mem_range.mp hj
    omega
  simp only [Function.comp_apply, blocks, Fin.ofNat, Nat.mod_eq_of_lt hlt, Nat.add_assoc]

/-- The array up to a size. -/
def cut (byte : ℕ → UInt8) (size : ℕ) : ℕ → UInt8 := fun i => if i < size then byte i else 0

/-- The blocks before the end stay, the one at the end is cleared from the end on, and the blocks
behind are zero. -/
theorem blocks_cut {byte : ℕ → UInt8} {size k : ℕ} :
    @blocks blockbits (cut byte size) k =
      if k < size / 2 ^ blockbits then blocks byte k
      else if k = size / 2 ^ blockbits then clearFrom (blocks byte k) (size % 2 ^ blockbits)
      else fun _ => 0 := by
  funext i
  have hi := i.isLt
  have hdiv := Nat.div_add_mod size (2 ^ blockbits)
  have hmod := Nat.mod_lt size (Nat.two_pow_pos blockbits)
  rw [Nat.mul_comm] at hdiv
  split
  · next hlt =>
      have hle := Nat.mul_le_mul_right (2 ^ blockbits) (Nat.succ_le_of_lt hlt)
      rw [Nat.succ_mul] at hle
      exact if_pos (by omega)
  · next hge =>
      split
      · next heq =>
          subst heq
          simp only [blocks, cut, clearFrom]
          split
          · next hin => rw [if_neg (by omega)]
          · next hout => rw [if_pos (by omega)]
      · next hne =>
          have hle := Nat.mul_le_mul_right (2 ^ blockbits)
            (Nat.succ_le_of_lt (Nat.lt_of_le_of_ne (Nat.not_lt.mp hge) (Ne.symm hne)))
          rw [Nat.succ_mul] at hle
          exact if_neg (by omega)

/-! ## Transfers -/

section
variable {bucketOf : ℕ → Option ℕ} {maxBuffers dev map k id : ℕ} {rest : ℕ → Rest blockbits}
  {f f' : State blockbits} {byte : ℕ → UInt8} {err : Bool}

/-- The cache and the device hold the array, and the btree is well formed. -/
structure Inv (bucketOf : ℕ → Option ℕ) (dev map : ℕ) (f : State blockbits) (byte : ℕ → UInt8) :
    Prop where
  good : f.tree.hasRoot = true →
    f.tree.GoodFor (fun _ => True) (2 ^ blockbits) (calcEntriesPerNode (2 ^ blockbits))
  holds : Holds bucketOf (fun _ => 0) dev map (blocks byte) f.tree f.pool

/-- Every call so far went as it should. -/
def Regular (bucketOf : ℕ → Option ℕ) (map : ℕ) (f : State blockbits) : Prop :=
  ∀ e ∈ f.events, e.Honest bucketOf map ∧ e.Fine bucketOf map

/-- A part of a call: it adds events, and leaves size and position. -/
structure Continues (f f' : State blockbits) : Prop where
  events : f.events <+: f'.events
  isize : f'.isize = f.isize
  pos : f'.pos = f.pos

theorem Continues.refl : Continues f f := ⟨List.prefix_refl _, rfl, rfl⟩

theorem Continues.trans {g : State blockbits} (h : Continues f g) (h' : Continues g f') :
    Continues f f' :=
  ⟨h.events.trans h'.events, h'.isize.trans h.isize, h'.pos.trans h.pos⟩

theorem Continues.pool {q : Pool (Block blockbits)} (h : Continues f f') :
    Continues f { f' with pool := q } := ⟨h.events, h.isize, h.pos⟩

theorem filemapIo_continues {write : Bool}
    (hio : filemapIo bucketOf maxBuffers dev rest f write id = some (f', err)) : Continues f f' := by
  obtain ⟨r, -, heq⟩ := Option.map_eq_some_iff.mp hio
  obtain ⟨rfl, -⟩ := Prod.mk.inj heq
  exact ⟨List.prefix_append _ _, rfl, rfl⟩

theorem blockread_continues {got : Option ℕ}
    (hread : blockread bucketOf maxBuffers dev map rest f k = some (f', got)) : Continues f f' := by
  unfold File.blockread at hread
  split at hread
  · cases hread
  · next q id hget =>
      have hpool : Continues f { f with pool := q } := Continues.refl.pool
      split at hread
      · split at hread
        · cases hread
        · next g hio =>
            obtain ⟨p, -, heq⟩ := Option.map_eq_some_iff.mp hread
            obtain ⟨rfl, -⟩ := Prod.mk.inj heq
            exact (hpool.trans (filemapIo_continues hio)).pool
        · next g hio =>
            cases hread
            exact hpool.trans (filemapIo_continues hio)
      · cases hread
        exact hpool

theorem tuxioBlock_continues {write : Bool} {offset some : ℕ} {data : List UInt8}
    {moved : Option (List UInt8)}
    (hblock : tuxioBlock bucketOf maxBuffers dev map rest write f k offset some data =
      Option.some (f', moved)) : Continues f f' := by
  unfold tuxioBlock at hblock
  dsimp only at hblock
  generalize hgot : (if (write && some == 2 ^ blockbits) = true then _ else _) = got at hblock
  have hcont : ∀ {g : State blockbits} {x : Option ℕ}, got = Option.some (g, x) → Continues f g := by
    intro g x hsome
    rw [hsome] at hgot
    split at hgot
    · obtain ⟨r, -, heq⟩ := Option.map_eq_some_iff.mp hgot
      obtain ⟨rfl, -⟩ := Prod.mk.inj heq
      exact Continues.refl.pool
    · exact blockread_continues hgot
  split at hblock
  · cases hblock
  · next g => cases hblock; exact hcont rfl
  · next g id =>
      split at hblock
      · obtain ⟨p, -, heq⟩ := Option.map_eq_some_iff.mp hblock
        obtain ⟨rfl, -⟩ := Prod.mk.inj heq
        exact (hcont rfl).pool
      · obtain ⟨p, -, heq⟩ := Option.map_eq_some_iff.mp hblock
        obtain ⟨rfl, -⟩ := Prod.mk.inj heq
        exact (hcont rfl).pool

theorem Regular.before (h : Regular bucketOf map f') (hevents : f.events <+: f'.events) :
    Regular bucketOf map f := fun e he => h e (hevents.subset he)

theorem filemapIo_carried {write : Bool} (hbits : 8 ≤ blockbits) (h : Inv bucketOf dev map f byte)
    (hid : IsBuffer f.pool map k id)
    (hio : filemapIo bucketOf maxBuffers dev rest f write id = some (f', err))
    (hregular : Regular bucketOf map f') :
    ∃ q start count segs r, Carried bucketOf (fun _ => 0) maxBuffers dev write (2 ^ blockbits)
        (calcEntriesPerNode (2 ^ blockbits)) q f.pool f.tree id start count segs r ∧
      Walked bucketOf map f.pool q ∧ f'.pool = r.pool ∧ f'.tree = r.mapped.tree ∧ err = false := by
  obtain ⟨r, hrun, heq⟩ := Option.map_eq_some_iff.mp hio
  obtain ⟨rfl, rfl⟩ := Prod.mk.inj heq
  obtain ⟨⟨herr, hwalked, hroots, hhanded⟩, hfine⟩ := hregular _ (List.mem_concat_self ..)
  obtain ⟨start, count, hguess⟩ := filemapExtentIo_region hrun herr
  have hmap := hid.2.1
  obtain ⟨hseen, hreached, hint⟩ := hfine start count (hmap ▸ hguess)
  obtain ⟨segs, hcarried⟩ := filemapExtentIo_carried hbits h.good (hmap ▸ h.holds.cached)
    (fun x hx => Nat.lt_irrefl _ (h.holds.index _ x (hmap ▸ hx))) hroots hrun herr hhanded hguess
    hseen hreached hint
  exact ⟨_, start, count, segs, r, hcarried, hwalked, rfl, rfl, herr⟩

theorem Inv.read (hbits : 8 ≤ blockbits) (h : Inv bucketOf dev map f byte)
    (hid : IsBuffer f.pool map k id) (hempty : (f.pool.buf id).state = .empty)
    (hheld : 0 < (f.pool.buf id).count)
    (hio : filemapIo bucketOf maxBuffers dev rest f false id = some (f', err))
    (hregular : Regular bucketOf map f') :
    err = false ∧ Inv bucketOf dev map f' byte ∧ IsBuffer f'.pool map k id ∧
      (f'.pool.buf id).state = .clean ∧ 0 < (f'.pool.buf id).count := by
  obtain ⟨q, start, count, segs, r, hcarried, hwalked, hpool, htree, herr⟩ :=
    filemapIo_carried hbits h hid hio hregular
  obtain ⟨hhashed, rfl, rfl⟩ := hid
  obtain ⟨hsame, hholds, hown, hclean, hpos⟩ := h.holds.read hcarried hwalked hhashed hempty hheld
  rw [← hsame, ← htree, ← hpool] at hholds
  rw [← hpool] at hown hclean hpos
  exact ⟨herr, ⟨fun hroot => htree ▸ hsame ▸ h.good (hsame ▸ htree ▸ hroot), hholds⟩, hown, hclean,
    hpos⟩

theorem Inv.written (hbits : 8 ≤ blockbits) (h : Inv bucketOf dev map f byte)
    (hid : IsBuffer f.pool map k id) (hdirty : (f.pool.buf id).state = .dirty)
    (hio : filemapIo bucketOf maxBuffers dev rest f true id = some (f', err))
    (hregular : Regular bucketOf map f') :
    err = false ∧ Inv bucketOf dev map f' byte := by
  obtain ⟨q, start, count, segs, r, hcarried, hwalked, hpool, htree, herr⟩ :=
    filemapIo_carried hbits h hid hio hregular
  obtain ⟨hhashed, rfl, rfl⟩ := hid
  obtain ⟨hgood, hholds⟩ := h.holds.written hcarried hwalked hdirty
  rw [← htree] at hgood hholds
  rw [← hpool] at hholds
  exact ⟨herr, ⟨fun _ => hgood, hholds⟩⟩

/-! ## Buffers -/

theorem Inv.pool {q : Pool (Block blockbits)} (h : Inv bucketOf dev map f byte)
    (hholds : Holds bucketOf (fun _ => 0) dev map (blocks byte) f.tree q) :
    Inv bucketOf dev map { f with pool := q } byte := ⟨h.good, hholds⟩

theorem Got.held {p q : Pool (Block blockbits)} (h : Got p q map k id) : 0 < (q.buf id).count := by
  cases h with
  | found hid hmap hindex hbuf => simp [hbuf]
  | new hnone hself hfree hother =>
      obtain ⟨data, hself⟩ := hself
      simp [hself]

theorem Inv.get {q : Pool (Block blockbits)} (h : Inv bucketOf dev map f byte)
    (hk : k < 2 ^ 64 - 1) (hget : blockget bucketOf f.pool maxBuffers map k = some (q, id)) :
    Inv bucketOf dev map { f with pool := q } byte ∧ IsBuffer q map k id ∧
      0 < (q.buf id).count := by
  obtain ⟨hlinked, hdev, hgot⟩ := h.holds.cached.linked.get hget
  exact ⟨h.pool (h.holds.got hlinked hdev hgot hk), isBuffer_of_got hgot, Got.held hgot⟩

/-- `blockread` gives the buffer of a block with its contents. -/
theorem Inv.blockread {got : Option ℕ} (hbits : 8 ≤ blockbits) (h : Inv bucketOf dev map f byte)
    (hk : k < 2 ^ 64 - 1)
    (hread : blockread bucketOf maxBuffers dev map rest f k = some (f', got))
    (hregular : Regular bucketOf map f') :
    ∃ id, got = some id ∧ Inv bucketOf dev map f' byte ∧ IsBuffer f'.pool map k id ∧
      (f'.pool.buf id).data = blocks byte k := by
  unfold File.blockread at hread
  split at hread
  · cases hread
  · next q id hget =>
      obtain ⟨hinv, hid, hheld⟩ := h.get hk hget
      split at hread
      · next hempty =>
          split at hread
          · cases hread
          · next g hio =>
              -- the transfer would have an error
              obtain ⟨p, -, heq⟩ := Option.map_eq_some_iff.mp hread
              obtain ⟨rfl, -⟩ := Prod.mk.inj heq
              cases (hinv.read hbits hid hempty hheld hio hregular).1
          · next g hio =>
              cases hread
              obtain ⟨-, hinv', hid', hclean, -⟩ := hinv.read hbits hid hempty hheld hio hregular
              refine ⟨id, rfl, hinv', hid', hinv'.holds.data k id hid' ?_⟩
              rw [hclean]
              exact BufferState.noConfusion
      · next hstate =>
          cases hread
          exact ⟨id, rfl, hinv, hid, hinv.holds.data k id hid hstate⟩

/-! ## `tuxio` -/

theorem Inv.copied {offset : ℕ} {data : List UInt8} {p : Pool (Block blockbits)}
    (h : Inv bucketOf dev map f byte) (hid : IsBuffer f.pool map k id)
    (hfits : offset + data.length ≤ 2 ^ blockbits)
    (hcopy : copyIn (f.pool.buf id).data offset data = copyIn (blocks byte k) offset data)
    (hput : blockput (setData (markBufferDirty f.pool id) id
      (copyIn (f.pool.buf id).data offset data)) id = some p) :
    Inv bucketOf dev map { f with pool := p }
      (overwrite byte (k * 2 ^ blockbits + offset) data) := by
  obtain ⟨hdirtied, hstate, -⟩ := markBufferDirty_touched hid.1
  have hlinked := markBufferDirty_linked h.holds.cached.linked hid.1
  have htouched := hdirtied.trans
    (@setData_touched _ _ _ (copyIn (f.pool.buf id).data offset data) hdirtied.after)
  have hset := h.holds.dirtied htouched (hlinked.setData hdirtied.after _) hid
    (by rw [setData_self]; exact hstate)
  have hput := hset.put htouched.after hput
  rw [setData_self, hcopy, ← blocks_overwrite hfits] at hput
  exact ⟨h.good, hput⟩

/-- A block of a write gets its part of the data. -/
theorem Inv.writeBlock {offset n : ℕ} {data moved : List UInt8} (hbits : 8 ≤ blockbits)
    (h : Inv bucketOf dev map f byte) (hk : k < 2 ^ 64 - 1) (hlen : data.length = n)
    (hfits : offset + n ≤ 2 ^ blockbits)
    (hblock : tuxioBlock bucketOf maxBuffers dev map rest true f k offset n data =
      some (f', some moved)) (hregular : Regular bucketOf map f') :
    Inv bucketOf dev map f' (overwrite byte (k * 2 ^ blockbits + offset) data) ∧ moved = [] := by
  subst hlen
  unfold tuxioBlock at hblock
  by_cases hfull : data.length = 2 ^ blockbits
  · -- a full block is not read
    obtain rfl : offset = 0 := by omega
    simp only [hfull, Bool.true_and, beq_self_eq_true, if_true] at hblock
    cases hget : blockget bucketOf f.pool maxBuffers map k with
    | none => simp [hget] at hblock
    | some r =>
        obtain ⟨q, id⟩ := r
        simp only [hget, Option.map_some] at hblock
        obtain ⟨p, hput, heq⟩ := Option.map_eq_some_iff.mp hblock
        obtain ⟨rfl, hmoved⟩ := Prod.mk.inj heq
        obtain ⟨hinv, hid, -⟩ := h.get hk hget
        exact ⟨hinv.copied hid hfits (copyIn_whole hfull) hput, (Option.some.inj hmoved).symm⟩
  · have hnot : (data.length == 2 ^ blockbits) = false := beq_eq_false_iff_ne.mpr hfull
    simp only [hnot, Bool.and_false, Bool.false_eq_true, if_false, if_true] at hblock
    split at hblock
    · cases hblock
    · cases hblock
    · next g id hread =>
        obtain ⟨p, hput, heq⟩ := Option.map_eq_some_iff.mp hblock
        obtain ⟨rfl, hmoved⟩ := Prod.mk.inj heq
        obtain ⟨id', hgot, hinv, hid, hdata⟩ := h.blockread hbits hk hread hregular
        cases hgot
        exact ⟨hinv.copied hid hfits (by rw [hdata]) hput, (Option.some.inj hmoved).symm⟩

theorem Inv.readBlock {offset some : ℕ} {data moved : List UInt8} (hbits : 8 ≤ blockbits)
    (h : Inv bucketOf dev map f byte) (hk : k < 2 ^ 64 - 1) (hfits : offset + some ≤ 2 ^ blockbits)
    (hblock : tuxioBlock bucketOf maxBuffers dev map rest false f k offset some data =
      Option.some (f', Option.some moved)) (hregular : Regular bucketOf map f') :
    Inv bucketOf dev map f' byte ∧
      moved = (List.range' (k * 2 ^ blockbits + offset) some).map byte := by
  unfold tuxioBlock at hblock
  simp only [Bool.false_and, Bool.false_eq_true, if_false] at hblock
  split at hblock
  · cases hblock
  · cases hblock
  · next g id hread =>
      obtain ⟨p, hp, heq⟩ := Option.map_eq_some_iff.mp hblock
      obtain ⟨rfl, hmoved⟩ := Prod.mk.inj heq
      obtain ⟨id', hgot, hinv, hid, hdata⟩ := h.blockread hbits hk hread hregular
      cases hgot
      refine ⟨hinv.pool (hinv.holds.put hid.1 hp), ?_⟩
      rw [← Option.some.inj hmoved, hdata, copyOut_blocks hfits]

theorem block_lt {pos tail : ℕ} (hmax : pos + tail ≤ MAX_FILESIZE) :
    pos / 2 ^ blockbits < 2 ^ 64 - 1 := by
  have hle := Nat.div_le_self pos (2 ^ blockbits)
  have hsize : MAX_FILESIZE = 2 ^ 60 := rfl
  omega

theorem tuxioLoop_continues {write : Bool} {left pos tail : ℕ} {data done : List UInt8}
    {r : Outcome blockbits}
    (hloop : tuxioLoop bucketOf maxBuffers dev map rest write left f pos tail data done = some r) :
    f.events <+: r.file.events ∧ r.file.isize = f.isize := by
  induction left generalizing f pos tail data done with
  | zero =>
      cases hloop
      exact ⟨List.prefix_refl _, rfl⟩
  | succ left ih =>
      rw [tuxioLoop] at hloop
      split at hloop
      · cases hloop
        exact ⟨List.prefix_refl _, rfl⟩
      · dsimp only at hloop
        split at hloop
        · cases hloop
        · next g hblock =>
            cases hloop
            have hcont := tuxioBlock_continues hblock
            exact ⟨hcont.events, hcont.isize⟩
        · next g moved hblock =>
            have hcont := tuxioBlock_continues hblock
            obtain ⟨hevents, hisize⟩ := ih hloop
            exact ⟨hcont.events.trans hevents, hisize.trans hcont.isize⟩

/-- The rule of the loop of `tuxio`: what each block keeps, with the bytes that are left, holds when
none is left. -/
theorem tuxioLoop_rule {write : Bool} {P : State blockbits → ℕ → ℕ → List UInt8 → List UInt8 → Prop}
    {left pos tail : ℕ} {data done : List UInt8} {r : Outcome blockbits}
    (hstep : ∀ {f f' : State blockbits} {pos tail some : ℕ} {data done moved : List UInt8},
      P f pos tail data done → 0 < some → some ≤ tail →
      pos % 2 ^ blockbits + some ≤ 2 ^ blockbits →
      tuxioBlock bucketOf maxBuffers dev map rest write f (pos / 2 ^ blockbits) (pos % 2 ^ blockbits)
        some (data.take some) = Option.some (f', Option.some moved) →
      f'.events <+: r.file.events →
      P f' (pos + some) (tail - some) (data.drop some) (done ++ moved))
    (h : P f pos tail data done) (hleft : tail ≤ left)
    (hloop : tuxioLoop bucketOf maxBuffers dev map rest write left f pos tail data done = some r)
    (herr : r.err = false) :
    ∃ g pos data, P g pos 0 data r.bytes ∧ r.file = { g with pos := pos } := by
  induction left generalizing f pos tail data done with
  | zero =>
      cases hloop
      obtain rfl := Nat.le_zero.mp hleft
      exact ⟨f, pos, data, h, rfl⟩
  | succ left ih =>
      rw [tuxioLoop] at hloop
      split at hloop
      · next hzero =>
          cases hloop
          subst hzero
          exact ⟨f, pos, data, h, rfl⟩
      · next hne =>
          dsimp only at hloop
          generalize hsome : (if 2 ^ blockbits < pos % 2 ^ blockbits + tail
            then 2 ^ blockbits - pos % 2 ^ blockbits else tail) = some at hloop
          have hmod := Nat.mod_lt pos (Nat.two_pow_pos blockbits)
          have hbounds : 0 < some ∧ some ≤ tail ∧ pos % 2 ^ blockbits + some ≤ 2 ^ blockbits := by
            split at hsome
            · omega
            · omega
          obtain ⟨hpos, hle, hfits⟩ := hbounds
          split at hloop
          · cases hloop
          · cases hloop
            cases herr
          · next g moved hblock =>
              exact ih (hstep h hpos hle hfits hblock (tuxioLoop_continues hloop).1) (by omega) hloop

/-- A write has put the front of its data into the array. -/
structure WriteUpTo (bucketOf : ℕ → Option ℕ) (dev map : ℕ) (byte : ℕ → UInt8) (start : ℕ)
    (data front : List UInt8) (g : State blockbits) (pos tail : ℕ) (left done : List UInt8) :
    Prop where
  inv : Inv bucketOf dev map g (overwrite byte start front)
  data : data = front ++ left
  pos : pos = start + front.length
  tail : tail = left.length
  done : done = []

theorem WriteUpTo.step {start pos tail n : ℕ} {data front left done moved : List UInt8}
    {g g' : State blockbits} (hbits : 8 ≤ blockbits) (hmax : start + data.length ≤ MAX_FILESIZE)
    (h : WriteUpTo bucketOf dev map byte start data front g pos tail left done) (hle : n ≤ tail)
    (hfits : pos % 2 ^ blockbits + n ≤ 2 ^ blockbits)
    (hblock : tuxioBlock bucketOf maxBuffers dev map rest true g (pos / 2 ^ blockbits)
      (pos % 2 ^ blockbits) n (left.take n) = some (g', some moved))
    (hregular : Regular bucketOf map g') :
    WriteUpTo bucketOf dev map byte start data (front ++ left.take n) g' (pos + n) (tail - n)
      (left.drop n) (done ++ moved) := by
  obtain ⟨hinv, rfl, rfl, rfl, rfl⟩ := h
  have hlen : (left.take n).length = n := List.length_take_of_le hle
  have hlength : (front ++ left).length = front.length + left.length := List.length_append
  have hin : start + front.length + left.length ≤ MAX_FILESIZE := by omega
  obtain ⟨hinv', rfl⟩ := hinv.writeBlock hbits (block_lt hin) hlen hfits hblock hregular
  rw [Nat.div_add_mod', overwrite_append] at hinv'
  refine ⟨hinv', ?_, ?_, ?_, rfl⟩
  · rw [List.append_assoc, List.take_append_drop]
  · rw [List.length_append, hlen, Nat.add_assoc]
  · rw [List.length_drop]

theorem Inv.writeLoop {pos : ℕ} {data : List UInt8} {r : Outcome blockbits} (hbits : 8 ≤ blockbits)
    (h : Inv bucketOf dev map f byte) (hmax : pos + data.length ≤ MAX_FILESIZE)
    (hloop : tuxioLoop bucketOf maxBuffers dev map rest true data.length f pos data.length data [] =
      some r) (herr : r.err = false) (hregular : Regular bucketOf map r.file) :
    Inv bucketOf dev map r.file (overwrite byte pos data) ∧ r.file.pos = pos + data.length ∧
      r.bytes = [] := by
  have hstart : WriteUpTo bucketOf dev map byte pos data [] f pos data.length data [] :=
    ⟨by rwa [overwrite_nil], rfl, rfl, rfl, rfl⟩
  obtain ⟨g, pos', left, ⟨front, hinv, hdata, rfl, htail, hbytes⟩, heq⟩ := tuxioLoop_rule
    (P := fun g pos' tail left done =>
      ∃ front, WriteUpTo bucketOf dev map byte pos data front g pos' tail left done)
    (fun ⟨front, hg⟩ _ hle hfits hblock hevents =>
      ⟨_, hg.step hbits hmax hle hfits hblock (hregular.before hevents)⟩)
    ⟨[], hstart⟩ (Nat.le_refl _) hloop herr
  obtain rfl := List.length_eq_zero_iff.mp htail.symm
  rw [List.append_nil] at hdata
  subst hdata
  rw [heq]
  exact ⟨⟨hinv.good, hinv.holds⟩, rfl, hbytes⟩

/-- A read has the first bytes of its part of the array. -/
structure ReadFrom (bucketOf : ℕ → Option ℕ) (dev map : ℕ) (byte : ℕ → UInt8) (start len n : ℕ)
    (g : State blockbits) (pos tail : ℕ) (done : List UInt8) : Prop where
  inv : Inv bucketOf dev map g byte
  len : n + tail = len
  pos : pos = start + n
  done : done = (List.range' start n).map byte

theorem ReadFrom.step {start len n pos tail some : ℕ} {data done moved : List UInt8}
    {g g' : State blockbits} (hbits : 8 ≤ blockbits) (hmax : start + len ≤ MAX_FILESIZE)
    (h : ReadFrom bucketOf dev map byte start len n g pos tail done) (hle : some ≤ tail)
    (hfits : pos % 2 ^ blockbits + some ≤ 2 ^ blockbits)
    (hblock : tuxioBlock bucketOf maxBuffers dev map rest false g (pos / 2 ^ blockbits)
      (pos % 2 ^ blockbits) some data = Option.some (g', Option.some moved))
    (hregular : Regular bucketOf map g') :
    ReadFrom bucketOf dev map byte start len (n + some) g' (pos + some) (tail - some)
      (done ++ moved) := by
  obtain ⟨hinv, hlen, rfl, rfl⟩ := h
  have hin : start + n + tail ≤ MAX_FILESIZE := by omega
  obtain ⟨hinv', rfl⟩ := hinv.readBlock hbits (block_lt hin) hfits hblock hregular
  refine ⟨hinv', by omega, Nat.add_assoc _ _ _, ?_⟩
  rw [Nat.div_add_mod', ← List.map_append, ← List.range'_append_1]

theorem Inv.readLoop {pos len : ℕ} {r : Outcome blockbits} (hbits : 8 ≤ blockbits)
    (h : Inv bucketOf dev map f byte) (hmax : pos + len ≤ MAX_FILESIZE)
    (hloop : tuxioLoop bucketOf maxBuffers dev map rest false len f pos len [] [] = some r)
    (herr : r.err = false) (hregular : Regular bucketOf map r.file) :
    Inv bucketOf dev map r.file byte ∧ r.file.pos = pos + len ∧
      r.bytes = (List.range' pos len).map byte := by
  obtain ⟨g, pos', left, ⟨n, hinv, hlen, rfl, hbytes⟩, heq⟩ := tuxioLoop_rule
    (P := fun g pos' tail _ done => ∃ n, ReadFrom bucketOf dev map byte pos len n g pos' tail done)
    (fun ⟨n, hg⟩ _ hle hfits hblock hevents =>
      ⟨_, hg.step hbits hmax hle hfits hblock (hregular.before hevents)⟩)
    ⟨0, h, Nat.zero_add _, rfl, rfl⟩ (Nat.le_refl _) hloop herr
  rw [Nat.add_zero] at hlen
  subst hlen
  rw [heq]
  exact ⟨⟨hinv.good, hinv.holds⟩, rfl, hbytes⟩

/-! ## `tuxtruncate` -/

theorem truncatePartialBlock_continues {size : ℕ}
    (hcut : truncatePartialBlock bucketOf maxBuffers dev map rest f size = some f') :
    Continues f f' := by
  unfold truncatePartialBlock at hcut
  dsimp only at hcut
  split at hcut
  · cases hcut
    exact Continues.refl
  · split at hcut
    · cases hcut
    · next g hread =>
        cases hcut
        exact blockread_continues hread
    · next g id hread =>
        obtain ⟨p, -, rfl⟩ := Option.map_eq_some_iff.mp hcut
        exact (blockread_continues hread).pool

theorem clearFrom_copyIn {content : Block blockbits} {offset : ℕ} :
    clearFrom content offset =
      copyIn content offset (List.replicate (2 ^ blockbits - offset) 0) := by
  funext i
  have hi := i.isLt
  simp only [clearFrom, copyIn]
  split
  · rw [List.getD_eq_getElem _ _ (by rw [List.length_replicate]; omega), List.getElem_replicate]
  · rfl

theorem lt_key {size k : ℕ} :
    k < (size + (2 ^ blockbits - 1)) / 2 ^ blockbits ↔ k * 2 ^ blockbits < size := by
  have hpos := Nat.two_pow_pos blockbits
  rw [Nat.lt_iff_add_one_le, Nat.le_div_iff_mul_le hpos, Nat.succ_mul]
  omega

/-- After `truncate_partial_block` the blocks that begin before the end have no bytes behind it. -/
theorem Inv.truncatePartialBlock {size : ℕ} (hbits : 8 ≤ blockbits)
    (h : Inv bucketOf dev map f byte) (hsize : size ≤ MAX_FILESIZE)
    (hcut : File.truncatePartialBlock bucketOf maxBuffers dev map rest f size = some f')
    (hregular : Regular bucketOf map f') :
    ∃ byte', Inv bucketOf dev map f' byte' ∧ ∀ k, k * 2 ^ blockbits < size →
      @blocks blockbits byte' k = blocks (cut byte size) k := by
  have hplace := Nat.div_add_mod' size (2 ^ blockbits)
  have hbelow : ∀ k, k < size / 2 ^ blockbits → blocks (cut byte size) k =
      @blocks blockbits byte k := fun k hlt => by rw [blocks_cut, if_pos hlt]
  unfold File.truncatePartialBlock at hcut
  dsimp only at hcut
  split at hcut
  · next hzero =>
      cases hcut
      refine ⟨byte, h, fun k hk => (hbelow k ?_).symm⟩
      rw [hzero, Nat.add_zero] at hplace
      rw [← hplace] at hk
      exact Nat.lt_of_mul_lt_mul_right hk
  · next hne =>
      split at hcut
      · cases hcut
      · next g hread =>
          cases hcut
          obtain ⟨id, hnone, -⟩ := h.blockread hbits (@block_lt _ _ 0 hsize) hread hregular
          cases hnone
      · next g id hread =>
          obtain ⟨p, hput, rfl⟩ := Option.map_eq_some_iff.mp hcut
          obtain ⟨id', hgot, hinv, hid, hdata⟩ :=
            h.blockread hbits (@block_lt _ _ 0 hsize) hread hregular
          cases hgot
          -- the bytes are changed before the buffer is marked dirty
          have hset := @setData_touched _ _ _ (clearFrom (g.pool.buf id).data
            (size % 2 ^ blockbits)) hid.1
          obtain ⟨hdirtied, hstate, hsame⟩ := markBufferDirty_touched hset.after
          have htouched := hset.trans hdirtied
          have hlinked := markBufferDirty_linked
            (hinv.holds.cached.linked.setData hid.1 (clearFrom (g.pool.buf id).data
              (size % 2 ^ blockbits))) hset.after
          have hdirty := (hinv.holds.dirtied htouched hlinked hid hstate).put htouched.after hput
          have hmod := Nat.mod_lt size (Nat.two_pow_pos blockbits)
          have hblocks := @blocks_overwrite blockbits byte (size / 2 ^ blockbits)
            (size % 2 ^ blockbits) (List.replicate (2 ^ blockbits - size % 2 ^ blockbits) 0)
            (by rw [List.length_replicate]; omega)
          rw [hplace, ← clearFrom_copyIn] at hblocks
          rw [hsame, setData_self, hdata, ← hblocks] at hdirty
          refine ⟨_, ⟨hinv.good, hdirty⟩, fun k hk => ?_⟩
          rw [hblocks]
          have hle : k ≤ size / 2 ^ blockbits :=
            (Nat.le_div_iff_mul_le (Nat.two_pow_pos blockbits)).mpr (Nat.le_of_lt hk)
          rcases Nat.lt_or_eq_of_le hle with hlt | rfl
          · rw [Function.update_of_ne (Nat.ne_of_lt hlt), hbelow k hlt]
          · rw [Function.update_self, blocks_cut, if_neg (Nat.lt_irrefl _), if_pos rfl]

theorem mapping_iff {t : Dtree} {index block : ℕ} :
    (index, block) ∈ t.mapping ↔ t.Maps index block := by
  simp only [Dtree.mapping, leavesMapping, Dleaf.Leaf.mapping, List.mem_flatMap, mem_indexBlocks,
    Dtree.Maps]

/-- What a chop leaves of a file. -/
theorem chop_blocks {t : Dtree} {key rounds n : ℕ} {s : Chop} (hkey : key < 2 ^ 56)
    (hgood : t.hasRoot = true → t.GoodFor (fun _ => True) (2 ^ blockbits) n) (hseen : Seen t key)
    (hchop : treeChop (2 ^ blockbits) n key rounds t = some s) :
    (s.tree.hasRoot = true → s.tree.GoodFor (fun _ => True) (2 ^ blockbits) n) ∧
      ∀ k, fileBlock s.tree k = if k < key then fileBlock t k else none := by
  cases hroot : t.hasRoot with
  | false =>
      rw [treeChop, if_pos hroot] at hchop
      cases hchop
      have hnone : ∀ k, fileBlock t k = none := fun k => by
        rw [fileBlock, contents, hroot]
        rfl
      exact ⟨fun h => absurd h (by simp [show t.chop.tree = t from rfl, hroot]), fun k => by
        rw [show t.chop.tree = t from rfl, hnone, ite_self]⟩
  | true =>
      have ht := hgood hroot
      obtain ⟨s', rounds', hrun, hgood', hmaps⟩ := ht.chop hkey
        (fun x hx p hp => (seen_iff hroot).mp hseen x hx p hp) (fun _ _ _ _ _ => trivial)
      have hsame := (treeChop_more (Nat.le_max_left rounds rounds') hchop).symm.trans
        (hrun _ (Nat.le_max_right rounds rounds'))
      cases hsame
      refine ⟨fun _ => hgood', fun k => Option.ext fun block => ?_⟩
      have hread : ∀ {t : Dtree}, t.GoodFor (fun _ => True) (2 ^ blockbits) n →
          (fileBlock t k = some block ↔ t.Maps k block) := fun h => by
        rw [fileBlock_eq (hasRoot_of_good h), h.wellFormed.read_iff, mapping_iff]
      rw [hread hgood', hmaps k block]
      split
      · next hlt => rw [hread ht, and_iff_right hlt]
      · next hge => exact iff_of_false (fun hno => hge hno.1) (by simp)

/-- A truncation within the conditions cuts the array. -/
theorem Inv.truncate {size rounds : ℕ} {r : Outcome blockbits} (hbits : 8 ≤ blockbits)
    (h : Inv bucketOf dev map f byte) (hsize : size ≤ MAX_FILESIZE)
    (hzero : ∀ i, f.isize ≤ i → byte i = 0)
    (htrunc : tuxtruncate bucketOf maxBuffers dev map rest f size rounds = some r)
    (hregular : Regular bucketOf map r.file) :
    Inv bucketOf dev map r.file (cut byte size) ∧ r.file.isize = size ∧ r.file.pos = f.pos ∧
      r.bytes = [] ∧ f.events <+: r.file.events := by
  -- without a shrinking size there is nothing to cut
  have hkeep : f.isize ≤ size → cut byte size = byte := by
    intro hle
    funext i
    by_cases hi : i < size
    · exact if_pos hi
    · rw [cut, if_neg hi, hzero i (by omega)]
  unfold tuxtruncate at htrunc
  dsimp only at htrunc
  split at htrunc
  · next hsame =>
      cases htrunc
      exact ⟨by rwa [hkeep (Nat.le_of_eq hsame.symm)], hsame.symm, rfl, rfl, List.prefix_refl _⟩
  · split at htrunc
    · next hexpand =>
        cases htrunc
        have hle := Nat.le_of_lt (of_decide_eq_true hexpand)
        exact ⟨by rw [hkeep hle]; exact ⟨h.good, h.holds⟩, rfl, rfl, rfl, List.prefix_refl _⟩
    · split at htrunc
      · cases htrunc
      · next g hcut =>
          obtain ⟨s, hchop, rfl⟩ := Option.map_eq_some_iff.mp htrunc
          have hcont := truncatePartialBlock_continues hcut
          obtain ⟨hwalked, hseen, hcached⟩ := hregular _ (List.mem_concat_self ..)
          obtain ⟨byte', hinv, hbyte⟩ := Inv.truncatePartialBlock (f := { f with isize := size })
            hbits ⟨h.good, h.holds⟩ hsize hcut (hregular.before (List.prefix_append _ _))
          have hkey : (size + (2 ^ blockbits - 1)) / 2 ^ blockbits < 2 ^ 56 := by
            have hblock : 2 ^ 8 ≤ 2 ^ blockbits := Nat.pow_le_pow_right (by decide) hbits
            have hmax : MAX_FILESIZE = 2 ^ 60 := rfl
            exact Nat.div_lt_of_lt_mul (by omega)
          obtain ⟨hgood, hblock⟩ := chop_blocks hkey hinv.good hseen hchop
          have hbehind : ∀ k, ¬ k < (size + (2 ^ blockbits - 1)) / 2 ^ blockbits →
              @blocks blockbits (cut byte size) k = fun _ => 0 := by
            intro k hk
            funext i
            have hle := Nat.not_lt.mp (mt lt_key.mpr hk)
            exact if_neg (by omega)
          have hholds : Holds bucketOf (fun _ => 0) dev map (blocks (cut byte size)) s.tree g.pool := by
            refine ⟨hinv.holds.cached, hinv.holds.index, fun k id hid hstate => ?_, fun k hk => ?_⟩
            · by_cases hlt : k < (size + (2 ^ blockbits - 1)) / 2 ^ blockbits
              · rw [hinv.holds.data k id hid hstate, hbyte k (lt_key.mp hlt)]
              · rw [hcached k id (Nat.not_lt.mp hlt) hid hstate, hbehind k hlt]
            · rw [stored, hblock k]
              split
              · next hlt => rw [← hbyte k (lt_key.mp hlt), ← hinv.holds.device k hk, stored]
              · next hge => rw [hbehind k hge]; rfl
          exact ⟨⟨hgood, hholds.walked hwalked⟩, hcont.isize, hcont.pos, rfl,
            hcont.events.trans (List.prefix_append _ _)⟩

/-! ## `flush_buffers` -/

theorem flushList_continues {rounds : ℕ} {r : Outcome blockbits}
    (hflush : flushList bucketOf maxBuffers dev map rest rounds f = some r) :
    Continues f r.file := by
  induction rounds generalizing f with
  | zero =>
      rw [flushList] at hflush
      split at hflush
      · cases hflush
        exact Continues.refl
      · cases hflush
  | succ rounds ih =>
      rw [flushList] at hflush
      split at hflush
      · cases hflush
        exact Continues.refl
      · split at hflush
        · cases hflush
        · split at hflush
          · cases hflush
          · next g hio =>
              cases hflush
              exact filemapIo_continues hio
          · next g hio =>
              split at hflush
              · cases hflush
              · exact (filemapIo_continues hio).trans (ih hflush)

/-- A flush writes dirty buffers, and changes no byte. -/
theorem Inv.flush {rounds : ℕ} {r : Outcome blockbits} (hbits : 8 ≤ blockbits)
    (h : Inv bucketOf dev map f byte)
    (hflush : flushList bucketOf maxBuffers dev map rest rounds f = some r)
    (hregular : Regular bucketOf map r.file) :
    Inv bucketOf dev map r.file byte ∧ r.bytes = [] := by
  induction rounds generalizing f with
  | zero =>
      rw [flushList] at hflush
      split at hflush
      · cases hflush
        exact ⟨h, rfl⟩
      · cases hflush
  | succ rounds ih =>
      rw [flushList] at hflush
      split at hflush
      · cases hflush
        exact ⟨h, rfl⟩
      · next id ids hdirty =>
          split at hflush
          · cases hflush
          · next hstate =>
              have hstate := not_not.mp hstate
              have hmap := (((h.holds.cached.linked.dirty map).2 id).mp
                (hdirty ▸ List.mem_cons_self)).2
              have hid : IsBuffer f.pool map (f.pool.buf id).index id :=
                ⟨hashed_of_dirty hstate, hmap, rfl⟩
              split at hflush
              · cases hflush
              · next g hio =>
                  cases hflush
                  cases (h.written hbits hid hstate hio hregular).1
              · next g hio =>
                  split at hflush
                  · cases hflush
                  · have hbefore := hregular.before (flushList_continues hflush).events
                    exact ih (h.written hbits hid hstate hio hbefore).2 hflush

/-! ## Runs -/

/-- The state of a file and what it stands for. -/
structure Represents (bucketOf : ℕ → Option ℕ) (dev map : ℕ) (f : State blockbits) (r : Bytes) :
    Prop where
  inv : Inv bucketOf dev map f r.byte
  isize : f.isize = r.size
  pos : f.pos = r.pos
  size : r.size ≤ MAX_FILESIZE
  zero : ∀ i, r.size ≤ i → r.byte i = 0

theorem Represents.write {r : Bytes} {data : List UInt8} {out : Outcome blockbits}
    (hbits : 8 ≤ blockbits) (h : Represents bucketOf dev map f r)
    (hio : tuxio bucketOf maxBuffers dev map rest true f data data.length = some out)
    (herr : out.err = false) (hregular : Regular bucketOf map out.file) :
    Represents bucketOf dev map out.file (r.after (.write data)) ∧ out.bytes = [] := by
  unfold tuxio at hio
  simp only [true_and, Bool.true_eq_false, false_and, if_false] at hio
  split at hio
  · cases hio
    cases herr
  · next hmax =>
      obtain ⟨out', hloop, heq⟩ := Option.map_eq_some_iff.mp hio
      have hpos := h.pos
      have hmax := Nat.not_lt.mp hmax
      -- the size is set behind the loop
      have hfile : out.err = out'.err ∧ out.bytes = out'.bytes ∧
          out.file = { out'.file with isize := max out'.file.isize out'.file.pos } := by
        rw [← heq]
        split
        · next hlt => exact ⟨rfl, rfl, by rw [Nat.max_eq_right (Nat.le_of_lt hlt)]⟩
        · next hge => exact ⟨rfl, rfl, by rw [Nat.max_eq_left (Nat.not_lt.mp hge)]⟩
      obtain ⟨herr', hbytes, hfile⟩ := hfile
      have hregular' : Regular bucketOf map out'.file := by
        rw [hfile] at hregular
        exact hregular
      obtain ⟨hinv, hat, hnil⟩ := h.inv.writeLoop hbits hmax hloop (herr' ▸ herr) hregular'
      have hisize := (tuxioLoop_continues hloop).2
      refine ⟨⟨?_, ?_, ?_, ?_, ?_⟩, hbytes.trans hnil⟩
      · rw [hfile, Bytes.after, ← hpos]
        exact ⟨hinv.good, hinv.holds⟩
      · rw [hfile, Bytes.after]
        simp only [hat, hisize, h.isize, hpos]
      · rw [hfile, Bytes.after]
        simp only [hat, hpos]
      · rw [hpos] at hmax
        exact Nat.max_le.mpr ⟨h.size, hmax⟩
      · intro i hi
        obtain ⟨hold, hnew⟩ := Nat.max_le.mp hi
        exact (overwrite_above hnew).trans (h.zero i hold)

theorem Represents.read {r : Bytes} {len : ℕ} {out : Outcome blockbits} (hbits : 8 ≤ blockbits)
    (h : Represents bucketOf dev map f r)
    (hio : tuxio bucketOf maxBuffers dev map rest false f [] len = some out)
    (herr : out.err = false) (hregular : Regular bucketOf map out.file) :
    Represents bucketOf dev map out.file (r.after (.read len)) ∧
      out.bytes = r.output (.read len) := by
  have hisize := h.isize
  have hpos := h.pos
  have hsize := h.size
  unfold tuxio at hio
  simp only [Bool.false_eq_true, false_and, if_false, true_and] at hio
  split at hio
  · next hend =>
      cases hio
      have hcount : r.count len = 0 := by
        rw [Bytes.count]
        omega
      refine ⟨⟨h.inv, hisize, ?_, hsize, h.zero⟩, ?_⟩
      · rw [Bytes.after, hcount]
        exact hpos
      · rw [Bytes.output, hcount]
        rfl
  · next hend =>
      obtain ⟨out', hloop, rfl⟩ := Option.map_eq_some_iff.mp hio
      have hcount : (if f.isize < f.pos + len then f.isize - f.pos else len) = r.count len := by
        rw [Bytes.count, hisize, hpos]
        split
        · omega
        · omega
      rw [hcount, hpos] at hloop
      have hmax : r.pos + r.count len ≤ MAX_FILESIZE := by
        rw [Bytes.count]
        omega
      obtain ⟨hinv, hat, hbytes⟩ := h.inv.readLoop hbits hmax hloop herr hregular
      exact ⟨⟨hinv, (tuxioLoop_continues hloop).2.trans hisize, hat, hsize, h.zero⟩, hbytes⟩

theorem Represents.truncate {r : Bytes} {size rounds : ℕ} {out : Outcome blockbits}
    (hbits : 8 ≤ blockbits) (h : Represents bucketOf dev map f r) (hsize : size ≤ MAX_FILESIZE)
    (htrunc : tuxtruncate bucketOf maxBuffers dev map rest f size rounds = some out)
    (hregular : Regular bucketOf map out.file) :
    Represents bucketOf dev map out.file (r.after (.truncate size rounds)) ∧ out.bytes = [] := by
  obtain ⟨hinv, hisize, hpos, hbytes, -⟩ := h.inv.truncate hbits hsize
    (fun i hi => h.zero i (h.isize ▸ hi)) htrunc hregular
  exact ⟨⟨hinv, hisize, hpos.trans h.pos, hsize, fun i hi => if_neg (Nat.not_lt.mpr hi)⟩, hbytes⟩

theorem Represents.flush {r : Bytes} {rounds : ℕ} {out : Outcome blockbits}
    (hbits : 8 ≤ blockbits) (h : Represents bucketOf dev map f r)
    (hflush : flushList bucketOf maxBuffers dev map rest rounds f = some out)
    (hregular : Regular bucketOf map out.file) :
    Represents bucketOf dev map out.file (r.after (.flush rounds)) ∧ out.bytes = [] := by
  obtain ⟨hinv, hbytes⟩ := h.inv.flush hbits hflush hregular
  have hcont := flushList_continues hflush
  exact ⟨⟨hinv, hcont.isize.trans h.isize, hcont.pos.trans h.pos, h.size, h.zero⟩, hbytes⟩

theorem Represents.step {r : Bytes} {op : Op} {out : Outcome blockbits} (hbits : 8 ≤ blockbits)
    (h : Represents bucketOf dev map f r) (hwithin : op.Within)
    (hstep : step bucketOf maxBuffers dev map rest f op = some out) (herr : out.err = false)
    (hregular : Regular bucketOf map out.file) :
    Represents bucketOf dev map out.file (r.after op) ∧ out.bytes = r.output op := by
  cases op with
  | seek pos =>
      cases hstep
      exact ⟨⟨⟨h.inv.good, h.inv.holds⟩, h.isize, rfl, h.size, h.zero⟩, rfl⟩
  | read len => exact h.read hbits hstep herr hregular
  | write data => exact h.write hbits hstep herr hregular
  | truncate size rounds => exact h.truncate hbits hwithin hstep hregular
  | flush rounds => exact h.flush hbits hstep hregular

theorem tuxio_events {write : Bool} {data : List UInt8} {len : ℕ} {out : Outcome blockbits}
    (hio : tuxio bucketOf maxBuffers dev map rest write f data len = some out) :
    f.events <+: out.file.events := by
  unfold tuxio at hio
  split at hio
  · cases hio
    exact List.prefix_refl _
  · split at hio
    · cases hio
      exact List.prefix_refl _
    · obtain ⟨out', hloop, rfl⟩ := Option.map_eq_some_iff.mp hio
      have hevents := (tuxioLoop_continues hloop).1
      split
      · exact hevents
      · exact hevents

theorem tuxtruncate_events {size rounds : ℕ} {out : Outcome blockbits}
    (htrunc : tuxtruncate bucketOf maxBuffers dev map rest f size rounds = some out) :
    f.events <+: out.file.events := by
  unfold tuxtruncate at htrunc
  dsimp only at htrunc
  split at htrunc
  · cases htrunc
    exact List.prefix_refl _
  · split at htrunc
    · cases htrunc
      exact List.prefix_refl _
    · split at htrunc
      · cases htrunc
      · next g hcut =>
          obtain ⟨s, -, rfl⟩ := Option.map_eq_some_iff.mp htrunc
          exact (truncatePartialBlock_continues hcut).events.trans (List.prefix_append _ _)

theorem step_events {op : Op} {out : Outcome blockbits}
    (hstep : step bucketOf maxBuffers dev map rest f op = some out) :
    f.events <+: out.file.events := by
  cases op with
  | seek pos =>
      cases hstep
      exact List.prefix_refl _
  | read len => exact tuxio_events hstep
  | write data => exact tuxio_events hstep
  | truncate size rounds => exact tuxtruncate_events hstep
  | flush rounds => exact (flushList_continues hstep).events

theorem create_represents {p : Pool (Block blockbits)} {t : Dtree} (hlinked : Linked bucketOf p)
    (hnone : ∀ id, p.Hashed id → (p.buf id).map ≠ map) (hroot : t.hasRoot = false) :
    Represents bucketOf dev map ⟨p, t, 0, 0, []⟩ ⟨fun _ => 0, 0, 0⟩ := by
  have hno : ∀ {k id}, ¬ IsBuffer p map k id := fun h => hnone _ h.1 h.2.1
  refine ⟨⟨fun hyes => ?_, ⟨⟨hlinked, fun x y hx _ hmap => absurd hmap (hnone x hx)⟩,
    fun k id h => absurd h hno, fun k id h => absurd h hno, fun k _ => ?_⟩⟩, rfl, rfl,
    Nat.zero_le _, fun _ _ => rfl⟩
  · rw [hroot] at hyes
    cases hyes
  · rw [stored, fileBlock, contents, hroot]
    rfl

theorem run_represents {r : Bytes} (hbits : 8 ≤ blockbits)
    (h : Run bucketOf maxBuffers dev map rest f r) (hregular : Regular bucketOf map f) :
    Represents bucketOf dev map f r := by
  induction h with
  | create hlinked hnone hroot => exact create_represents hlinked hnone hroot
  | step op h hwithin hstep ih =>
      have hbefore := ih (hregular.before (step_events hstep))
      exact (hbefore.step hbits hwithin hstep rfl hregular).1

end

end

/-- A cache without buffers. -/
def noBuffers : Pool (Block 8) :=
  ⟨fun _ => ⟨0, 0, 0, .freed, fun _ => 0⟩, 0, [], fun _ => [], fun _ _ => [], [], 0, fun _ _ _ => 7⟩

/-- An allocator of some blocks, and nothing else that runs. -/
def quiet (_ : ℕ) : Rest 8 := ⟨fun p => p, ⟨[1, 2], [100], []⟩⟩

abbrev quietStep (f : State 8) (op : Op) : Option (Outcome 8) := step hashBucket 100 0 0 quiet f op

/-- Three bytes are written to a new file and flushed. -/
def written : Option (Outcome 8) := quietStep ⟨noBuffers, sparse, 0, 0, []⟩ (.write [1, 2, 3])

end Tux3.File
