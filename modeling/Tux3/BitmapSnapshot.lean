import Tux3.Rollup
import Tux3.CacheCycle

/-!
# A rollup writes a snapshot of the bitmap

What a rollup writes is the bitmap as it was when `sb->rollup` was incremented, and what changes
while it runs is dirty for the next one.
-/
namespace Tux3.Cache

open Outcome

/-- The value a bit of a block got when it was last changed. -/
def lastBit (changes : List Change) (m j : ℕ) : Option Bool :=
  changes.foldl (fun last change =>
    if change.block = m ∧ bitAt change.before j ≠ bitAt change.after j then
      some (bitAt change.after j)
    else last) none

/-- From `sb` at the start of `rollup_log` to `sb'` at its end: the dirty blocks are written as
they were at the start, and every bit changed since is in a buffer that `blockread` finds and
that the next rollup writes. -/
structure Snapshot (sb sb' : Sb) : Prop where
  rollup : sb'.rollup = u32 (sb.rollup + 1)
  writes : sb'.writes = sb.writes ++
    sb.bitmap.dirty.map fun id => ((sb.bitmap.buffer id).index, (sb.bitmap.buffer id).data)
  dirty : ∀ m id k, sb.bitmap.hash m = some id → (sb.bitmap.buffer id).state = .dirty k →
    id ∈ sb.bitmap.dirty ∧ (sb.bitmap.buffer id).index = m
  changes : ∃ since, sb'.changes = sb.changes ++ since ∧ ∀ m j b, lastBit since m j = some b →
    ∃ id, sb'.bitmap.hash m = some id ∧ id ∈ sb'.bitmap.dirty ∧
      (sb'.bitmap.buffer id).state = .dirty (sb'.rollup % dirtyStates) ∧
      bitAt (sb'.bitmap.buffer id).data j = b

/-- Inside a rollup: `changes` and `writes` so far. -/
def Good (c : Cycle) (rollup : ℕ) (writes : List (ℕ × Bytes)) (changes : List Change)
    (sb : Sb) : Prop :=
  sb.rollup = rollup ∧ sb.writes = writes ∧
    ∃ since, sb.changes = changes ++ since ∧
      Inv { c with bits := lastBit since } (fun _ => 0) sb.bitmap

def OnlyBalloc (stop : Stop) : Prop := stop = .balloc

section
variable {env : Env} {c : Cycle} {rollup : ℕ} {writes : List (ℕ × Bytes)}
  {changes since : List Change} {sb : Sb} {map : Map} {m id : ℕ}

theorem lastBit_concat (change : Change) (m j : ℕ) :
    lastBit (changes ++ [change]) m j =
      if change.block = m ∧ bitAt change.before j ≠ bitAt change.after j then
        some (bitAt change.after j)
      else lastBit changes m j := by
  simp only [lastBit, List.foldl_append, List.foldl_cons, List.foldl_nil]

/-- One reference, to `id`. -/
def one (id : ℕ) : ℕ → ℕ := Function.update (fun _ => 0) id 1

theorem one_drop (id : ℕ) : Function.update (one id) id 0 = fun _ => 0 := by
  rw [one, Function.update_idem]
  exact Function.update_eq_self id _

theorem blockread_one (h : Inv c (fun _ => 0) map) (m : ℕ) :
    Yields OnlyBalloc (fun r => match r.1 with
      | none => Inv c (fun _ => 0) r.2
      | some id => Inv c (one id) r.2 ∧ r.2.hash m = some id)
      (blockread env map m) :=
  h.blockread m

theorem blockput_one (h : Inv c (one id) map) (hid : map.hash m = some id) :
    Yields OnlyBalloc (fun map' => Inv c (fun _ => 0) map') (blockput map id) := by
  refine (h.blockput hid (Function.update_self _ _ _)).mono fun map' h' => ?_
  rw [one_drop] at h'
  exact h'.1

/-- A change of a block that is held ends in a buffer of this cycle. -/
theorem change_good (sb : Sb) (h : Inv { c with bits := lastBit since } (one id) sb.bitmap)
    (hrollup : sb.rollup = rollup) (hwrites : sb.writes = writes)
    (hchanges : sb.changes = changes ++ since) (hid : sb.bitmap.hash m = some id)
    (hnow : rollup % dirtyStates = c.now) (bits : Bytes → Bytes) :
    Yields OnlyBalloc (Good c rollup writes changes) (sb.change env id bits) := by
  rw [Sb.change, hrollup]
  refine (h.blockdirty hid (Function.update_self _ _ _) hnow).bind fun r hr => ?_
  obtain ⟨clone, map⟩ := r
  obtain ⟨hinv, hclone, hstate⟩ := hr
  dsimp only at hinv hclone hstate ⊢
  rw [one_drop] at hinv
  have hindex := (hinv.hashed m clone hclone).2.1
  have hdata := hinv.change hclone hstate (bits (map.buffer clone).data)
    (lastBit (since ++ [⟨m, (map.buffer clone).data, bits (map.buffer clone).data⟩]))
    fun m' j => lastBit_concat _ m' j
  have hmark : markBufferDirtyNon (setData map clone (bits (map.buffer clone).data)) clone =
      .ok (setData map clone (bits (map.buffer clone).data)) := by
    simp only [markBufferDirtyNon, setData, Map.setBuffer, Function.update_self, hstate]
    rfl
  rw [hmark]
  refine (blockput_one hdata hclone).bind fun map' hmap' => ?_
  refine yields_pure ⟨rfl, hwrites, since ++ [_], ?_, hmap'⟩
  rw [hchanges, hindex, List.append_assoc]

theorem searchMap_good (hnow : rollup % dirtyStates = c.now) {blocks limit mapblocks : ℕ}
    (n mapblock offset startbit tail : ℕ) (h : Good c rollup writes changes sb) :
    Yields OnlyBalloc (fun r => Good c rollup writes changes r.2)
      (searchMap env blocks limit mapblocks n mapblock offset startbit tail sb) := by
  induction n generalizing mapblock offset startbit tail sb with
  | zero => exact yields_pure h
  | succ n ih =>
      obtain ⟨hrollup, hwrites, since, hchanges, hinv⟩ := h
      rw [searchMap]
      refine (blockread_one hinv mapblock).bind fun r hr => ?_
      obtain ⟨buffer, map⟩ := r
      cases buffer with
      | none => exact yields_pure ⟨hrollup, hwrites, since, hchanges, hr⟩
      | some id =>
          obtain ⟨hmap, hid⟩ := hr
          dsimp only at hmap hid ⊢
          have hput := blockput_one hmap hid
          split
          case h_1 =>
            refine hput.bind fun map' hmap' => ?_
            exact ih _ _ _ _ ⟨hrollup, hwrites, since, hchanges, hmap'⟩
          case h_2 =>
            split
            · exact yields_throw rfl
            · split
              · split
                · exact hput.bind fun map' hmap' =>
                    yields_pure ⟨hrollup, hwrites, since, hchanges, hmap'⟩
                · exact yields_throw rfl
              · refine @Yields.bind _ _ _ _ (Good c rollup writes changes) _ _ _ ?_ fun sb' hsb' =>
                  yields_pure hsb'
                exact change_good { sb with bitmap := map } hmap hrollup hwrites hchanges hid hnow _

theorem ballocFromRange_good (hnow : rollup % dirtyStates = c.now)
    (h : Good c rollup writes changes sb) (start count blocks : ℕ) :
    Yields OnlyBalloc (fun r => Good c rollup writes changes r.2)
      (ballocFromRange env sb start count blocks) := by
  rw [ballocFromRange]
  split
  · exact yields_throw rfl
  · exact searchMap_good hnow _ _ _ _ _ h

theorem balloc_good (hnow : rollup % dirtyStates = c.now) (h : Good c rollup writes changes sb)
    (blocks : ℕ) :
    Yields OnlyBalloc (fun r => Good c rollup writes changes r.2.2) (balloc env sb blocks) := by
  rw [balloc]
  split
  · exact yields_throw rfl
  · refine (ballocFromRange_good hnow h _ _ _).bind fun r hr => ?_
    by_cases hfound : 0 ≤ r.1
    · simp only [if_pos hfound]
      exact yields_pure hr
    · simp only [if_neg hfound]
      refine (ballocFromRange_good hnow hr _ _ _).bind fun r' hr' => ?_
      split
      · exact yields_pure hr'
      · exact yields_pure hr'

theorem bfree_good (hnow : rollup % dirtyStates = c.now) (h : Good c rollup writes changes sb)
    (start blocks : ℕ) :
    Yields OnlyBalloc (fun r => Good c rollup writes changes r.2) (bfree env sb start blocks) := by
  obtain ⟨hrollup, hwrites, since, hchanges, hinv⟩ := h
  rw [bfree]
  split
  · exact yields_throw rfl
  · refine (blockread_one hinv _).bind fun r hr => ?_
    obtain ⟨buffer, map⟩ := r
    cases buffer with
    | none => exact yields_pure ⟨hrollup, hwrites, since, hchanges, hr⟩
    | some id =>
        obtain ⟨hmap, hid⟩ := hr
        dsimp only at hmap hid ⊢
        split
        · exact yields_throw rfl
        · refine @Yields.bind _ _ _ _ (Good c rollup writes changes) _ _ _ ?_ fun sb' hsb' =>
            yields_pure hsb'
          exact change_good { sb with bitmap := map } hmap hrollup hwrites hchanges hid hnow _

theorem op_good (hnow : rollup % dirtyStates = c.now) (h : Good c rollup writes changes sb)
    (op : Op) : Yields OnlyBalloc (Good c rollup writes changes) (op.run env sb) := by
  cases op with
  | balloc blocks => exact (balloc_good hnow h blocks).bind fun r hr => yields_pure hr
  | bfree start blocks => exact (bfree_good hnow h start blocks).bind fun r hr => yields_pure hr
  | newBuffer =>
      obtain ⟨hrollup, hwrites, since, hchanges, hinv⟩ := h
      exact (hinv.evictVictims _).bind fun map hmap =>
        yields_pure ⟨hrollup, hwrites, since, hchanges, hmap.1⟩

theorem runOps_good (hnow : rollup % dirtyStates = c.now) (h : Good c rollup writes changes sb)
    (ops : List Op) : Yields OnlyBalloc (Good c rollup writes changes) (runOps env sb ops) := by
  induction ops generalizing sb with
  | nil => exact yields_pure h
  | cons op ops ih => exact (op_good hnow h op).bind fun sb' h' => ih h'

/-! ## The rollup -/

theorem dirtyStates_pred {rollup old : ℕ} (h : rollup = u32 (old + 1)) :
    u32 (rollup + (2 ^ 32 - 1)) % dirtyStates = old % dirtyStates ∧
      rollup % dirtyStates ≠ old % dirtyStates := by
  simp only [u32, dirtyStates] at *
  omega

theorem writeBitmap_good (hnow : rollup % dirtyStates = c.now)
    (hold : u32 (rollup + (2 ^ 32 - 1)) % dirtyStates = c.old) {ids : List ℕ}
    (hwaiting : c.waiting = id :: ids) (h : Good c rollup writes changes sb) (ops : List Op) :
    Yields OnlyBalloc (Good { c with waiting := ids } rollup (writes ++ [c.snap id]) changes)
      (writeBitmap env sb id ops) := by
  rw [writeBitmap]
  refine (runOps_good hnow h ops).bind fun sb' h' => ?_
  obtain ⟨hrollup, hwrites, since, hchanges, hinv⟩ := h'
  have hid : id ∈ sb'.bitmap.io := by
    rw [hinv.waiting]
    exact hwaiting ▸ List.mem_cons_self
  obtain ⟨-, hstate, hsnap, -⟩ := hinv.io id hid
  rw [if_neg (by rw [hstate, hrollup, hold]; exact fun hne => hne rfl)]
  refine (hinv.cleanBuffer hid).bind fun map hmap => yields_pure ?_
  refine ⟨hrollup, ?_, since, hchanges, ?_⟩
  · rw [hwrites, hsnap]
  · have herase : c.waiting.erase id = ids := by rw [hwaiting, List.erase_cons_head]
    simp only [herase] at hmap
    exact hmap

theorem writeBitmaps_good (hnow : rollup % dirtyStates = c.now)
    (hold : u32 (rollup + (2 ^ 32 - 1)) % dirtyStates = c.old) (place : ℕ → List Op) {ids : List ℕ}
    (hwaiting : c.waiting = ids) (h : Good c rollup writes changes sb) :
    Yields OnlyBalloc
      (Good { c with waiting := [] } rollup (writes ++ ids.map c.snap) changes)
      (writeBitmaps env place sb ids) := by
  induction ids generalizing c sb writes with
  | nil =>
      obtain ⟨now, old, distinct, waiting, snap, bits⟩ := c
      obtain rfl : waiting = [] := hwaiting
      rw [List.map_nil, List.append_nil]
      exact yields_pure h
  | cons id ids ih =>
      refine (writeBitmap_good hnow hold hwaiting h _).bind fun sb' h' => ?_
      rw [List.map_cons, ← List.singleton_append, ← List.append_assoc]
      exact @ih { c with waiting := ids } _ _ hnow hold rfl h'

/-- Between rollups: no buffer is held and none waits. -/
def Quiet (sb : Sb) : Prop :=
  ∃ c : Cycle, c.now = sb.rollup % dirtyStates ∧ c.waiting = [] ∧ (∀ m j, c.bits m j = none) ∧
    Inv c (fun _ => 0) sb.bitmap

/-- The cycle a rollup starts. -/
def startCycle (sb : Sb) (hne : u32 (sb.rollup + 1) % dirtyStates ≠ sb.rollup % dirtyStates) :
    Cycle where
  now := u32 (sb.rollup + 1) % dirtyStates
  old := sb.rollup % dirtyStates
  distinct := hne
  waiting := sb.bitmap.dirty
  snap id := ((sb.bitmap.buffer id).index, (sb.bitmap.buffer id).data)
  bits _ _ := none

theorem rollupLog_snapshot (env : Env) (h : Quiet sb) (flush : List Op) (place : ℕ → List Op) :
    Yields OnlyBalloc (fun sb' => Snapshot sb sb' ∧ Quiet sb') (rollupLog env flush place sb) := by
  obtain ⟨c, hc, hwaiting, hbits, hinv⟩ := h
  obtain ⟨hold, hne⟩ := dirtyStates_pred (rfl : u32 (sb.rollup + 1) = u32 (sb.rollup + 1))
  have hio : sb.bitmap.io = [] := hinv.waiting.trans hwaiting
  have hdirty : ∀ m id k, sb.bitmap.hash m = some id → (sb.bitmap.buffer id).state = .dirty k →
      id ∈ sb.bitmap.dirty ∧ (sb.bitmap.buffer id).index = m := by
    intro m id k hid hstate
    refine ⟨?_, (hinv.hashed m id hid).2.1⟩
    rcases hinv.cycle m id k hid hstate with ⟨-, hin⟩ | ⟨-, hin⟩
    · exact hin
    · rw [hio] at hin
      cases hin
  have hstart : Good (startCycle sb hne) (u32 (sb.rollup + 1)) sb.writes sb.changes
      { sb with
        rollup := u32 (sb.rollup + 1)
        bitmap := { sb.bitmap with dirty := [], io := sb.bitmap.dirty } } := by
    refine ⟨rfl, rfl, [], (List.append_nil _).symm, ?_⟩
    obtain ⟨h1, h2, h3, h4, h5, h6, hw, h7, h8⟩ := hinv
    constructor <;> simp only [startCycle] <;> grind [lastBit]
  rw [rollupLog]
  refine (runOps_good rfl hstart flush).bind fun sb1 h1 => ?_
  obtain ⟨-, -, since, -, hinv1⟩ := id h1
  refine (writeBitmaps_good rfl hold place hinv1.waiting.symm h1).bind fun sb2 h2 => ?_
  obtain ⟨hrollup, hwrites, since, hchanges, hinv2⟩ := h2
  rw [if_neg (not_not.mpr hinv2.waiting)]
  refine yields_pure ⟨⟨hrollup, ?_, hdirty, since, hchanges, fun m j b hb => ?_⟩, ?_⟩
  · rw [hwrites, hinv1.waiting]
    rfl
  · obtain ⟨id, hid, hstate, hbit⟩ := hinv2.changed m j b hb
    refine ⟨id, hid, ?_, ?_, hbit⟩
    · rcases hinv2.cycle m id _ hid hstate with ⟨-, hin⟩ | ⟨-, hin⟩
      · exact hin
      · rw [hinv2.waiting] at hin
        cases hin
    · rw [hrollup]
      exact hstate
  · refine ⟨{ startCycle sb hne with waiting := [] }, ?_, rfl, fun _ _ => rfl, ?_⟩
    · rw [hrollup]
      rfl
    · obtain ⟨h1, h2, h3, h4, h5, h6, hw, h7, h8⟩ := hinv2
      exact ⟨h1, h2, h3, h4, h5, h6, hw, h7, fun m j b hb => by cases hb⟩

/-! ## Runs -/

/-- In the cycle 0 `mark_buffer_dirty` does as `blockdirty` does. -/
theorem Inv.redirty {refs : ℕ → ℕ} (h : Inv c refs map) (hid : map.hash m = some id)
    (hnow : c.now = 0) (hbits : ∀ m j, c.bits m j = none) (hwaiting : c.waiting = [])
    (data : Bytes) :
    Inv c refs (markBufferDirty (setData map id data) id) ∧
      (markBufferDirty (setData map id data) id).hash m = some id := by
  obtain ⟨h1, h2, h3, h4, h5, h6, hw, h7, h8⟩ := h
  have hio : id ∉ map.io := by
    rw [hw, hwaiting]
    exact List.not_mem_nil
  simp only [markBufferDirty, setData, Map.setBuffer, Function.update_self]
  split
  case h_1 k hstate =>
    refine ⟨?_, hid⟩
    constructor <;> simp only [Function.update_apply] <;> grind
  case h_2 hstate =>
    have hdirty : id ∉ map.dirty := fun hin => hstate _ (h4 id hin).2
    refine ⟨?_, hid⟩
    constructor <;>
      simp only [setBufferDirty, setBufferState, Map.setBuffer, Function.update_apply,
        List.erase_of_not_mem hdirty, List.erase_of_not_mem hio] <;> grind

/-- Replay dirties buffers for the cycle 0, the first one. -/
theorem updateBitmap_quiet (h : Quiet sb) (hfirst : sb.rollup = 0) (start count : ℕ) (set : Bool) :
    Yields OnlyBalloc (fun r => Quiet r.2) (updateBitmap env sb start count set) := by
  obtain ⟨c, hc, hwaiting, hbits, hinv⟩ := h
  have hnow : c.now = 0 := by rw [hc, hfirst]; rfl
  rw [updateBitmap]
  refine (blockread_one hinv _).bind fun r hr => ?_
  obtain ⟨buffer, map⟩ := r
  cases buffer with
  | none => exact yields_pure ⟨c, hc, hwaiting, hbits, hr⟩
  | some id =>
      obtain ⟨hmap, hid⟩ := hr
      dsimp only at hmap hid ⊢
      have hfail : ∀ err : ℤ, Yields OnlyBalloc (fun r : ℤ × Sb => Quiet r.2) (do
          let map ← blockput map id
          return (err, { sb with bitmap := map })) := fun err =>
        (blockput_one hmap hid).bind fun map' hmap' => yields_pure ⟨c, hc, hwaiting, hbits, hmap'⟩
      have hdone : ∀ (data : Bytes) (freeblocks : ℤ),
          Yields OnlyBalloc (fun r : ℤ × Sb => Quiet r.2) (do
            let map ← blockput (markBufferDirty (setData map id data) id) id
            return (0, { sb with bitmap := map, freeblocks := freeblocks })) := by
        intro data freeblocks
        obtain ⟨hinv', hid'⟩ := hmap.redirty hid hnow hbits hwaiting data
        exact (blockput_one hinv' hid').bind fun map' hmap' =>
          yields_pure ⟨c, hc, hwaiting, hbits, hmap'⟩
      cases set <;> simp only [Bool.false_eq_true, if_false, if_true] <;> split
      · exact hfail _
      · exact hdone _ _
      · exact hfail _
      · exact hdone _ _

theorem op_quiet (h : Quiet sb) (op : Op) : Yields OnlyBalloc Quiet (op.run env sb) := by
  obtain ⟨c, hc, hwaiting, hbits, hinv⟩ := h
  have hgood : Good c sb.rollup sb.writes sb.changes sb := by
    refine ⟨rfl, rfl, [], (List.append_nil _).symm, ?_⟩
    obtain ⟨h1, h2, h3, h4, h5, h6, hw, h7, h8⟩ := hinv
    exact ⟨h1, h2, h3, h4, h5, h6, hw, h7, nofun⟩
  refine (op_good hc.symm hgood op).mono fun sb' h' => ?_
  obtain ⟨hrollup, -, since, -, hinv'⟩ := h'
  refine ⟨{ c with bits := fun _ _ => none }, hrollup ▸ hc, hwaiting, fun _ _ => rfl, ?_⟩
  obtain ⟨h1, h2, h3, h4, h5, h6, hw, h7, h8⟩ := hinv'
  exact ⟨h1, h2, h3, h4, h5, h6, hw, h7, nofun⟩

theorem Reachable.quiet (h : Reachable env sb) : Quiet sb := by
  induction h with
  | mount sb cold dirty io rollup =>
      refine ⟨⟨0, 1, nofun, [], fun _ => (0, fun _ => 0#8), fun _ _ => none⟩, ?_, rfl,
        fun _ _ => rfl, ?_⟩
      · rw [rollup]
        rfl
      · constructor <;> grind
  | replay prev first start count set run ih => exact (updateBitmap_quiet ih first _ _ _).ok run
  | op prev op run ih => exact (op_quiet ih op).ok run
  | rollup prev flush place run ih => exact ((rollupLog_snapshot _ ih flush place).ok run).2

/-- A rollup never fails an assertion of the buffer code or of `write_bitmap`, and writes a
snapshot of the bitmap. -/
theorem rollup_writes_snapshot (h : Reachable env sb) (flush : List Op) (place : ℕ → List Op) :
    rollupLog env flush place sb ≠ .error .buffer ∧
      ∀ sb', rollupLog env flush place sb = .ok sb' → Snapshot sb sb' := by
  have hyields := rollupLog_snapshot env h.quiet flush place
  refine ⟨fun herr => ?_, fun sb' hok => (hyields.ok hok).1⟩
  cases hyields.error herr

end

/-- The allocation made to place the only dirty bitmap block forks it: the block is written with
one bit set, and the two bits of its successor wait for the next rollup. -/
theorem rollup_writes_snapshot_fork :
    ∃ (sb sb' : Sb),
      rollupLog ⟨fun _ => [], fun _ _ => [fun _ => 0#8]⟩ [] (fun _ => [.balloc 1]) sb = .ok sb' ∧
      sb'.writes.map (fun w => (w.1, w.2 0)) = [(0, 1#8)] ∧
      sb'.bitmap.dirty.map (fun id => (sb'.bitmap.buffer id).data 0) = [3#8] ∧ Snapshot sb sb' := by
  have hmount : Reachable ⟨fun _ => [], fun _ _ => [fun _ => 0#8]⟩
      ⟨0, 8, 8, 0, 0, ⟨fun _ => ⟨0, .freed, 0, fun _ => 0#8⟩, fun _ => none, [], [], 0⟩, [], []⟩ :=
    .mount _ (fun _ => rfl) rfl rfl rfl
  have hop := hmount.op (.balloc 1) rfl
  exact ⟨_, _, rfl, rfl, rfl, (rollup_writes_snapshot hop [] fun _ => [.balloc 1]).2 _ rfl⟩

end Tux3.Cache
