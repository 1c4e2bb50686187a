import Tux3.Cache
import Tux3.Lib.Outcome

/-!
# One cycle of the bitmap buffers

What holds of the buffers of the bitmap file while the cycle `now` dirties them and the
buffers of the cycle `old` wait to be written, and that each function of the cache keeps it.
-/
namespace Tux3.Cache

open Outcome

/-- The two cycles, the buffers that wait to be written with their index and data, and the last
value of each bit changed in this cycle. -/
structure Cycle where
  now : ℕ
  old : ℕ
  distinct : now ≠ old
  waiting : List ℕ
  snap : ℕ → ℕ × Bytes
  bits : ℕ → ℕ → Option Bool

/-- `refs` are the references held to hashed buffers. A forked buffer keeps one. -/
structure Inv (c : Cycle) (refs : ℕ → ℕ) (map : Map) : Prop where
  hashed : ∀ m id, map.hash m = some id → id < map.fresh ∧ (map.buffer id).index = m ∧
    (map.buffer id).state ≠ .freed ∧ (map.buffer id).count = refs id
  unused : ∀ id, map.fresh ≤ id → refs id = 0
  cycle : ∀ m id k, map.hash m = some id → (map.buffer id).state = .dirty k →
    k = c.now ∧ id ∈ map.dirty ∨ k = c.old ∧ id ∈ map.io
  dirty : ∀ id ∈ map.dirty, map.hash (map.buffer id).index = some id ∧
    (map.buffer id).state = .dirty c.now
  io : ∀ id ∈ map.io, id < map.fresh ∧ (map.buffer id).state = .dirty c.old ∧
    ((map.buffer id).index, (map.buffer id).data) = c.snap id ∧
    (map.hash (map.buffer id).index = some id ∨ (map.buffer id).count = 1)
  dirty_nodup : map.dirty.Nodup
  waiting : map.io = c.waiting
  io_nodup : map.io.Nodup
  changed : ∀ m j b, c.bits m j = some b → ∃ id, map.hash m = some id ∧
    (map.buffer id).state = .dirty c.now ∧ bitAt (map.buffer id).data j = b

/-- Held buffers stay as they are, and no block gets a buffer. -/
structure Keeps (refs : ℕ → ℕ) (map map' : Map) : Prop where
  held : ∀ m id, map.hash m = some id → 0 < refs id →
    map'.hash m = some id ∧ map'.buffer id = map.buffer id
  absent : ∀ m, map.hash m = none → map'.hash m = none

/-- A buffer just made: empty, with one reference, and not hashed. -/
structure Made (refs : ℕ → ℕ) (map : Map) (id : ℕ) : Prop where
  known : id < map.fresh
  unhashed : ∀ m, map.hash m ≠ some id
  unheld : refs id = 0
  state : (map.buffer id).state = .empty
  count : (map.buffer id).count = 1
  dirty : id ∉ map.dirty
  io : id ∉ map.io

theorem Keeps.refl (refs : ℕ → ℕ) (map : Map) : Keeps refs map map :=
  ⟨fun _ _ h _ => ⟨h, rfl⟩, fun _ h => h⟩

theorem Keeps.trans {refs : ℕ → ℕ} {map map' map'' : Map} (h : Keeps refs map map')
    (h' : Keeps refs map' map'') : Keeps refs map map'' := by
  refine ⟨fun m id hid href => ?_, fun m hm => h'.absent m (h.absent m hm)⟩
  obtain ⟨h1, h2⟩ := h.held m id hid href
  obtain ⟨h3, h4⟩ := h'.held m id h1 href
  exact ⟨h3, h4.trans h2⟩

section
variable {env : Env} {allowed : Stop → Prop} {c : Cycle} {refs : ℕ → ℕ} {map : Map} {id m : ℕ}

theorem Inv.getBh (h : Inv c refs map) (hid : map.hash m = some id) :
    Inv c (Function.update refs id (refs id + 1)) (Cache.getBh map id) := by
  obtain ⟨h1, h2, h3, h4, h5, h6, hw, h7, h8⟩ := h
  constructor <;> simp only [Cache.getBh, Map.setBuffer, Function.update_apply] <;> grind

theorem Inv.blockput (h : Inv c refs map) (hid : map.hash m = some id) {n : ℕ}
    (href : refs id = n + 1) :
    Yields allowed (fun map' => Inv c (Function.update refs id n) map' ∧ map'.hash = map.hash)
      (Cache.blockput map id) := by
  have hcount := (h.hashed m id hid).2.2.2
  rw [Cache.blockput, if_neg (by omega)]
  refine yields_pure ⟨?_, rfl⟩
  obtain ⟨h1, h2, h3, h4, h5, h6, hw, h7, h8⟩ := h
  constructor <;> simp only [Map.setBuffer, Function.update_apply] <;> grind

theorem Inv.evict (h : Inv c refs map) (hid : map.hashed id = true)
    (hcount : (map.buffer id).count = 0) (hstate : (map.buffer id).state = .clean) :
    Yields allowed (fun map' => Inv c refs map' ∧ Keeps refs map map' ∧ map'.fresh = map.fresh)
      (evictBuffer map id) := by
  rw [evictBuffer, if_pos (Or.inl hstate), if_pos hcount]
  simp only [removeBufferHash, hid, if_true]
  simp only [Map.hashed, decide_eq_true_eq] at hid
  obtain ⟨h1, h2, h3, h4, h5, h6, hw, h7, h8⟩ := h
  have hdirty : id ∉ map.dirty := fun hin => nomatch hstate.symm.trans (h4 id hin).2
  have hio : id ∉ map.io := fun hin => nomatch hstate.symm.trans (h5 id hin).2.1
  refine yields_pure ⟨?_, ?_, rfl⟩
  · constructor <;>
      simp only [setBufferState, Map.setBuffer, Function.update_apply,
        List.erase_of_not_mem hdirty, List.erase_of_not_mem hio] <;> grind
  · constructor <;> simp only [setBufferState, Map.setBuffer, Function.update_apply] <;> grind

theorem Inv.evictVictims (h : Inv c refs map) (victims : List ℕ) :
    Yields allowed (fun map' => Inv c refs map' ∧ Keeps refs map map' ∧ map'.fresh = map.fresh)
      (Cache.evictVictims map victims) := by
  induction victims generalizing map with
  | nil => exact ⟨h, Keeps.refl refs map, rfl⟩
  | cons victim victims ih =>
      rw [Cache.evictVictims]
      split
      case isFalse => exact ih h
      rename_i hvictim
      refine (h.evict hvictim.1 hvictim.2.1 hvictim.2.2).bind fun map1 h1 => ?_
      refine (ih h1.1).mono fun map2 h2 => ?_
      exact ⟨h2.1, h1.2.1.trans h2.2.1, h2.2.2.trans h1.2.2⟩

theorem Inv.newBuffer (h : Inv c refs map) :
    Yields allowed (fun r => Inv c refs r.2 ∧ Keeps refs map r.2 ∧ Made refs r.2 r.1)
      (Cache.newBuffer env map) := by
  rw [Cache.newBuffer]
  refine (h.evictVictims _).bind fun map1 h1 => yields_pure ?_
  obtain ⟨h1, hkeeps, -⟩ := h1
  have hfresh : ∀ m, map1.hash m ≠ some map1.fresh := fun m hm =>
    Nat.lt_irrefl _ (h1.hashed m _ hm).1
  have hdirty : map1.fresh ∉ map1.dirty := fun hin => hfresh _ (h1.dirty _ hin).1
  have hio : map1.fresh ∉ map1.io := fun hin => Nat.lt_irrefl _ (h1.io _ hin).1
  have href := h1.unused _ (Nat.le_refl _)
  obtain ⟨g1, g2, g3, g4, g5, g6, gw, g7, g8⟩ := h1
  obtain ⟨k1, k2⟩ := hkeeps
  refine ⟨?_, ?_, ?_⟩
  · constructor <;> simp only [Map.setBuffer, Function.update_apply] <;> grind
  · constructor <;> simp only [Map.setBuffer, Function.update_apply] <;> grind
  · constructor <;> simp only [Map.setBuffer, Function.update_self] <;> grind

theorem Inv.blockget (h : Inv c refs map) (m : ℕ) :
    Yields allowed (fun r => Inv c (Function.update refs r.1 (refs r.1 + 1)) r.2 ∧
      r.2.hash m = some r.1 ∧
      (∀ m' id, map.hash m' = some id → 0 < refs id → r.2.hash m' = some id) ∧
      ((∀ id, map.hash m = some id → (map.buffer id).state = .empty) →
        (r.2.buffer r.1).state = .empty))
      (Cache.blockget env map m) := by
  rw [Cache.blockget]
  split
  case h_1 id hid =>
    refine yields_pure ⟨h.getBh hid, hid, fun m' id' hid' _ => hid', fun hempty => ?_⟩
    simp only [Cache.getBh, Map.setBuffer, Function.update_self, hempty id hid]
  case h_2 hnone =>
    refine h.newBuffer.bind fun r hr => yields_pure ?_
    obtain ⟨id, map1⟩ := r
    obtain ⟨⟨g1, g2, g3, g4, g5, g6, gw, g7, g8⟩, ⟨k1, k2⟩, ⟨n1, n2, n3, n4, n5, n6, n7⟩⟩ := hr
    dsimp only at *
    have habsent := k2 m hnone
    refine ⟨?_, ?_, ?_, fun _ => ?_⟩
    · constructor <;>
        simp only [insertBufferHash, Map.setBuffer, Function.update_self, Function.update_apply] <;>
        grind
    · simp only [insertBufferHash, Map.setBuffer, Function.update_self]
    · simp only [insertBufferHash, Map.setBuffer, Function.update_self, Function.update_apply]
      grind
    · simp only [insertBufferHash, Map.setBuffer, Function.update_self, n4]

theorem Inv.fill (h : Inv c refs map) (hid : map.hash m = some id)
    (hstate : (map.buffer id).state = .empty) (data : Bytes) :
    Yields allowed (fun map' => Inv c refs map' ∧ map'.hash = map.hash)
      (setBufferClean (setData map id data) id) := by
  have hclean : ¬ ((setData map id data).buffer id).state = .clean := by
    simp only [setData, Map.setBuffer, Function.update_self, hstate]
    nofun
  rw [setBufferClean, if_neg hclean]
  obtain ⟨h1, h2, h3, h4, h5, h6, hw, h7, h8⟩ := h
  have hdirty : id ∉ map.dirty := fun hin => nomatch hstate.symm.trans (h4 id hin).2
  have hio : id ∉ map.io := fun hin => nomatch hstate.symm.trans (h5 id hin).2.1
  refine yields_pure ⟨?_, rfl⟩
  constructor <;>
    simp only [setData, setBufferState, Map.setBuffer, Function.update_apply,
      List.erase_of_not_mem hdirty, List.erase_of_not_mem hio] <;> grind

theorem Inv.readBlocks (h : Inv c refs map) (m : ℕ) (datas : List Bytes) :
    Yields allowed (fun map' => Inv c refs map' ∧
      ∀ m' id, map.hash m' = some id → 0 < refs id → map'.hash m' = some id)
      (Cache.readBlocks env map m datas) := by
  induction datas generalizing map m with
  | nil => exact ⟨h, fun _ _ hid _ => hid⟩
  | cons data datas ih =>
      rw [Cache.readBlocks]
      split
      case isTrue => exact yields_pure ⟨h, fun _ _ hid _ => hid⟩
      rename_i hempty
      refine (h.blockget m).bind fun r hr => ?_
      obtain ⟨id, map1⟩ := r
      obtain ⟨h1, hid, hheld, hstate⟩ := hr
      have hstate' : (map1.buffer id).state = .empty := hstate fun id' hid' => by
        simpa [hid'] using hempty
      refine (h1.fill hid hstate' data).bind fun map2 h2 => ?_
      have hid2 : map2.hash m = some id := h2.2 ▸ hid
      refine (h2.1.blockput hid2 (Function.update_self _ _ _)).bind fun map3 h3 => ?_
      have hrefs : Function.update (Function.update refs id (refs id + 1)) id (refs id) = refs := by
        rw [Function.update_idem, Function.update_eq_self]
      rw [hrefs] at h3
      refine (ih h3.1 (m + 1)).mono fun map4 h4 => ⟨h4.1, fun m' id' hid' href => ?_⟩
      refine h4.2 m' id' ?_ href
      rw [h3.2, h2.2]
      exact hheld m' id' hid' href

/-- `blockread` returns the buffer of the block with a reference to it, or nothing. -/
theorem Inv.blockread (h : Inv c refs map) (m : ℕ) :
    Yields allowed (fun r => match r.1 with
      | none => Inv c refs r.2
      | some id => Inv c (Function.update refs id (refs id + 1)) r.2 ∧ r.2.hash m = some id)
      (Cache.blockread env map m) := by
  rw [Cache.blockread]
  refine (h.blockget m).bind fun r hr => ?_
  obtain ⟨id, map1⟩ := r
  obtain ⟨h1, hid, -, -⟩ := hr
  dsimp only at h1 hid ⊢
  split
  case isFalse => exact yields_pure ⟨h1, hid⟩
  split
  case h_1 =>
    refine (h1.blockput hid (Function.update_self _ _ _)).bind fun map2 h2 => yields_pure ?_
    have hrefs : Function.update (Function.update refs id (refs id + 1)) id (refs id) = refs := by
      rw [Function.update_idem, Function.update_eq_self]
    exact hrefs ▸ h2.1
  case h_2 =>
    refine (h1.readBlocks m _).bind fun map2 h2 => yields_pure ⟨h2.1, h2.2 m id hid ?_⟩
    rw [Function.update_self]
    exact Nat.succ_pos _

/-- The copy of a buffer of the old cycle. -/
def forkBuffer (map : Map) (id clone now : ℕ) : Map :=
  let map := map.setBuffer clone { map.buffer clone with
    data := (map.buffer id).data
    index := (map.buffer id).index }
  setBufferDirty (insertBufferHash (removeBufferHash map id) clone) clone now

/-- The copy takes the place of the buffer, which keeps its data and its reference. -/
theorem Inv.fork (h : Inv c refs map) (hid : map.hash m = some id) (href : refs id = 1) {old : ℕ}
    (hstate : (map.buffer id).state = .dirty old) (hne : old ≠ c.now) {clone : ℕ}
    (hmade : Made refs map clone) :
    Inv c (Function.update (Function.update refs id 0) clone 1) (forkBuffer map id clone c.now) ∧
      (forkBuffer map id clone c.now).hash m = some clone ∧
      ((forkBuffer map id clone c.now).buffer clone).state = .dirty c.now := by
  obtain ⟨h1, h2, h3, h4, h5, h6, hw, h7, h8⟩ := h
  obtain ⟨n1, n2, n3, n4, n5, n6, n7⟩ := hmade
  have hclone : id ≠ clone := fun heq => n2 m (heq ▸ hid)
  have hindex := (h1 m id hid).2.1
  have hfork : forkBuffer map id clone c.now =
      { map with
        buffer := Function.update map.buffer clone ⟨1, .dirty c.now, m, (map.buffer id).data⟩
        hash := Function.update map.hash m (some clone)
        dirty := map.dirty ++ [clone] } := by
    simp only [forkBuffer, removeBufferHash, Map.hashed, insertBufferHash, setBufferDirty,
      setBufferState, Map.setBuffer, Function.update_self, Function.update_of_ne hclone, hindex,
      hid, n5, decide_true, if_true, Function.update_idem, List.erase_of_not_mem n6,
      List.erase_of_not_mem n7]
  rw [hfork]
  refine ⟨?_, Function.update_self _ _ _, ?_⟩
  · constructor <;> simp only [Function.update_apply] <;> grind
  · simp only [Function.update_self]

/-- `blockdirty` on the only reference: a buffer of the old cycle is forked, and left to the
I/O list with its data. -/
theorem Inv.blockdirty (h : Inv c refs map) (hid : map.hash m = some id) (href : refs id = 1)
    {newdelta : ℕ} (hnow : newdelta % dirtyStates = c.now) :
    Yields allowed (fun r => Inv c (Function.update (Function.update refs id 0) r.1 1) r.2 ∧
      r.2.hash m = some r.1 ∧ (r.2.buffer r.1).state = .dirty c.now)
      (Cache.blockdirty env map id newdelta) := by
  simp only [Cache.blockdirty, hnow]
  split
  case h_1 oldstate hstate =>
    split
    case isTrue heq =>
      subst heq
      have hrefs : Function.update (Function.update refs id 0) id 1 = refs := by
        rw [Function.update_idem, ← href, Function.update_eq_self]
      exact yields_pure ⟨hrefs.symm ▸ h, hid, hstate⟩
    case isFalse hne =>
      refine h.newBuffer.bind fun r hr => yields_pure ?_
      obtain ⟨clone, map1⟩ := r
      obtain ⟨h1, hkeeps, hmade⟩ := hr
      obtain ⟨hid1, hbuf⟩ := hkeeps.held m id hid (by omega)
      have hfork := h1.fork hid1 href (hbuf ▸ hstate) hne hmade
      exact hfork
  case h_2 hstate =>
    have hdirty : id ∉ map.dirty := fun hin => hstate _ (h.dirty id hin).2
    have hio : id ∉ map.io := fun hin => hstate _ (h.io id hin).2.1
    have hrefs : Function.update (Function.update refs id 0) id 1 = refs := by
      rw [Function.update_idem, ← href, Function.update_eq_self]
    refine yields_pure ⟨hrefs.symm ▸ ?_, hid, ?_⟩
    · obtain ⟨h1, h2, h3, h4, h5, h6, hw, h7, h8⟩ := h
      constructor <;>
        simp only [setBufferDirty, setBufferState, Map.setBuffer, Function.update_apply,
          List.erase_of_not_mem hdirty, List.erase_of_not_mem hio] <;> grind
    · simp only [setBufferDirty, setBufferState, Map.setBuffer, Function.update_self]

theorem Inv.change (h : Inv c refs map) (hid : map.hash m = some id)
    (hstate : (map.buffer id).state = .dirty c.now) (data : Bytes) (bits : ℕ → ℕ → Option Bool)
    (hbits : ∀ m' j, bits m' j =
      if m = m' ∧ bitAt (map.buffer id).data j ≠ bitAt data j then some (bitAt data j)
      else c.bits m' j) :
    Inv { c with bits := bits } refs (setData map id data) := by
  obtain ⟨h1, h2, h3, h4, h5, h6, hw, h7, h8⟩ := h
  have hio : id ∉ map.io := fun hin =>
    c.distinct (State.dirty.inj (hstate.symm.trans (h5 id hin).2.1))
  constructor <;> simp only [setData, Map.setBuffer, Function.update_apply, hbits] <;> grind

/-- Cleaning a buffer of the I/O list after it was written. -/
theorem Inv.cleanBuffer (h : Inv c (fun _ => 0) map) (hid : id ∈ map.io) :
    Yields allowed (fun map' => Inv { c with waiting := c.waiting.erase id } (fun _ => 0) map')
      (Cache.cleanBuffer map id) := by
  obtain ⟨h1, h2, h3, h4, h5, h6, hw, h7, h8⟩ := h
  obtain ⟨hknown, hstate, hsnap, hcount⟩ := h5 id hid
  have hnotClean : (map.buffer id).state ≠ .clean := by
    rw [hstate]
    nofun
  have hdirty : id ∉ map.dirty := fun hin =>
    c.distinct (State.dirty.inj ((h4 id hin).2.symm.trans hstate))
  have hmem : ∀ x, x ∈ map.io.erase id ↔ x ≠ id ∧ x ∈ map.io := fun x => h7.mem_erase_iff
  have hnodup := h7.erase id
  have hne := c.distinct
  rw [Cache.cleanBuffer, setBufferClean, if_neg hnotClean]
  split
  case isTrue hhashed =>
    simp only [Map.hashed, decide_eq_true_eq] at hhashed
    refine yields_pure ?_
    constructor <;>
      simp only [setBufferState, Map.setBuffer, Function.update_apply,
        List.erase_of_not_mem hdirty, hmem] <;> grind
  case isFalse hunhashed =>
    simp only [Map.hashed, decide_eq_true_eq] at hunhashed
    have hone : (map.buffer id).count = 1 := hcount.resolve_left hunhashed
    have hgone : id ∉ map.io.erase id := fun hin => ((hmem id).mp hin).1 rfl
    simp only [Cache.blockput, evictBuffer, removeBufferHash, Map.hashed, setBufferState,
      Map.setBuffer, Function.update_self, Function.update_idem, hone, pure_bind, Nat.one_ne_zero,
      if_false, Nat.sub_self, true_or, if_true, hunhashed, decide_false, Bool.false_eq_true,
      List.erase_of_not_mem hdirty, List.erase_of_not_mem hgone]
    refine yields_pure ?_
    constructor <;> simp only [Function.update_apply, hmem] <;> grind

end

end Tux3.Cache
