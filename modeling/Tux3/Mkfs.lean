import Tux3.Recovery
import Tux3.Superblock
import Mathlib.Order.Interval.Finset.Nat

/-!
# The blocks of a volume from mkfs on

`make_tux3` reserves the blocks of the superblock. After it blocks are allocated and freed, blocks
that were allocated are written, and the superblock is committed.
-/
namespace Tux3.Mkfs

open Diskio (Answer State Failure)
open Recovery (Small Kept Takes)
open Superblock (reserve sbLoc)

/-- The loop of `make_tux3` over the reserved blocks, from block `i` on; `none` for the jump to
`eek`. -/
def reserveFrom : ℕ → ℕ → Balloc.Sb → Option Balloc.Sb
  | 0, _, sb => some sb
  | left + 1, i, sb =>
      match Balloc.ballocFromRange sb i 1 1 with
      | none => none
      | some (block, sb) => if block = -1 then none else reserveFrom left (i + 1) sb

def reserveBlocks (sb : Balloc.Sb) : Option Balloc.Sb := reserveFrom (reserve sb.blockbits) 0 sb

/-- A volume that `make_tux3` can start with: the bitmap file is empty. -/
structure New (sb : Balloc.Sb) : Prop where
  small : Small sb
  blockbits : sb.blockbits ≤ 15
  clear : ∀ b, sb.bit b = false
  freeblocks : sb.freeblocks = sb.volblocks
  room : reserve sb.blockbits ≤ sb.volblocks
  readable : ∀ b < reserve sb.blockbits, sb.readable (b / sb.mapsize) = true

/-- The allocator, the blocks that are handed out, the file of the device, the superblock in memory,
and the last commit: what was stored and the blocks that were handed out then. -/
structure Volume where
  sb : Balloc.Sb
  owned : Finset ℕ
  file : Bytes
  super : Bytes
  last : Option (Superblock.Sb × Finset ℕ)

/-- The two views of one `struct sb`. -/
structure Same (sb : Superblock.Sb) (v : Volume) : Prop where
  super : sb.super = v.super
  blockbits : sb.blockbits = v.sb.blockbits
  volblocks : sb.volblocks = v.sb.volblocks
  freeblocks : (sb.freeblocks : ℤ) = v.sb.freeblocks
  nextalloc : sb.nextalloc = v.sb.nextalloc

/-- Calls on a new volume. The caller of `bfree` owns the blocks, and blocks that are owned are
written. -/
inductive Run : Volume → Prop where
  | make {sb sb' : Balloc.Sb} (file super : Bytes) (hnew : New sb)
      (hreserve : reserveBlocks sb = some sb')
      (hmagic : (List.range 8).map super = Superblock.tux3Magic) : Run ⟨sb', ∅, file, super, none⟩
  | balloc {v : Volume} {sb : Balloc.Sb} {n : ℕ} {block : ℤ} (h : Run v)
      (hio : Balloc.balloc v.sb n = some (0, block, sb)) :
      Run { v with sb := sb, owned := v.owned ∪ Finset.Ico block.toNat (block.toNat + n) }
  | full {v : Volume} {sb : Balloc.Sb} {n : ℕ} {err block : ℤ} (h : Run v) (herr : err ≠ 0)
      (hio : Balloc.balloc v.sb n = some (err, block, sb)) : Run { v with sb := sb }
  | bfree {v : Volume} {sb : Balloc.Sb} {start n : ℕ} {err : ℤ} (h : Run v)
      (howned : Finset.Ico start (start + n) ⊆ v.owned)
      (hone : start % v.sb.mapsize + n ≤ v.sb.mapsize)
      (hio : Balloc.bfree v.sb start n = some (err, sb)) :
      Run { v with sb := sb, owned := v.owned \ Finset.Ico start (start + n) }
  | write {v : Volume} {s : State} {err : ℤ} (mem : Bytes) (answers : List Answer) (data block : ℕ)
      (h : Run v) (howned : block ∈ v.owned)
      (hio : Diskio.blockio v.sb.blockbits true answers ⟨v.file, mem⟩ data block = some (err, s)) :
      Run { v with file := s.file }
  | commit {v : Volume} {file : Bytes} {sb sb' : Superblock.Sb} {err : ℤ} (answers : List Answer)
      (h : Run v) (hsame : Same sb v) (hfits : sb.Fits)
      (hio : Superblock.commitDelta answers v.file sb = some (err, file, sb')) :
      Run { v with
        file := file
        super := sb'.super
        last := if err = 0 then some (sb, v.owned) else none }

/-- No block is handed out twice or lost, the reserved blocks are never handed out, and a mount
counts the free blocks of the last commit. -/
structure Sound (v : Volume) : Prop where
  bits : ∀ b, v.sb.bit b = true ↔ b < reserve v.sb.blockbits ∨ b ∈ v.owned
  inside : ∀ b ∈ v.owned, reserve v.sb.blockbits ≤ b ∧ b < v.sb.volblocks
  free : v.sb.freeblocks + reserve v.sb.blockbits + v.owned.card = v.sb.volblocks
  balloc : ∀ {n : ℕ}, 0 < n → Balloc.balloc v.sb n = some (-enospc, -1, v.sb) ∨
    ∃ (f : ℕ) (sb : Balloc.Sb), Balloc.balloc v.sb n = some (0, (f : ℤ), sb) ∧
      ∀ b ∈ Finset.Ico f (f + n), reserve v.sb.blockbits ≤ b ∧ b < v.sb.volblocks ∧ b ∉ v.owned
  bfree : ∀ {start n : ℕ}, 0 < n → Finset.Ico start (start + n) ⊆ v.owned →
    start % v.sb.mapsize + n ≤ v.sb.mapsize →
      ∃ sb : Balloc.Sb, Balloc.bfree v.sb start n = some (0, sb)
  mount : ∀ {answers : List Answer} {other sb sb' : Superblock.Sb} {owned : Finset ℕ} {err : ℤ},
    v.last = some (sb, owned) → Superblock.loadSb answers v.file other = some (err, sb') →
      err < 0 ∧ Failure answers err ∨ err = 0 ∧ Superblock.Loaded sb sb' ∧
        (sb'.freeblocks : ℤ) + reserve sb'.blockbits + owned.card = sb'.volblocks

/-- The file has the superblock of a commit. -/
structure Committed (v : Volume) (sb : Superblock.Sb) (owned : Finset ℕ) : Prop where
  fits : sb.Fits
  magic : (List.range 8).map sb.super = Superblock.tux3Magic
  blockbits : sb.blockbits = v.sb.blockbits
  volblocks : sb.volblocks = v.sb.volblocks
  free : (sb.freeblocks : ℤ) + reserve v.sb.blockbits + owned.card = v.sb.volblocks
  file : ∀ i < Superblock.sbLen, v.file (sbLoc + i) = Segment.putAll sb.super sb.commitFields i

structure Stored (v : Volume) : Prop where
  magic : (List.range 8).map v.super = Superblock.tux3Magic
  last : ∀ sb owned, v.last = some (sb, owned) → Committed v sb owned

section
variable {sb sb' : Balloc.Sb} {owned : Finset ℕ} {reserved i left n b : ℕ}

/-! ## The reserved blocks -/

/-- A clear block is found at its place. -/
theorem ballocFromRange_one (hs : Small sb) (hi : i < sb.volblocks) (hclear : sb.bit i = false)
    (hread : sb.readable (i / sb.mapsize) = true) :
    Balloc.ballocFromRange sb i 1 1 = some ((i : ℤ), sb.taken 1 i) ∧ sb.Fits 1 i := by
  have hvol := hs.volblocks
  have hpos := sb.mapsize_pos
  have hbits : sb.blockbits ≤ 27 := hs.blockbits.trans (by decide)
  have hmod := Nat.mod_lt i hpos
  have hlt : i / sb.mapsize < 2 ^ 32 := Nat.lt_of_le_of_lt (Nat.div_le_self _ _) (by omega)
  have hcut : sb.cut i = i := Balloc.cut_of_lt hlt
  have hend : sb.searchEnd i 1 = 8 * ((i + 1 + 7) / 8) := Balloc.searchEnd_eq hlt (by omega)
  have hfits : sb.Fits 1 i := by
    refine ⟨by omega, fun b h₁ h₂ => ?_⟩
    obtain rfl : b = i := by omega
    exact hclear
  have hreach : sb.Reach 1 (sb.cut i) (sb.searchEnd i 1) i := by
    refine ⟨Nat.le_of_eq hcut, by omega, hfits, fun m h₁ h₂ => ?_⟩
    rw [hcut] at h₁
    rw [Nat.le_antisymm h₂ h₁]
    exact hread
  refine ⟨?_, hfits⟩
  rcases Balloc.search_spec hbits Nat.one_pos i (by decide : 1 < 2 ^ 32) with
    ⟨f, hf, hleast, -, -, hr⟩ | ⟨hno, -⟩
  · have hlow := hf.low
    obtain rfl : f = i := Nat.le_antisymm (Nat.not_lt.mp fun hgt => hleast i hgt hreach) (hcut ▸ hlow)
    rw [hr, Balloc.number_of_lt (by omega)]
  · refine absurd ⟨?_, i, hreach, Or.inl (Nat.le_refl _)⟩ hno
    have hle : (i + 1 + (sb.mapsize - 1)) / sb.mapsize < 2 ^ 32 := by
      rw [show i + 1 + (sb.mapsize - 1) = i + sb.mapsize by omega, Nat.add_div_right _ hpos]
      have h8 : 8 ≤ sb.mapsize := by
        rw [sb.mapsize_eq]
        exact Nat.le_mul_of_pos_right 8 sb.blocksize_pos
      have hdiv : i / sb.mapsize ≤ i / 8 := Nat.div_le_div_left h8 (by decide)
      omega
    rw [Balloc.Sb.Sees, u32_of_lt hlt, u32_of_lt hle]
    exact Nat.div_le_div_right (by omega)

/-- The state of the allocator: the reserved blocks and the owned ones are set. -/
structure Inv (sb : Balloc.Sb) (owned : Finset ℕ) (reserved : ℕ) : Prop where
  small : Small sb
  accounted : sb.Accounted
  room : reserved ≤ sb.volblocks
  bits : ∀ b, sb.bit b = true ↔ b < reserved ∨ b ∈ owned
  apart : ∀ b ∈ owned, reserved ≤ b ∧ b < sb.volblocks
  readable : ∀ b ∈ owned, sb.readable (b / sb.mapsize) = true

theorem wf_of_small (h : Small sb) : sb.WF := ⟨h.blockbits.trans (by decide), h.nextalloc⟩

theorem Inv.clear (h : Inv sb owned reserved) (hb : sb.bit b = false) : reserved ≤ b ∧ b ∉ owned := by
  have hnot := (h.bits b).not.mp (Bool.eq_false_iff.mp hb)
  exact ⟨Nat.not_lt.mp fun hlt => hnot (Or.inl hlt), fun hmem => hnot (Or.inr hmem)⟩

theorem Inv.free (h : Inv sb owned reserved) : sb.freeblocks + reserved + owned.card = sb.volblocks := by
  have hset : (Finset.range sb.volblocks).filter (fun b => ¬ sb.bit b = false) =
      Finset.range reserved ∪ owned := by
    ext b
    rw [Finset.mem_filter, Finset.mem_union, Finset.mem_range, Finset.mem_range, Bool.not_eq_false,
      h.bits, and_iff_right_iff_imp]
    rintro (hlow | hmem)
    · exact Nat.lt_of_lt_of_le hlow h.room
    · exact (h.apart b hmem).2
  have hdisj : Disjoint (Finset.range reserved) owned := Finset.disjoint_left.mpr fun b hlow hmem =>
    absurd (Finset.mem_range.mp hlow) (Nat.not_lt.mpr (h.apart b hmem).1)
  have hsplit : ((Finset.range sb.volblocks).filter fun b => sb.bit b = false).card +
      ((Finset.range sb.volblocks).filter fun b => ¬ sb.bit b = false).card =
        (Finset.range sb.volblocks).card := Finset.card_filter_add_card_filter_not _
  rw [hset, Finset.card_union_of_disjoint hdisj, Finset.card_range, Finset.card_range,
    ← Nat.count_eq_card_filter_range] at hsplit
  have hacc : sb.freeblocks = _ := h.accounted
  rw [Balloc.Sb.clearBlocks] at hacc
  omega

/-! ## Operations -/

theorem extent_block {start : ℕ} (hone : start % sb.mapsize + n ≤ sb.mapsize) (hlow : start ≤ b)
    (hhigh : b < start + n) : b / sb.mapsize = start / sb.mapsize := by
  have hdm : start / sb.mapsize * sb.mapsize + start % sb.mapsize = start := by
    rw [Nat.mul_comm, Nat.div_add_mod]
  exact ((Balloc.in_block hone).mpr (hdm.symm ▸ ⟨hlow, hhigh⟩)).1

theorem Inv.takes (h : Inv sb owned reserved) {f : ℕ} (ht : Takes sb n f sb') :
    ∀ b ∈ Finset.Ico f (f + n), reserved ≤ b ∧ b < sb.volblocks ∧ b ∉ owned := by
  intro b hb
  obtain ⟨hlow, hhigh⟩ := Finset.mem_Ico.mp hb
  obtain ⟨hres, hnot⟩ := h.clear (ht.clear b ⟨hlow, hhigh⟩)
  exact ⟨hres, Nat.lt_of_lt_of_le hhigh ht.inVolume, hnot⟩

/-- `make_tux3` reserves the next block. -/
theorem Inv.reserve (h : Inv sb ∅ reserved) (hlt : reserved < sb.volblocks)
    (hread : sb.readable (reserved / sb.mapsize) = true) :
    ∃ sb', Balloc.ballocFromRange sb reserved 1 1 = some ((reserved : ℤ), sb') ∧
      Inv sb' ∅ (reserved + 1) ∧ Kept sb sb' := by
  have hclear : sb.bit reserved = false := by
    refine Bool.eq_false_iff.mpr fun hset => ?_
    rcases (h.bits reserved).mp hset with hself | hmem
    · exact Nat.lt_irrefl _ hself
    · exact Finset.notMem_empty _ hmem
  obtain ⟨hrun, hfit⟩ := ballocFromRange_one h.small hlt hclear hread
  have ht := Recovery.takes_taken h.small Nat.one_pos hlt hfit hread
  refine ⟨_, hrun, ⟨ht.small, ?_, ht.kept.volblocks ▸ hlt, fun b => ?_, ?_, ?_⟩, ht.kept⟩
  · exact (Balloc.taken_accounted (wf_of_small h.small) h.accounted Nat.one_pos hfit).mpr hlt
  · rw [ht.bits, Bool.or_eq_true, h.bits, decide_eq_true_iff]
    simp only [Finset.notMem_empty, or_false]
    omega
  · exact fun b hb => absurd hb (Finset.notMem_empty b)
  · exact fun b hb => absurd hb (Finset.notMem_empty b)

theorem reserveFrom_spec (h : Inv sb ∅ i) (hroom : i + left ≤ sb.volblocks)
    (hread : ∀ b < i + left, sb.readable (b / sb.mapsize) = true) :
    ∃ sb', reserveFrom left i sb = some sb' ∧ Inv sb' ∅ (i + left) ∧ Kept sb sb' := by
  induction left generalizing i sb with
  | zero => exact ⟨sb, rfl, h, Kept.refl sb⟩
  | succ left ih =>
      obtain ⟨sb₁, hone, hinv, hkept⟩ := h.reserve (by omega) (hread i (by omega))
      have hsum : i + 1 + left = i + (left + 1) := by omega
      obtain ⟨sb', hrest, hinv', hkept'⟩ := ih hinv (by rw [hsum, hkept.volblocks]; exact hroom) <| by
        intro b hb
        rw [hkept.readable, hkept.mapsize]
        exact hread b (hsum ▸ hb)
      refine ⟨sb', ?_, hsum ▸ hinv', hkept.trans hkept'⟩
      rw [reserveFrom, hone]
      dsimp only
      rw [if_neg (by omega), hrest]

theorem New.inv (h : New sb) : Inv sb ∅ 0 where
  small := h.small
  accounted := by
    have hall : sb.clearBlocks = sb.volblocks := Nat.count_of_forall fun b _ => h.clear b
    rw [Balloc.Sb.Accounted, hall, h.freeblocks]
  room := Nat.zero_le _
  bits b := by simp [h.clear b]
  apart := by simp
  readable := by simp

theorem reserveBlocks_spec (h : New sb) :
    ∃ sb', reserveBlocks sb = some sb' ∧ Inv sb' ∅ (reserve sb'.blockbits) ∧ Kept sb sb' := by
  have hzero := Nat.zero_add (reserve sb.blockbits)
  obtain ⟨sb', hrun, hinv, hkept⟩ := reserveFrom_spec h.inv (hzero.symm ▸ h.room)
    fun b hb => h.readable b (hzero ▸ hb)
  exact ⟨sb', hrun, by rwa [hzero, ← hkept.blockbits] at hinv, hkept⟩

theorem Inv.taken (h : Inv sb owned reserved) {block : ℤ}
    (hrun : Balloc.balloc sb n = some (0, block, sb')) : ∃ f : ℕ, block = f ∧ Takes sb n f sb' := by
  rcases Recovery.balloc_takes h.small hrun with ⟨-, htakes⟩ | ⟨herr, -⟩
  · exact htakes
  · cases herr

theorem Inv.full (h : Inv sb owned reserved) {err block : ℤ} (herr : err ≠ 0)
    (hrun : Balloc.balloc sb n = some (err, block, sb')) : sb' = sb := by
  rcases Recovery.balloc_takes h.small hrun with ⟨hzero, -⟩ | ⟨-, hsame⟩
  · exact absurd hzero herr
  · exact hsame

theorem Inv.balloc (h : Inv sb owned reserved) {f : ℕ}
    (hrun : Balloc.balloc sb n = some (0, (f : ℤ), sb')) (ht : Takes sb n f sb') :
    Inv sb' (owned ∪ Finset.Ico f (f + n)) reserved := by
  have hvol := h.small.volblocks
  have hone := ht.oneBlock
  have hnot : ¬ Balloc.Overshoots sb n := fun hover => absurd hover.large (Nat.not_lt.mpr hvol)
  refine ⟨ht.small, (Balloc.balloc_keeps (wf_of_small h.small) h.accounted ht.pos hnot hrun).1,
    ht.kept.volblocks ▸ h.room, fun b => ?_, fun b hb => ?_, fun b hb => ?_⟩
  · rw [ht.bits, Bool.or_eq_true, h.bits, decide_eq_true_iff, Finset.mem_union, Finset.mem_Ico,
      or_assoc]
  · rw [ht.kept.volblocks]
    rcases Finset.mem_union.mp hb with hold | hnew
    · exact h.apart b hold
    · obtain ⟨hlow, hhigh, -⟩ := h.takes ht b hnew
      exact ⟨hlow, hhigh⟩
  · rw [ht.kept.readable, ht.kept.mapsize]
    rcases Finset.mem_union.mp hb with hold | hnew
    · exact h.readable b hold
    · -- a run is inside one block of the bitmap
      obtain ⟨hlow, hhigh⟩ := Finset.mem_Ico.mp hnew
      rw [extent_block hone hlow hhigh]
      exact ht.readable

/-- `balloc` never ends the program in a small volume. -/
theorem balloc_total (h : Small sb) (hn : 0 < n) :
    Balloc.balloc sb n = some (-enospc, -1, sb) ∨
      ∃ (f : ℕ) (sb' : Balloc.Sb), Balloc.balloc sb n = some (0, (f : ℤ), sb') := by
  have hnext := h.nextalloc
  have hgoal : 0 + u32 sb.nextalloc ≤ sb.volblocks := by
    have := u32_le sb.nextalloc
    omega
  have hrem : sb.nextalloc + sb.remaining ≤ sb.volblocks := by
    have := u32_le (sb.volblocks - sb.nextalloc)
    rw [Balloc.remaining_eq (wf_of_small h)]
    omega
  have hneg : ¬ (0 : ℤ) ≤ -1 := by decide
  rw [Balloc.balloc_eq hn]
  rcases Recovery.search_takes h hn Balloc.remaining_lt hrem with ⟨f, -, -, -, hr⟩ | hr
  · rw [hr, Option.bind_some, if_pos (Int.natCast_nonneg _)]
    exact Or.inr ⟨f, _, rfl⟩
  · rw [hr, Option.bind_some, if_neg hneg]
    dsimp only
    rcases Recovery.search_takes h hn (u32_lt sb.nextalloc) hgoal with ⟨f, -, -, -, hr⟩ | hr
    · rw [hr, Option.bind_some, if_pos (Int.natCast_nonneg _)]
      exact Or.inr ⟨f, _, rfl⟩
    · rw [hr, Option.bind_some, if_neg hneg]
      exact Or.inl rfl

/-- Owned blocks pass the check of `bfree`. -/
theorem Inv.frees (h : Inv sb owned reserved) {start : ℕ} (hn : 0 < n)
    (howned : Finset.Ico start (start + n) ⊆ owned)
    (hone : start % sb.mapsize + n ≤ sb.mapsize) : Balloc.Frees sb start n := by
  have hmem : start ∈ owned := howned (Finset.mem_Ico.mpr ⟨Nat.le_refl _, by omega⟩)
  have hvol := h.small.volblocks
  have hms := h.small.mapsize_le
  have hstart := (h.apart start hmem).2
  have hcut : u32 (start / sb.mapsize) = start / sb.mapsize :=
    u32_of_lt (Nat.lt_of_le_of_lt (Nat.div_le_self _ _) (by omega))
  have hdm : start / sb.mapsize * sb.mapsize + start % sb.mapsize = start := by
    rw [Nat.mul_comm, Nat.div_add_mod]
  rw [Balloc.Frees, hcut]
  refine ⟨h.readable start hmem, (allSet_iff (by omega)).mpr fun i hlow hhigh => ?_⟩
  rw [← sb.bit_block _ (by omega), h.bits]
  exact Or.inr (howned (Finset.mem_Ico.mpr ⟨by omega, by omega⟩))

theorem Inv.bfree (h : Inv sb owned reserved) {start : ℕ} {err : ℤ}
    (howned : Finset.Ico start (start + n) ⊆ owned) (hone : start % sb.mapsize + n ≤ sb.mapsize)
    (hrun : Balloc.bfree sb start n = some (err, sb')) :
    Inv sb' (owned \ Finset.Ico start (start + n)) reserved ∧ Kept sb sb' := by
  rcases Nat.eq_zero_or_pos n with rfl | hn
  · cases hrun
  have hfrees := h.frees hn howned hone
  have hlast : start + n ≤ sb.volblocks := by
    have := (h.apart (start + n - 1) (howned (Finset.mem_Ico.mpr (by omega)))).2
    omega
  have hcut : sb.cut start ≤ start := Balloc.cut_le start
  have hacc := (Balloc.bfree_keeps_iff (wf_of_small h.small) h.accounted hone hn).mpr
    (fun _ => by omega) err sb' hrun
  obtain ⟨rfl, -⟩ := Prod.mk.inj (Option.some.inj ((Balloc.bfree_of_frees hn hfrees).symm.trans hrun))
  obtain ⟨hbits, hkept, hsmall⟩ := @Recovery.bfree_clears sb sb' 0 h.small ⟨start, n⟩ hlast hone
    (by decide) hrun
  refine ⟨⟨hsmall, hacc, hkept.volblocks ▸ h.room, fun b => ?_, fun b hb => ?_, fun b hb => ?_⟩, hkept⟩
  · have hlow : b < reserved → ¬ (start ≤ b ∧ b < start + n) := fun hlt hin =>
      absurd hlt (Nat.not_lt.mpr (h.apart b (howned (Finset.mem_Ico.mpr hin))).1)
    rw [hbits, Bool.and_eq_true, h.bits, Bool.not_eq_true', decide_eq_false_iff_not, Finset.mem_sdiff,
      Finset.mem_Ico]
    tauto
  · rw [hkept.volblocks]
    exact h.apart b (Finset.mem_sdiff.mp hb).1
  · rw [hkept.readable, hkept.mapsize]
    exact h.readable b (Finset.mem_sdiff.mp hb).1

/-! ## The superblock -/

section
variable {v : Volume}

theorem magic_stored {sb : Superblock.Sb}
    (h : (List.range 8).map sb.super = Superblock.tux3Magic) {super : Bytes}
    (hsuper : ∀ i < Superblock.sbLen, super i = Segment.putAll sb.super sb.commitFields i) :
    (List.range 8).map super = Superblock.tux3Magic := by
  refine (Superblock.magic_eq fun i hi => ?_).trans h
  rw [hsuper i (Nat.lt_trans hi (by decide)), Superblock.commitFields_label hi]

theorem Stored.kept (h : Stored v) {sb : Balloc.Sb} (hkept : Kept v.sb sb) (owned : Finset ℕ) :
    Stored { v with sb := sb, owned := owned } := by
  refine ⟨h.magic, fun s t hlast => ?_⟩
  obtain ⟨hfits, hmagic, hbits, hvol, hfree, hfile⟩ := h.last s t hlast
  rw [← hkept.blockbits] at hbits hfree
  rw [← hkept.volblocks] at hvol hfree
  exact ⟨hfits, hmagic, hbits, hvol, hfree, hfile⟩

theorem Stored.write (h : Stored v) (hbits : v.sb.blockbits ≤ 15) {mem : Bytes} {s : State}
    {answers : List Answer} {data block : ℕ} {err : ℤ} (hreserve : reserve v.sb.blockbits ≤ block)
    (hblock : block < 2 ^ 48)
    (hio : Diskio.blockio v.sb.blockbits true answers ⟨v.file, mem⟩ data block = some (err, s)) :
    Stored { v with file := s.file } := by
  refine ⟨h.magic, fun sb owned hlast => ?_⟩
  obtain ⟨hfits, hmagic, hbb, hvol, hfree, hfile⟩ := h.last sb owned hlast
  refine ⟨hfits, hmagic, hbb, hvol, hfree, fun i hi => ?_⟩
  have hsame := Superblock.write_superblock hbits hreserve hblock hio (Nat.add_lt_add_left hi sbLoc)
  exact hsame.trans (hfile i hi)

theorem Stored.commit (h : Stored v) (hinv : Inv v.sb v.owned (reserve v.sb.blockbits))
    {answers : List Answer} {sb sb' : Superblock.Sb} {file : Bytes} {err : ℤ} (hsame : Same sb v)
    (hfits : sb.Fits) (hio : Superblock.commitDelta answers v.file sb = some (err, file, sb')) :
    Stored { v with
      file := file
      super := sb'.super
      last := if err = 0 then some (sb, v.owned) else none } := by
  obtain ⟨hsuper, n, -, rfl, hall⟩ := Superblock.commitDelta_spec hio
  have hmagic : (List.range 8).map sb.super = Superblock.tux3Magic := hsame.super ▸ h.magic
  refine ⟨magic_stored hmagic fun i _ => congrFun hsuper i, fun s owned hlast => ?_⟩
  dsimp only at hlast
  split at hlast
  · next herr =>
      cases hlast
      refine ⟨hfits, hmagic, hsame.blockbits, hsame.volblocks, ?_, fun i hi => ?_⟩
      · rw [hsame.freeblocks]
        exact hinv.free
      · dsimp only
        rw [hall herr, Diskio.copy_at hi, Nat.zero_add, hsuper]
  · cases hlast

theorem Stored.mount (h : Stored v) {answers : List Answer} {other sb sb' : Superblock.Sb}
    {owned : Finset ℕ} {err : ℤ} (hlast : v.last = some (sb, owned))
    (hload : Superblock.loadSb answers v.file other = some (err, sb')) :
    err < 0 ∧ Failure answers err ∨ err = 0 ∧ Superblock.Loaded sb sb' ∧
      (sb'.freeblocks : ℤ) + reserve sb'.blockbits + owned.card = sb'.volblocks := by
  obtain ⟨hfits, hmagic, hbits, hvol, hfree, hfile⟩ := h.last sb owned hlast
  rcases Superblock.loadSb_spec hload with hfail | ⟨hread, hok⟩
  · exact Or.inl hfail
  · have hsuper := fun i hi => (hread i hi).trans (hfile i hi)
    obtain ⟨rfl, hsb⟩ := hok (magic_stored hmagic hsuper)
    have hloaded : Superblock.Loaded sb sb' := hsb ▸ Superblock.loaded hfits hsuper other
    refine Or.inr ⟨rfl, hloaded, ?_⟩
    rw [hloaded.freeblocks, hloaded.volblocks, hloaded.blockbits, hbits, hvol]
    exact hfree

/-! ## Runs -/

theorem Run.inv (h : Run v) :
    v.sb.blockbits ≤ 15 ∧ Inv v.sb v.owned (reserve v.sb.blockbits) ∧ Stored v := by
  induction h with
  | make file super hnew hreserve hmagic =>
      obtain ⟨sb, hrun, hinv, hkept⟩ := reserveBlocks_spec hnew
      obtain rfl := Option.some.inj (hrun.symm.trans hreserve)
      exact ⟨hkept.blockbits ▸ hnew.blockbits, hinv, hmagic, nofun⟩
  | balloc h hio ih =>
      obtain ⟨hbits, hinv, hstored⟩ := ih
      obtain ⟨f, rfl, ht⟩ := hinv.taken hio
      have hnew := hinv.balloc hio ht
      rw [← ht.kept.blockbits] at hnew hbits
      exact ⟨hbits, hnew, hstored.kept ht.kept _⟩
  | full h herr hio ih =>
      obtain rfl := ih.2.1.full herr hio
      exact ih
  | bfree h howned hone hio ih =>
      obtain ⟨hbits, hinv, hstored⟩ := ih
      obtain ⟨hnew, hkept⟩ := hinv.bfree howned hone hio
      rw [← hkept.blockbits] at hnew hbits
      exact ⟨hbits, hnew, hstored.kept hkept _⟩
  | write mem answers data block h howned hio ih =>
      obtain ⟨hbits, hinv, hstored⟩ := ih
      obtain ⟨hlow, hhigh⟩ := hinv.apart block howned
      have hvol := hinv.small.volblocks
      exact ⟨hbits, hinv, hstored.write hbits hlow (by omega) hio⟩
  | commit answers h hsame hfits hio ih =>
      obtain ⟨hbits, hinv, hstored⟩ := ih
      exact ⟨hbits, hinv, hstored.commit hinv hsame hfits hio⟩

/-- A new volume over allocations, frees, block writes and commits whose transfers are partial,
interrupted or fail. -/
theorem run_sound (h : Run v) : Sound v := by
  obtain ⟨-, hinv, hstored⟩ := h.inv
  refine ⟨hinv.bits, hinv.apart, hinv.free, fun {n} hn => ?_, fun hn howned hone => ?_,
    fun hlast hload => hstored.mount hlast hload⟩
  · refine (balloc_total hinv.small hn).imp_right ?_
    rintro ⟨f, sb, hrun⟩
    obtain ⟨g, hg, ht⟩ := hinv.taken hrun
    obtain rfl := Int.ofNat_inj.mp hg
    exact ⟨f, sb, hrun, hinv.takes ht⟩
  · exact ⟨_, Balloc.bfree_of_frees hn (hinv.frees hn howned hone)⟩

/-- A volume of 4K blocks. -/
def newMap : Balloc.Sb where
  blockbits := 12
  volblocks := 256
  freeblocks := 256
  nextalloc := 0
  bitmap := fun _ _ => 0
  readable := fun _ => true

theorem newMap_new : New newMap where
  small := ⟨by decide, by decide, by decide, by decide⟩
  blockbits := by decide
  clear b := by simp [Balloc.Sb.bit, newMap, bitAt]
  freeblocks := rfl
  room := by decide
  readable _ _ := rfl

/-- Fourteen blocks are handed out. After the commit one of them is written, two are freed, and the
volume is mounted. -/
theorem run_sound_fresh :
    ∃ sb sb' file super s sb'' mounted, reserveBlocks newMap = some sb ∧
      Balloc.balloc sb 14 = some (0, 2, sb') ∧
      Superblock.commitDelta [.failed Diskio.eintr (by decide), .moved 5000] (fun _ => 0)
        Superblock.fresh = some (0, file, super) ∧
      Diskio.blockio 12 true [.moved 96, .moved 4000] ⟨file, fun _ => 7⟩ 0 3 = some (0, s) ∧
      Balloc.bfree sb' 4 2 = some (0, sb'') ∧
      Superblock.loadSb [.moved 80, .moved 4016] s.file
        { Superblock.fresh with super := fun _ => 0 } = some (0, mounted) ∧
      sb'.bit 5 = true ∧ mounted.freeblocks = 240 := by
  obtain ⟨sb, sb', hreserve, hballoc, hbits, hvol, hfree, hnext, hms⟩ : ∃ sb sb',
      reserveBlocks newMap = some sb ∧ Balloc.balloc sb 14 = some (0, 2, sb') ∧ 12 = sb'.blockbits ∧
        256 = sb'.volblocks ∧ 240 = sb'.freeblocks ∧ 16 = sb'.nextalloc ∧ 32768 = sb'.mapsize :=
    ⟨_, _, rfl, rfl, rfl, rfl, rfl, rfl, rfl⟩
  have hmake := Run.make (fun _ => 0) Superblock.fresh.super newMap_new hreserve (by decide)
  have hsame : Same Superblock.fresh
      ⟨sb', ∅ ∪ Finset.Ico 2 16, fun _ => 0, Superblock.fresh.super, none⟩ :=
    ⟨rfl, hbits, hvol, hfree, hnext⟩
  have hcommit := (hmake.balloc hballoc).commit [.failed Diskio.eintr (by decide), .moved 5000] hsame
    (by constructor <;> decide) rfl
  have hmem : ∀ b ∈ Finset.Ico 2 16, b ∈ ∅ ∪ Finset.Ico 2 16 := fun b hb => Finset.mem_union_right _ hb
  have hsound := run_sound (hcommit.write (fun _ => 7) [.moved 96, .moved 4000] 0 3
    (hmem 3 (by decide))
    ((congrArg (fun bits => Diskio.blockio bits true _ _ 0 3) hbits).symm.trans rfl))
  have howned : Finset.Ico 4 (4 + 2) ⊆ ∅ ∪ Finset.Ico 2 16 := fun b hb =>
    hmem b (Finset.Ico_subset_Ico (by decide) (by decide) hb)
  obtain ⟨sb'', hbfree⟩ := hsound.bfree Nat.two_pos howned (by rw [← hms]; decide)
  have hmount : ∀ mounted, Superblock.loadSb [.moved 80, .moved 4016] _
      { Superblock.fresh with super := fun _ => 0 } = some (0, mounted) →
        Superblock.Loaded Superblock.fresh mounted := fun mounted hload =>
    ((hsound.mount rfl hload).resolve_left fun hfail => Int.lt_irrefl 0 hfail.1).2.1
  refine ⟨sb, sb', _, _, _, sb'', _, hreserve, hballoc, rfl, rfl, hbfree, rfl, ?_,
    (hmount _ rfl).freeblocks⟩
  exact (hsound.bits 5).mpr (Or.inr (hmem 5 (by decide)))

end

end

end Tux3.Mkfs
