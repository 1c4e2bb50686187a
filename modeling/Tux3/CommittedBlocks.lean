import Tux3.Mkfs

/-!
# The blocks of the last commit

Between two commits blocks are allocated and written, and frees are deferred: `commit_delta` retires
them once the superblock is written. So the blocks of the last commit are on the device as it left
them, whenever the program is stopped.
-/
namespace Tux3.CommittedBlocks

open Diskio (Answer State Failure)
open Recovery (Extent Kept Takes)
open Superblock (reserve sbLoc)
open Mkfs (Inv Same Stored)

def blocksOf (e : Extent) : Finset ℕ := Finset.Ico e.block (e.block + e.count)

def extentBlocks : List Extent → Finset ℕ
  | [] => ∅
  | e :: es => blocksOf e ∪ extentBlocks es

/-- A volume with deferred frees. The last three fields are history: the blocks that the last commit
that returned 0 does not need, which were handed out since or were pinned then, the blocks that it
needs, and the file that it left. -/
structure Volume extends Mkfs.Volume where
  defree : List Extent
  fresh : Finset ℕ
  committed : Finset ℕ
  image : Bytes

/-- `commit_delta`. A pinned block is in the log only and is written by a later rollup. -/
def commitDelta (answers : List Answer) (v : Volume) (sb : Superblock.Sb) (pinned : Finset ℕ) :
    Option (ℤ × Volume) := do
  let (err, file, sb') ← Superblock.commitDelta answers v.file sb
  if err ≠ 0 then return (err, { v with file := file, super := sb'.super, last := none })
  let map ← Recovery.retire v.sb v.defree
  return (0, { v with
    sb := map
    owned := v.owned \ extentBlocks v.defree
    file := file
    super := sb'.super
    last := some (sb, v.owned)
    defree := []
    fresh := pinned
    committed := (v.owned \ extentBlocks v.defree) \ pinned
    image := file })

/-- Calls between commits. A block that is written, or freed at once, is one that the last commit does
not need; other frees are deferred. -/
inductive Run : Volume → Prop where
  | start {v : Mkfs.Volume} (h : Mkfs.Run v) : Run ⟨v, [], v.owned, ∅, v.file⟩
  | balloc {v : Volume} {sb : Balloc.Sb} {n : ℕ} {block : ℤ} (h : Run v)
      (hio : Balloc.balloc v.sb n = some (0, block, sb)) :
      Run { v with
        sb := sb
        owned := v.owned ∪ Finset.Ico block.toNat (block.toNat + n)
        fresh := v.fresh ∪ Finset.Ico block.toNat (block.toNat + n) }
  | full {v : Volume} {sb : Balloc.Sb} {n : ℕ} {err block : ℤ} (h : Run v) (herr : err ≠ 0)
      (hio : Balloc.balloc v.sb n = some (err, block, sb)) : Run { v with sb := sb }
  | bfree {v : Volume} {sb : Balloc.Sb} {e : Extent} {err : ℤ} (h : Run v)
      (hfresh : blocksOf e ⊆ v.fresh) (hapart : ∀ d ∈ v.defree, Disjoint (blocksOf d) (blocksOf e))
      (hone : e.block % v.sb.mapsize + e.count ≤ v.sb.mapsize)
      (hio : Balloc.bfree v.sb e.block e.count = some (err, sb)) :
      Run { v with sb := sb, owned := v.owned \ blocksOf e, fresh := v.fresh \ blocksOf e }
  | write {v : Volume} {s : State} {err : ℤ} (mem : Bytes) (answers : List Answer) (data block : ℕ)
      (h : Run v) (hfresh : block ∈ v.fresh)
      (hio : Diskio.blockio v.sb.blockbits true answers ⟨v.file, mem⟩ data block = some (err, s)) :
      Run { v with file := s.file }
  | defer {v : Volume} {e : Extent} (h : Run v) (hpos : 0 < e.count)
      (hone : e.block % v.sb.mapsize + e.count ≤ v.sb.mapsize) (howned : blocksOf e ⊆ v.owned)
      (hapart : ∀ d ∈ v.defree, Disjoint (blocksOf d) (blocksOf e)) :
      Run { v with defree := v.defree ++ [e] }
  | commit {v v' : Volume} {sb : Superblock.Sb} {err : ℤ} {pinned : Finset ℕ} (answers : List Answer)
      (h : Run v) (hsame : Same sb v.toVolume) (hfits : sb.Fits)
      (hpinned : pinned ⊆ v.owned \ extentBlocks v.defree)
      (hio : commitDelta answers v sb pinned = some (err, v')) : Run v'

/-- The device has what the last commit needs, and the next commit can retire the deferred frees. -/
structure Safe (v : Volume) : Prop where
  used : ∀ b ∈ v.committed, v.sb.bit b = true ∧ reserve v.sb.blockbits ≤ b ∧ b < v.sb.volblocks
  balloc : ∀ {n : ℕ} {block : ℤ} {sb : Balloc.Sb}, Balloc.balloc v.sb n = some (0, block, sb) →
    ∀ b ∈ Finset.Ico block.toNat (block.toNat + n), b ∉ v.committed
  read : ∀ {b : ℕ}, b ∈ v.committed → ∀ {answers : List Answer} {mem : Bytes} {data : ℕ} {err : ℤ}
    {s : State}, Diskio.blockio v.sb.blockbits false answers ⟨v.file, mem⟩ data b = some (err, s) →
      err < 0 ∧ Failure answers err ∨ err = 0 ∧ ∀ i < 2 ^ v.sb.blockbits,
        s.mem (data + i) = v.image (b * 2 ^ v.sb.blockbits + i)
  mount : ∀ {answers : List Answer} {other sb sb' : Superblock.Sb} {owned : Finset ℕ} {err : ℤ},
    v.last = some (sb, owned) → Superblock.loadSb answers v.file other = some (err, sb') →
      err < 0 ∧ Failure answers err ∨ err = 0 ∧ Superblock.Loaded sb sb'
  commit : ∀ {answers : List Answer} {sb sb' : Superblock.Sb} {file : Bytes} (pinned : Finset ℕ),
    Superblock.commitDelta answers v.file sb = some (0, file, sb') →
      ∃ v', commitDelta answers v sb pinned = some (0, v') ∧
        ∀ b, v'.sb.bit b = true ↔ v.sb.bit b = true ∧ b ∉ extentBlocks v.defree

/-! ## Deferred frees -/

/-- The extents can be freed one after the other. -/
structure Deferred (sb : Balloc.Sb) (owned : Finset ℕ) (es : List Extent) : Prop where
  pos : ∀ e ∈ es, 0 < e.count
  oneBlock : ∀ e ∈ es, e.block % sb.mapsize + e.count ≤ sb.mapsize
  owned : ∀ e ∈ es, blocksOf e ⊆ owned
  apart : es.Pairwise fun d e => Disjoint (blocksOf d) (blocksOf e)

section
variable {sb sb' : Balloc.Sb} {owned : Finset ℕ} {reserved b : ℕ} {e : Extent} {es : List Extent}

theorem mem_extentBlocks : b ∈ extentBlocks es ↔ ∃ e ∈ es, b ∈ blocksOf e := by
  induction es with
  | nil => simp [extentBlocks]
  | cons e es ih => simp [extentBlocks, ih]

theorem Deferred.kept (h : Deferred sb owned es) (hkept : Kept sb sb') {owned' : Finset ℕ}
    (howned : ∀ e ∈ es, blocksOf e ⊆ owned') : Deferred sb' owned' es :=
  ⟨h.pos, hkept.mapsize ▸ h.oneBlock, howned, h.apart⟩

theorem Deferred.append (h : Deferred sb owned es) (hpos : 0 < e.count)
    (hone : e.block % sb.mapsize + e.count ≤ sb.mapsize) (howned : blocksOf e ⊆ owned)
    (hapart : ∀ d ∈ es, Disjoint (blocksOf d) (blocksOf e)) : Deferred sb owned (es ++ [e]) where
  pos := by simpa [or_imp, forall_and] using ⟨h.pos, hpos⟩
  oneBlock := by simpa [or_imp, forall_and] using ⟨h.oneBlock, hone⟩
  owned := by simpa [or_imp, forall_and] using ⟨h.owned, howned⟩
  apart := by simpa [List.pairwise_append] using ⟨h.apart, hapart⟩

/-- All deferred frees are retired. -/
theorem retire_spec (h : Inv sb owned reserved) (hd : Deferred sb owned es) :
    ∃ sb', Recovery.retire sb es = some sb' ∧ Inv sb' (owned \ extentBlocks es) reserved ∧
      Kept sb sb' := by
  induction es generalizing sb owned with
  | nil => exact ⟨sb, rfl, by rwa [extentBlocks, Finset.sdiff_empty], Kept.refl sb⟩
  | cons e es ih =>
      obtain ⟨hpos, hpos'⟩ := List.forall_mem_cons.mp hd.pos
      obtain ⟨hone, hone'⟩ := List.forall_mem_cons.mp hd.oneBlock
      obtain ⟨howned, howned'⟩ := List.forall_mem_cons.mp hd.owned
      obtain ⟨hapart, hapart'⟩ := List.pairwise_cons.mp hd.apart
      have hfree := Balloc.bfree_of_frees hpos (h.frees hpos howned hone)
      obtain ⟨hinv, hkept⟩ := h.bfree howned hone hfree
      have hrest : Deferred sb (owned \ blocksOf e) es :=
        ⟨hpos', hone', fun d hd' => Finset.subset_sdiff.mpr ⟨howned' d hd', (hapart d hd').symm⟩,
          hapart'⟩
      obtain ⟨sb', hrun, hinv', hkept'⟩ := ih hinv (hrest.kept hkept hrest.owned)
      refine ⟨sb', ?_, ?_, hkept.trans hkept'⟩
      · rw [Recovery.retire, hfree]
        exact hrun
      · rw [extentBlocks, ← Finset.sup_eq_union, ← sdiff_sdiff_left]
        exact hinv'

end

/-! ## The file -/

section
variable {file : Bytes} {blockbits a b i : ℕ}

theorem write_other {mem : Bytes} {answers : List Answer} {data : ℕ} {err : ℤ} {s : State}
    (hbits : blockbits ≤ 15) (ha : a < 2 ^ 48)
    (hio : Diskio.blockio blockbits true answers ⟨file, mem⟩ data a = some (err, s)) (hne : a ≠ b)
    (hi : i < 2 ^ blockbits) : s.file (b * 2 ^ blockbits + i) = file (b * 2 ^ blockbits + i) := by
  obtain ⟨n, hn, rfl, -⟩ := Diskio.ioabs_spec hio
  rw [Diskio.offset_eq hbits ha]
  have hout := Diskio.block_apart hi hne
  exact Diskio.copy_outside (by omega)

theorem commit_other {answers : List Answer} {sb sb' : Superblock.Sb} {file' : Bytes} {err : ℤ}
    (hio : Superblock.commitDelta answers file sb = some (err, file', sb'))
    (hb : reserve blockbits ≤ b) :
    file' (b * 2 ^ blockbits + i) = file (b * 2 ^ blockbits + i) := by
  obtain ⟨-, n, hn, rfl, -⟩ := Superblock.commitDelta_spec hio
  have hle := Superblock.reserve_le hb
  exact Diskio.copy_outside (Or.inr (by omega))

theorem read_block {mem : Bytes} {answers : List Answer} {data : ℕ} {err : ℤ} {s : State}
    (hbits : blockbits ≤ 15) (hb : b < 2 ^ 48)
    (hio : Diskio.blockio blockbits false answers ⟨file, mem⟩ data b = some (err, s)) :
    err < 0 ∧ Failure answers err ∨ err = 0 ∧ ∀ i < 2 ^ blockbits,
      s.mem (data + i) = file (b * 2 ^ blockbits + i) := by
  obtain ⟨n, -, rfl, hend⟩ := Diskio.ioabs_spec hio
  rcases hend with ⟨rfl, rfl⟩ | hfail
  · rw [Diskio.offset_eq hbits hb]
    exact Or.inr ⟨rfl, fun i hi => Diskio.copy_at hi⟩
  · exact Or.inl hfail

end

/-! ## Runs -/

/-- What every call keeps. Blocks that are written are not in the image. -/
structure Good (v : Volume) : Prop where
  blockbits : v.sb.blockbits ≤ 15
  inv : Inv v.sb v.owned (reserve v.sb.blockbits)
  stored : Stored v.toVolume
  fresh : v.fresh ⊆ v.owned
  committed : v.committed ⊆ v.owned
  apart : Disjoint v.fresh v.committed
  defree : Deferred v.sb v.owned v.defree
  image : ∀ b ∈ v.committed, ∀ i < 2 ^ v.sb.blockbits,
    v.file (b * 2 ^ v.sb.blockbits + i) = v.image (b * 2 ^ v.sb.blockbits + i)

section
variable {v v' : Volume} {sb : Balloc.Sb} {n b : ℕ} {e : Extent} {answers : List Answer} {err : ℤ}

theorem Good.block_lt (h : Good v) (hb : b ∈ v.owned) : b < 2 ^ 48 := by
  have hlt := (h.inv.apart b hb).2
  have hvol := h.inv.small.volblocks
  omega

theorem Good.start {v : Mkfs.Volume} (h : Mkfs.Run v) : Good ⟨v, [], v.owned, ∅, v.file⟩ := by
  obtain ⟨hbits, hinv, hstored⟩ := h.inv
  exact ⟨hbits, hinv, hstored, subset_rfl, Finset.empty_subset _, Finset.disjoint_empty_right _,
    ⟨by simp, by simp, by simp, .nil⟩, by simp⟩

theorem Good.balloc (h : Good v) {f : ℕ} (hio : Balloc.balloc v.sb n = some (0, (f : ℤ), sb))
    (ht : Takes v.sb n f sb) :
    Good { v with
      sb := sb
      owned := v.owned ∪ Finset.Ico f (f + n)
      fresh := v.fresh ∪ Finset.Ico f (f + n) } := by
  have hinv := h.inv.balloc hio ht
  have hnew := h.inv.takes ht
  have hbits := ht.kept.blockbits
  refine ⟨hbits ▸ h.blockbits, hbits ▸ hinv, h.stored.kept ht.kept _, ?_, ?_, ?_, ?_, hbits ▸ h.image⟩
  · exact Finset.union_subset_union_left h.fresh
  · exact h.committed.trans Finset.subset_union_left
  · refine Finset.disjoint_union_left.mpr ⟨h.apart, Finset.disjoint_left.mpr fun b hb hold => ?_⟩
    exact (hnew b hb).2.2 (h.committed hold)
  · exact h.defree.kept ht.kept fun d hd => (h.defree.owned d hd).trans Finset.subset_union_left

theorem Good.bfree (h : Good v) (hfresh : blocksOf e ⊆ v.fresh)
    (hapart : ∀ d ∈ v.defree, Disjoint (blocksOf d) (blocksOf e))
    (hone : e.block % v.sb.mapsize + e.count ≤ v.sb.mapsize)
    (hio : Balloc.bfree v.sb e.block e.count = some (err, sb)) :
    Good { v with sb := sb, owned := v.owned \ blocksOf e, fresh := v.fresh \ blocksOf e } := by
  obtain ⟨hinv, hkept⟩ := h.inv.bfree (hfresh.trans h.fresh) hone hio
  have hbits := hkept.blockbits
  refine ⟨hbits ▸ h.blockbits, hbits ▸ hinv, h.stored.kept hkept _, ?_, ?_, ?_, ?_, hbits ▸ h.image⟩
  · exact Finset.sdiff_subset_sdiff h.fresh subset_rfl
  · exact Finset.subset_sdiff.mpr ⟨h.committed, (h.apart.mono_left hfresh).symm⟩
  · exact h.apart.mono_left Finset.sdiff_subset
  · exact h.defree.kept hkept fun d hd =>
      Finset.subset_sdiff.mpr ⟨h.defree.owned d hd, hapart d hd⟩

theorem Good.write (h : Good v) {mem : Bytes} {data a : ℕ} {s : State} (hfresh : a ∈ v.fresh)
    (hio : Diskio.blockio v.sb.blockbits true answers ⟨v.file, mem⟩ data a = some (err, s)) :
    Good { v with file := s.file } := by
  have hmem := h.fresh hfresh
  have hstored := h.stored.write h.blockbits (h.inv.apart a hmem).1 (h.block_lt hmem) hio
  refine ⟨h.blockbits, h.inv, hstored, h.fresh, h.committed, h.apart, h.defree, fun b hb i hi => ?_⟩
  have hne : a ≠ b := fun heq => Finset.disjoint_left.mp h.apart hfresh (heq ▸ hb)
  exact (write_other h.blockbits (h.block_lt hmem) hio hne hi).trans (h.image b hb i hi)

theorem Good.defer (h : Good v) (hpos : 0 < e.count)
    (hone : e.block % v.sb.mapsize + e.count ≤ v.sb.mapsize) (howned : blocksOf e ⊆ v.owned)
    (hapart : ∀ d ∈ v.defree, Disjoint (blocksOf d) (blocksOf e)) :
    Good { v with defree := v.defree ++ [e] } :=
  ⟨h.blockbits, h.inv, h.stored, h.fresh, h.committed, h.apart,
    h.defree.append hpos hone howned hapart, h.image⟩

theorem commitDelta_ok (h : Good v) {sb sb' : Superblock.Sb} {file : Bytes} (pinned : Finset ℕ)
    (hio : Superblock.commitDelta answers v.file sb = some (0, file, sb')) :
    ∃ map, commitDelta answers v sb pinned = some (0, { v with
        sb := map
        owned := v.owned \ extentBlocks v.defree
        file := file
        super := sb'.super
        last := some (sb, v.owned)
        defree := []
        fresh := pinned
        committed := (v.owned \ extentBlocks v.defree) \ pinned
        image := file }) ∧
      Inv map (v.owned \ extentBlocks v.defree) (reserve v.sb.blockbits) ∧ Kept v.sb map := by
  obtain ⟨map, hretire, hinv, hkept⟩ := retire_spec h.inv h.defree
  refine ⟨map, ?_, hinv, hkept⟩
  rw [commitDelta, hio, Option.bind_eq_bind, Option.bind_some]
  dsimp only
  rw [if_neg (not_not_intro rfl), hretire]
  rfl

theorem Good.commit (h : Good v) {sb : Superblock.Sb} {pinned : Finset ℕ} (hsame : Same sb v.toVolume)
    (hfits : sb.Fits) (hpinned : pinned ⊆ v.owned \ extentBlocks v.defree)
    (hio : commitDelta answers v sb pinned = some (err, v')) : Good v' := by
  have hio' := hio
  rw [commitDelta, Option.bind_eq_bind, Option.bind_eq_some_iff] at hio
  obtain ⟨⟨err', file, sb'⟩, hsuper, hio⟩ := hio
  have hstored := h.stored.commit h.inv hsame hfits hsuper
  by_cases herr : err' = 0
  · subst herr
    rw [if_pos rfl] at hstored
    obtain ⟨map, hrun, hinv, hkept⟩ := commitDelta_ok h pinned hsuper
    obtain ⟨-, rfl⟩ := Prod.mk.inj (Option.some.inj (hrun.symm.trans hio'))
    have hbits := hkept.blockbits
    exact ⟨hbits ▸ h.blockbits, hbits ▸ hinv, hstored.kept hkept _, hpinned, Finset.sdiff_subset,
      Finset.disjoint_sdiff, ⟨by simp, by simp, by simp, .nil⟩, fun b hb i hi => rfl⟩
  · dsimp only at hio
    rw [if_pos herr] at hio
    rw [if_neg herr] at hstored
    obtain ⟨-, rfl⟩ := Prod.mk.inj (Option.some.inj hio)
    refine ⟨h.blockbits, h.inv, hstored, h.fresh, h.committed, h.apart, h.defree, fun b hb i hi => ?_⟩
    exact (commit_other hsuper (h.inv.apart b (h.committed hb)).1).trans (h.image b hb i hi)

theorem Run.good (h : Run v) : Good v := by
  induction h with
  | start h => exact Good.start h
  | balloc h hio ih =>
      obtain ⟨f, rfl, ht⟩ := ih.inv.taken hio
      exact ih.balloc hio ht
  | full h herr hio ih =>
      obtain rfl := ih.inv.full herr hio
      exact ih
  | bfree h hfresh hapart hone hio ih => exact ih.bfree hfresh hapart hone hio
  | write mem answers data block h hfresh hio ih => exact ih.write hfresh hio
  | defer h hpos hone howned hapart ih => exact ih.defer hpos hone howned hapart
  | commit answers h hsame hfits hpinned hio ih => exact ih.commit hsame hfits hpinned hio

/-- Whenever the program is stopped: allocations, frees, block writes and commits after mkfs leave
the blocks of the last commit that returned 0 as they were, whatever transfers fail. -/
theorem committed_safe (h : Run v) : Safe v := by
  have hgood := h.good
  have hinv := hgood.inv
  refine ⟨fun b hb => ?_, fun hio b hb hold => ?_, fun {b} hb {answers mem data err s} hio => ?_,
    fun hlast hload => ?_, fun pinned hsuper => ?_⟩
  · have howned := hgood.committed hb
    exact ⟨(hinv.bits b).mpr (Or.inr howned), hinv.apart b howned⟩
  · obtain ⟨f, rfl, ht⟩ := hinv.taken hio
    exact (hinv.takes ht b hb).2.2 (hgood.committed hold)
  · refine (read_block hgood.blockbits (hgood.block_lt (hgood.committed hb)) hio).imp_right ?_
    rintro ⟨rfl, hread⟩
    exact ⟨rfl, fun i hi => (hread i hi).trans (hgood.image b hb i hi)⟩
  · refine (hgood.stored.mount hlast hload).imp_right ?_
    rintro ⟨rfl, hloaded, -⟩
    exact ⟨rfl, hloaded⟩
  · obtain ⟨map, hrun, hmap, -⟩ := commitDelta_ok hgood pinned hsuper
    refine ⟨_, hrun, fun b => ?_⟩
    have hlow : b < reserve v.sb.blockbits → b ∉ extentBlocks v.defree := by
      intro hlt hmem
      obtain ⟨d, hd, hb⟩ := mem_extentBlocks.mp hmem
      exact absurd hlt (Nat.not_lt.mpr (hinv.apart b (hgood.defree.owned d hd hb)).1)
    rw [hmap.bits, hinv.bits, Finset.mem_sdiff, or_and_right, and_iff_left_of_imp hlow]

end

/-- Block 3 is allocated on a fresh volume and filled with the byte 7, and there is a commit. -/
theorem committed_seven : ∃ (v : Volume) (sb : Balloc.Sb), Run v ∧ v.defree = [] ∧ 3 ∈ v.owned ∧
    3 ∈ v.committed ∧ v.sb.blockbits = 12 ∧ Balloc.balloc v.sb 2 = some (0, 16, sb) ∧
    sb.blockbits = 12 ∧ v.image (3 * 2 ^ 12 + 5) = 7 := by
  obtain ⟨sb, ⟨bits, vol, free, next, map, readable⟩, ⟨bits', vol', free', next', map', readable'⟩,
      hreserve, hballoc, hagain, rfl, rfl, rfl, rfl, rfl⟩ : ∃ sb sb' sb'',
      Mkfs.reserveBlocks Mkfs.newMap = some sb ∧ Balloc.balloc sb 14 = some (0, 2, sb') ∧
        Balloc.balloc sb' 2 = some (0, 16, sb'') ∧ 12 = sb'.blockbits ∧ 256 = sb'.volblocks ∧
        240 = sb'.freeblocks ∧ 16 = sb'.nextalloc ∧ 12 = sb''.blockbits :=
    ⟨_, _, _, rfl, rfl, rfl, rfl, rfl, rfl, rfl, rfl⟩
  have hmake := Mkfs.Run.make (fun _ => 0) Superblock.fresh.super Mkfs.newMap_new hreserve (by decide)
  have hmem : 3 ∈ ∅ ∪ Finset.Ico 2 16 := Finset.mem_union_right _ (by decide)
  have hwrite := ((Run.start hmake).balloc hballoc).write (fun _ => 7) [.moved 96, .moved 4000] 0 3
    hmem (show Diskio.blockio 12 _ _ _ 0 3 = _ from rfl)
  have hsame : ∀ owned file, Same Superblock.fresh
      ⟨⟨12, 256, 240, 16, map, readable⟩, owned, file, Superblock.fresh.super, none⟩ :=
    fun _ _ => ⟨rfl, rfl, rfl, rfl, rfl⟩
  have hcommit := hwrite.commit [.failed Diskio.eintr (by decide), .moved 5000] (hsame _ _)
    (by constructor <;> decide) (Finset.empty_subset _) rfl
  have hheld : 3 ∈ (∅ ∪ Finset.Ico 2 16) \ extentBlocks [] := by simp [extentBlocks]
  exact ⟨_, _, hcommit, rfl, hheld, Finset.mem_sdiff.mpr ⟨hheld, Finset.notMem_empty 3⟩, rfl, hagain,
    rfl, rfl⟩

/-- The free of that block is deferred, two others are allocated, and the write of one of them fails
half way: the block still has what the commit needs. -/
theorem committed_safe_defer : ∃ (v : Volume) (mem : Bytes) (back : State), Run v ∧
    v.defree = [⟨3, 1⟩] ∧ 3 ∈ v.committed ∧
    Diskio.blockio v.sb.blockbits false [.moved 4096] ⟨v.file, mem⟩ 0 3 = some (0, back) ∧
    back.mem 5 = 7 := by
  obtain ⟨⟨⟨⟨bits, vol, free, next, map, readable⟩, owned, file, super, last⟩, defree, committed,
    fresh, image⟩, ⟨bits', vol', free', next', map', readable'⟩, hcommit, hdefree, howned, hneed,
    hbits, hagain, hbits', hseven⟩ := committed_seven
  dsimp only at hdefree howned hneed hbits hagain hbits' hseven
  subst hdefree hbits hbits'
  have hdefer := @Run.defer _ ⟨3, 1⟩ hcommit Nat.one_pos (show 3 % 2 ^ 15 + 1 ≤ 2 ^ 15 by decide)
    (by simpa [blocksOf] using howned) (fun d hd => nomatch hd)
  have hrun := (hdefer.balloc hagain).write (fun _ => 9) [.moved 96, .moved 0] 0 16
    (Finset.mem_union_right _ (by decide)) (show Diskio.blockio 12 _ _ _ 0 16 = _ from rfl)
  obtain ⟨v, hrun, hdefree, hneed, hbits, hseven⟩ : ∃ v : Volume, Run v ∧ v.defree = [⟨3, 1⟩] ∧
      3 ∈ v.committed ∧ v.sb.blockbits = 12 ∧ v.image (3 * 2 ^ 12 + 5) = 7 :=
    ⟨_, hrun, rfl, hneed, rfl, hseven⟩
  obtain ⟨back, hback⟩ : ∃ back, Diskio.blockio v.sb.blockbits false [.moved 4096]
      ⟨v.file, fun _ => 0⟩ 0 3 = some (0, back) := by
    rw [hbits]
    exact ⟨_, rfl⟩
  have hread := ((committed_safe hrun).read hneed hback).resolve_left
    fun hfail => Int.lt_irrefl 0 hfail.1
  rw [hbits] at hread
  have hbyte := hread.2 5 (by decide)
  rw [Nat.zero_add] at hbyte
  exact ⟨v, _, back, hrun, hdefree, hneed, hback, hbyte.trans hseven⟩

end Tux3.CommittedBlocks
