import Mathlib.Algebra.Order.BigOperators.Group.List
import Mathlib.Algebra.Order.Group.Nat
import Tux3.BallocExact
import Tux3.DeferredFrees
import Tux3.LogRoundTrip
import Tux3.Lib.Redo

/-!
# Recovering the allocation map

A volume in use allocates blocks, defers frees and logs both; `force_delta` writes the log blocks
and retires the frees. Replay of the log, over a bitmap file each block of which was written at
some time since the mount, brings the allocation map back.
-/
namespace Tux3.Recovery

open Log

structure Extent where
  block : ℕ
  count : ℕ
  deriving DecidableEq, Repr

def Extent.blocks (e : Extent) : Set ℕ := Set.Ico e.block (e.block + e.count)

/-- The part of `struct sb` that the allocator, the log and the deferred frees use. There is no
rollup, so that nothing leaves `derollup` and `new_decycle`; the latter has the log blocks. `past`
is history: the bitmap after each operation since the mount. -/
structure Volume where
  log : Written
  sb : Balloc.Sb
  defree : List Extent
  derollup : List Extent
  newDecycle : List ℕ
  past : List (ℕ → Bytes)

def mount (sb : Balloc.Sb) (logchain : ℕ) (logmap : ℕ → LogBlock) (disk : Disk) : Volume where
  log := Log.mount sb.blocksize logchain logmap disk
  sb := sb
  defree := []
  derollup := []
  newDecycle := []
  past := [sb.bitmap]

def Volume.entry (v : Volume) (e : Entry) : Option Volume := do
  let log ← v.log.entry e
  return { v with log := log }

/-- The calls of `balloc` in the loop of `write_log`. -/
def ballocs : Balloc.Sb → ℕ → Option (List ℕ × Balloc.Sb)
  | sb, 0 => some ([], sb)
  | sb, n + 1 => do
      let (err, block, sb) ← Balloc.balloc sb 1
      if err < 0 then none
      else
        let (blocks, sb) ← ballocs sb n
        return (block.toNat :: blocks, sb)

/-- `unstash(sb, &sb->defree, retire_bfree)`. -/
def retire : Balloc.Sb → List Extent → Option Balloc.Sb
  | sb, [] => some sb
  | sb, e :: es => do
      let (err, sb) ← Balloc.bfree sb e.block e.count
      if err < 0 then none else retire sb es

/-- `do_commit` without a rollup: `write_log`, then `retire_bfree` of `commit_delta`. -/
def Volume.forceDelta (v : Volume) : Option Volume := do
  let n := v.log.log.lognext - v.log.log.logthis
  let (blocks, sb) ← ballocs v.sb n
  let (log, disk) ← writeLog v.log.log v.log.disk blocks
  let sb ← retire sb v.defree
  return { v with
    log := { v.log with log := log, disk := disk, allocated := v.log.allocated + n }
    sb := sb
    defree := []
    newDecycle := v.newDecycle ++ blocks }

/-- `balloc` with `log_balloc`, `map_bfree`, one of the other log writers, and `force_delta`. -/
inductive Act where
  | balloc (count : ℕ)
  | mapBfree (isBitmap : Bool) (block count : ℕ)
  | log (entry : Entry)
  | forceDelta
  deriving DecidableEq, Repr

def Act.run (v : Volume) : Act → Option Volume
  | .balloc count => do
      let (err, block, sb) ← Balloc.balloc v.sb count
      if err < 0 then return { v with sb := sb }
      else Volume.entry { v with sb := sb } (.balloc block.toNat count)
  | .mapBfree isBitmap block count =>
      if isBitmap then do
        let v ← v.entry (.bfreeOnRollup block count)
        return { v with derollup := v.derollup ++ [⟨block, count⟩] }
      else do
        let v ← v.entry (.bfree block count)
        return { v with defree := v.defree ++ [⟨block, count⟩] }
  | .log entry => v.entry entry
  | .forceDelta => v.forceDelta

def Volume.step (v : Volume) (act : Act) : Option Volume := do
  let v ← act.run v
  return { v with past := v.past ++ [v.sb.bitmap] }

/-- The free of the block is deferred. -/
def Volume.Pending (v : Volume) (b : ℕ) : Prop := ∃ e ∈ v.defree ++ v.derollup, b ∈ e.blocks

/-- What a caller of `map_bfree` promises: the extent is in use and is not a log block. -/
structure Volume.Owned (v : Volume) (e : Extent) : Prop where
  pos : 0 < e.count
  inVolume : e.block + e.count ≤ v.sb.volblocks
  oneBlock : e.block % v.sb.mapsize + e.count ≤ v.sb.mapsize
  readable : v.sb.readable (e.block / v.sb.mapsize) = true
  set : ∀ b ∈ e.blocks, v.sb.bit b = true
  notPending : ∀ b ∈ e.blocks, ¬ v.Pending b
  notLog : ∀ b ∈ e.blocks, b ∉ v.newDecycle

/-- The other log writers are called with fields that fit, for entries that replay has a case
for. -/
def Act.Honest (v : Volume) : Act → Prop
  | .mapBfree _ block count => v.Owned ⟨block, count⟩
  | .log entry => entry.Valid ∧ ¬ entry.Unread ∧ entry.update = none
  | .balloc _ | .forceDelta => True

inductive Run (start : Volume) : Volume → Prop where
  | refl : Run start start
  | step {v v' : Volume} (act : Act) (run : Run start v) (honest : act.Honest v)
      (next : v.step act = some v') : Run start v'

/-- The extents logged, in order. -/
def Volume.updates (v : Volume) : List Update :=
  (v.log.marks.map Mark.entry).filterMap Entry.update

def cells (u : Update) : Set ℕ := Set.Ico u.start (u.start + u.count)

def write (u : Update) : Redo.Write ℕ := ⟨cells u, u.set⟩

def Volume.writes (v : Volume) : List (Redo.Write ℕ) := v.updates.map write

/-- Each block of the bitmap file was written at some time since the mount. -/
structure Volume.Snapshot (v : Volume) (disk : Balloc.Sb) : Prop where
  blockbits : disk.blockbits = v.sb.blockbits
  readable : disk.readable = v.sb.readable
  written : ∀ m, ∃ bitmap ∈ v.past, disk.bitmap m = bitmap m

/-- A block is in use once the deferred frees are done. -/
def Volume.InUse (v : Volume) (b : ℕ) : Prop := v.sb.bit b = true ∧ ¬ v.Pending b

/-! ## The allocator -/

section Allocator
variable {sb sb' : Balloc.Sb} {n : ℕ} {err : ℤ}

/-- Block numbers fit in 32 bits, and a log block holds the longest entry. -/
structure Small (sb : Balloc.Sb) : Prop where
  blockbits : sb.blockbits ≤ 16
  blocksize : 42 ≤ sb.blocksize
  volblocks : sb.volblocks ≤ 2 ^ 32
  nextalloc : sb.nextalloc ≤ sb.volblocks

/-- What the allocator does not change. -/
structure Kept (sb sb' : Balloc.Sb) : Prop where
  blockbits : sb'.blockbits = sb.blockbits
  volblocks : sb'.volblocks = sb.volblocks
  readable : sb'.readable = sb.readable

theorem Kept.refl (sb : Balloc.Sb) : Kept sb sb := ⟨rfl, rfl, rfl⟩

theorem Kept.trans {sb'' : Balloc.Sb} (h : Kept sb sb') (h' : Kept sb' sb'') : Kept sb sb'' :=
  ⟨h'.blockbits.trans h.blockbits, h'.volblocks.trans h.volblocks, h'.readable.trans h.readable⟩

theorem Kept.mapsize (h : Kept sb sb') : sb'.mapsize = sb.mapsize := by
  rw [Balloc.Sb.mapsize, h.blockbits, Balloc.Sb.mapsize]

theorem Kept.small (h : Kept sb sb') (hs : Small sb) (hnext : sb'.nextalloc ≤ sb.volblocks) :
    Small sb' where
  blockbits := h.blockbits ▸ hs.blockbits
  blocksize := by
    rw [Balloc.Sb.blocksize, h.blockbits]
    exact hs.blocksize
  volblocks := h.volblocks ▸ hs.volblocks
  nextalloc := h.volblocks ▸ hnext

theorem Small.mapsize_le (h : Small sb) : sb.mapsize ≤ 2 ^ 30 :=
  Balloc.mapsize_le (h.blockbits.trans (by decide))

theorem found_inside (h : Small sb) {start count f : ℕ} (hin : start + count ≤ sb.volblocks)
    (hf : sb.Reach n (sb.cut start) (sb.searchEnd start count) f)
    (hlim : f + n ≤ start + count ∨ 2 ^ 32 < f + n) : f + n ≤ sb.volblocks := by
  have hend := @Balloc.searchEnd_le sb start count
  have hhigh := hf.high
  have hvol := h.volblocks
  omega

theorem search_takes (h : Small sb) (hn : 0 < n) {start count : ℕ} (hcount : count < 2 ^ 32)
    (hin : start + count ≤ sb.volblocks) :
    (∃ f : ℕ, f + n ≤ sb.volblocks ∧ sb.Fits n f ∧ sb.readable (f / sb.mapsize) = true ∧
      Balloc.ballocFromRange sb start count n = some ((f : ℤ), sb.taken n f)) ∨
    Balloc.ballocFromRange sb start count n = some (-1, sb) := by
  have hbits : sb.blockbits ≤ 27 := h.blockbits.trans (by decide)
  have hvol := h.volblocks
  rcases Balloc.search_spec hbits hn start hcount with ⟨f, hf, -, hlim, -, hr⟩ | ⟨-, hr⟩
  · have hinside := found_inside h hin hf hlim
    refine Or.inl ⟨f, hinside, hf.fits,
      hf.readable _ (Nat.div_le_div_right hf.low) (Nat.le_refl _), ?_⟩
    rw [hr, Balloc.number_of_lt (by omega)]
  · exact Or.inr hr

/-- What `balloc` takes in a small volume. -/
structure Takes (sb : Balloc.Sb) (n f : ℕ) (sb' : Balloc.Sb) : Prop where
  pos : 0 < n
  inVolume : f + n ≤ sb.volblocks
  oneBlock : f % sb.mapsize + n ≤ sb.mapsize
  readable : sb.readable (f / sb.mapsize) = true
  clear : ∀ b ∈ Set.Ico f (f + n), sb.bit b = false
  bits : ∀ b, sb'.bit b = (sb.bit b || decide (f ≤ b ∧ b < f + n))
  kept : Kept sb sb'
  small : Small sb'

theorem takes_taken (h : Small sb) (hn : 0 < n) {f : ℕ} (hin : f + n ≤ sb.volblocks)
    (hfit : sb.Fits n f) (hread : sb.readable (f / sb.mapsize) = true) :
    Takes sb n f (sb.taken n f) := by
  have hvol := h.volblocks
  have ht := Balloc.taken_takes (h.blockbits.trans (by decide)) hfit (by omega)
  have hkept : Kept sb (sb.taken n f) := ⟨ht.same.1, ht.same.2.1, ht.same.2.2⟩
  exact ⟨hn, hin, hfit.oneBlock, hread, fun b hb => hfit.clear b hb.1 hb.2, ht.bits, hkept,
    hkept.small h (ht.nextalloc.symm ▸ hin)⟩

theorem balloc_takes (h : Small sb) {block : ℤ}
    (hrun : Balloc.balloc sb n = some (err, block, sb')) :
    (err = 0 ∧ ∃ f : ℕ, block = f ∧ Takes sb n f sb') ∨ (err = -enospc ∧ sb' = sb) := by
  have hnext := h.nextalloc
  have hrem : sb.nextalloc + sb.remaining ≤ sb.volblocks := by
    rw [Balloc.remaining_eq ⟨h.blockbits.trans (by decide), hnext⟩]
    have := u32_le (sb.volblocks - sb.nextalloc)
    omega
  have hgoal : 0 + u32 sb.nextalloc ≤ sb.volblocks := by
    have := u32_le sb.nextalloc
    omega
  have hneg : ¬ (0 : ℤ) ≤ -1 := by decide
  cases Nat.eq_zero_or_pos n with
  | inl h0 =>
      rw [h0, Balloc.balloc, if_pos rfl] at hrun
      cases hrun
  | inr hn =>
      rw [Balloc.balloc_eq hn] at hrun
      rcases search_takes h hn Balloc.remaining_lt hrem with ⟨f, hin, hfit, hread, hr⟩ | hr
      · rw [hr, Option.bind_some, if_pos (Int.natCast_nonneg _)] at hrun
        cases hrun
        exact Or.inl ⟨rfl, f, rfl, takes_taken h hn hin hfit hread⟩
      · rw [hr, Option.bind_some, if_neg hneg] at hrun
        dsimp only at hrun
        rcases search_takes h hn (u32_lt sb.nextalloc) hgoal with ⟨f, hin, hfit, hread, hr⟩ | hr
        · rw [hr, Option.bind_some, if_pos (Int.natCast_nonneg _)] at hrun
          cases hrun
          exact Or.inl ⟨rfl, f, rfl, takes_taken h hn hin hfit hread⟩
        · rw [hr, Option.bind_some, if_neg hneg] at hrun
          cases hrun
          exact Or.inr ⟨rfl, rfl⟩

/-- What the calls of `balloc` of `write_log` take. -/
structure TakesAll (sb : Balloc.Sb) (blocks : List ℕ) (sb' : Balloc.Sb) : Prop where
  nodup : blocks.Nodup
  clear : ∀ b ∈ blocks, sb.bit b = false
  bits : ∀ b, sb'.bit b = (sb.bit b || decide (b ∈ blocks))
  kept : Kept sb sb'
  small : Small sb'

theorem ballocs_takes (h : Small sb) {blocks : List ℕ}
    (hrun : ballocs sb n = some (blocks, sb')) : blocks.length = n ∧ TakesAll sb blocks sb' := by
  induction n generalizing sb blocks with
  | zero =>
      cases hrun
      exact ⟨rfl, List.nodup_nil, nofun, fun b => by simp, Kept.refl _, h⟩
  | succ n ih =>
      simp only [ballocs, Option.bind_eq_bind, Option.bind_eq_some_iff] at hrun
      obtain ⟨⟨err, block, sb₁⟩, hfirst, hrun⟩ := hrun
      rcases balloc_takes h hfirst with ⟨rfl, f, rfl, ht⟩ | ⟨rfl, -⟩
      case inr => cases hrun
      simp only [Int.lt_irrefl, if_false, Option.bind_eq_some_iff, Option.pure_def,
        Option.some.injEq, Prod.mk.injEq] at hrun
      obtain ⟨⟨rest, sb₂⟩, hrest, rfl, rfl⟩ := hrun
      obtain ⟨hlen, hall⟩ := ih ht.small hrest
      have hone : ∀ b, (f ≤ b ∧ b < f + 1) ↔ b = f := by omega
      have hf : sb₁.bit f = true := by
        rw [ht.bits, decide_eq_true ((hone f).mpr rfl), Bool.or_true]
      refine ⟨by simp [hlen], ?_, ?_, ?_, ht.kept.trans hall.kept, hall.small⟩
      · refine List.nodup_cons.mpr ⟨fun hmem => ?_, hall.nodup⟩
        rw [Int.toNat_natCast] at hmem
        rw [hall.clear f hmem] at hf
        cases hf
      · intro b hb
        cases List.mem_cons.mp hb with
        | inl heq => exact heq ▸ ht.clear f ⟨Nat.le_refl f, Nat.lt_succ_self f⟩
        | inr hb =>
            have hclear := hall.clear b hb
            rw [ht.bits] at hclear
            exact (Bool.or_eq_false_iff.mp hclear).1
      · intro b
        have hrange : decide (f ≤ b ∧ b < f + 1) = decide (b = f) := decide_eq_decide.mpr (hone b)
        rw [hall.bits, ht.bits, hrange]
        simp [Bool.or_assoc]

/-- `bfree` of an extent of the volume clears it. -/
theorem bfree_clears (h : Small sb) {e : Extent} (hin : e.block + e.count ≤ sb.volblocks)
    (hone : e.block % sb.mapsize + e.count ≤ sb.mapsize) (herr : ¬ err < 0)
    (hrun : Balloc.bfree sb e.block e.count = some (err, sb')) :
    (∀ b, sb'.bit b = (sb.bit b && !decide (e.block ≤ b ∧ b < e.block + e.count))) ∧
      Kept sb sb' ∧ Small sb' := by
  have hvol := h.volblocks
  have hcut : e.count ≠ 0 → u32 (e.block / sb.mapsize) = e.block / sb.mapsize := by
    intro hne
    exact u32_of_lt (Nat.lt_of_le_of_lt (Nat.div_le_self _ _) (by omega))
  unfold Balloc.bfree at hrun
  split at hrun
  case isTrue => cases hrun
  case isFalse hne =>
    rw [hcut hne] at hrun
    dsimp only at hrun
    split at hrun
    case isTrue =>
      cases hrun
      exact absurd (by decide) herr
    case isFalse =>
      split at hrun
      case isTrue => cases hrun
      case isFalse =>
        cases hrun
        refine ⟨fun b => ?_, ⟨rfl, rfl, rfl⟩, @Kept.small sb _ ⟨rfl, rfl, rfl⟩ h h.nextalloc⟩
        have hbit := Balloc.bit_clearBits (e.block / sb.mapsize) hone h.mapsize_le b
        rw [Nat.mul_comm, Nat.div_add_mod] at hbit
        exact hbit

theorem retire_clears (h : Small sb) {es : List Extent}
    (hin : ∀ e ∈ es, e.block + e.count ≤ sb.volblocks)
    (hone : ∀ e ∈ es, e.block % sb.mapsize + e.count ≤ sb.mapsize)
    (hrun : retire sb es = some sb') :
    (∀ b, sb'.bit b = true ↔ sb.bit b = true ∧ ∀ e ∈ es, b ∉ e.blocks) ∧ Kept sb sb' ∧
      Small sb' := by
  induction es generalizing sb with
  | nil =>
      cases hrun
      exact ⟨by simp, Kept.refl _, h⟩
  | cons e es ih =>
      simp only [retire, Option.bind_eq_bind, Option.bind_eq_some_iff] at hrun
      obtain ⟨⟨err, sb₁⟩, hfree, hrun⟩ := hrun
      split at hrun
      case isTrue => cases hrun
      case isFalse herr =>
        obtain ⟨hbits, hkept, hsmall⟩ := bfree_clears h (hin e List.mem_cons_self)
          (hone e List.mem_cons_self) herr hfree
        obtain ⟨hrest, hkept', hsmall'⟩ := ih hsmall
          (fun e' he' => hkept.volblocks ▸ hin e' (List.mem_cons_of_mem _ he'))
          (fun e' he' => hkept.mapsize ▸ hone e' (List.mem_cons_of_mem _ he')) hrun
        refine ⟨fun b => ?_, hkept.trans hkept', hsmall'⟩
        simp only [hrest, hbits, Extent.blocks, Set.mem_Ico, Bool.and_eq_true,
          Bool.not_eq_true', decide_eq_false_iff_not, List.forall_mem_cons, and_assoc]

end Allocator

/-! ## The updates of a replay -/

section Updates
variable {sb : Balloc.Sb} {u : Update}

/-- The extent of an update is in one block of the bitmap, which can be read. -/
structure Reads (sb : Balloc.Sb) (u : Update) : Prop where
  pos : 0 < u.count
  oneBlock : u.start % sb.mapsize + u.count ≤ sb.mapsize
  readable : sb.readable (u.start / sb.mapsize) = true

theorem Reads.congr {sb' : Balloc.Sb} (h : Reads sb u) (hk : Kept sb sb') : Reads sb' u := by
  refine ⟨h.pos, ?_, ?_⟩ <;> rw [hk.mapsize]
  · exact h.oneBlock
  · exact hk.readable ▸ h.readable

end Updates

/-! ## The log -/

section Logged
variable {v v' : Volume} {old new : List ℕ}

/-- Where `write_log` puts its blocks: an injective continuation of a list. -/
def placed (blocks : List ℕ) (i : ℕ) : ℕ := blocks[i]?.getD (blocks.sum + 1 + i)

theorem placed_injective (h : old.Nodup) : Function.Injective (placed old) := by
  have hle : ∀ b ∈ old, b ≤ old.sum := fun b hb => List.le_sum_of_mem hb
  intro i j hij
  unfold placed at hij
  by_cases hi : i < old.length <;> by_cases hj : j < old.length
  · rw [List.getElem?_eq_getElem hi, List.getElem?_eq_getElem hj] at hij
    exact (List.Nodup.getElem_inj_iff h).mp hij
  · rw [List.getElem?_eq_getElem hi, List.getElem?_eq_none (Nat.le_of_not_lt hj)] at hij
    have := hle _ (List.getElem_mem hi)
    simp only [Option.getD_some, Option.getD_none] at hij
    omega
  · rw [List.getElem?_eq_getElem hj, List.getElem?_eq_none (Nat.le_of_not_lt hi)] at hij
    have := hle _ (List.getElem_mem hj)
    simp only [Option.getD_some, Option.getD_none] at hij
    omega
  · rw [List.getElem?_eq_none (Nat.le_of_not_lt hi), List.getElem?_eq_none (Nat.le_of_not_lt hj)] at hij
    simp only [Option.getD_none] at hij
    omega

theorem placed_append (i : ℕ) (hi : i < old.length) : placed (old ++ new) i = placed old i := by
  rw [placed, placed, List.getElem?_append_left hi, List.getElem?_eq_getElem hi]
  rfl

theorem placed_new : (List.range' old.length new.length).map (placed (old ++ new)) = new := by
  apply List.ext_getElem
  · simp
  · intro i h1 h2
    simp [placed, h2]

/-- The log is that of a session, with its blocks where `new_decycle` says. -/
structure Logged (blocksize : ℕ) (blocks : List ℕ) (w : Written) : Prop where
  allocated : w.allocated = blocks.length
  inv : ∃ groups chain, Log.Inv blocksize (placed blocks) w groups chain

theorem Logged.entry {blocksize : ℕ} {w w' : Written} (h : Logged blocksize old w)
    (hbs : blocksize ≤ 2 ^ 16) {e : Entry} (hv : e.Valid) (hrun : w.entry e = some w')
    (hlt : w'.opened < 2 ^ 32) : Logged blocksize old w' := by
  obtain ⟨groups, chain, hinv⟩ := h.inv
  obtain ⟨groups', hinv'⟩ := entry_inv hinv hbs hv hrun hlt
  obtain ⟨log, -, rfl⟩ := entry_eq hrun
  exact ⟨h.allocated, groups', chain, hinv'⟩

/-- `write_log` puts every log block on the chain. -/
theorem Logged.commit {blocksize : ℕ} {w : Written} (h : Logged blocksize old w)
    (hbs : blocksize ≤ 2 ^ 16) (hnodup : (old ++ new).Nodup)
    (hlen : new.length = w.log.lognext - w.log.logthis) {out : LogSb × Disk}
    (hrun : writeLog w.log w.disk new = some out) :
    ∃ groups chain, Log.Done blocksize (placed (old ++ new))
      { w with log := out.1, disk := out.2, allocated := w.allocated + new.length } groups chain := by
  obtain ⟨groups, chain, hinv⟩ := h.inv
  have hinv' : Log.Inv blocksize (placed (old ++ new)) w groups chain :=
    { hinv with
      addrs := fun x hx => by
        obtain ⟨i, hi, hxi⟩ := hinv.addrs x hx
        exact ⟨i, hi, hxi.trans (placed_append i (h.allocated ▸ hi)).symm⟩ }
  have hcommit : w.commit (placed (old ++ new)) =
      some { w with log := out.1, disk := out.2, allocated := w.allocated + new.length } := by
    rw [Written.commit, ← hlen, h.allocated, placed_new, hrun]
    rfl
  obtain ⟨chain', hdone⟩ := commit_done hinv' hbs (placed_injective hnodup) hcommit
  exact ⟨groups, chain', hdone⟩

theorem entry_frame {e : Entry} (h : v.entry e = some v') :
    ∃ log, v.log.entry e = some log ∧ v' = { v with log := log } := by
  simp only [Volume.entry, Option.bind_eq_bind, Option.bind_eq_some_iff, Option.pure_def,
    Option.some.injEq] at h
  obtain ⟨log, hlog, rfl⟩ := h
  exact ⟨log, hlog, rfl⟩

theorem entry_marks {w w' : Written} {e : Entry} (h : w.entry e = some w') :
    w'.marks.map Mark.entry = w.marks.map Mark.entry ++ [e] := by
  obtain ⟨log, -, rfl⟩ := entry_eq h
  rw [List.map_append]
  rfl

theorem filterMap_entry {w w' : Written} {e : Entry} (h : w.entry e = some w') :
    (w'.marks.map Mark.entry).filterMap Entry.update =
      (w.marks.map Mark.entry).filterMap Entry.update ++ e.update.toList := by
  rw [entry_marks h, List.filterMap_append]
  cases e <;> rfl

/-- `force_delta`, step by step. -/
theorem forceDelta_eq (h : v.forceDelta = some v') : ∃ blocks sb₁ sb₂ log,
    ballocs v.sb (v.log.log.lognext - v.log.log.logthis) = some (blocks, sb₁) ∧
      retire sb₁ v.defree = some sb₂ ∧ writeLog v.log.log v.log.disk blocks = some log ∧
      v' = { v with
        log := { v.log with
          log := log.1
          disk := log.2
          allocated := v.log.allocated + (v.log.log.lognext - v.log.log.logthis) }
        sb := sb₂
        defree := []
        newDecycle := v.newDecycle ++ blocks } := by
  simp only [Volume.forceDelta, Option.bind_eq_bind, Option.bind_eq_some_iff, Option.pure_def,
    Option.some.injEq] at h
  obtain ⟨⟨blocks, sb₁⟩, hb, ⟨log, disk⟩, hw, sb₂, hr, rfl⟩ := h
  exact ⟨blocks, sb₁, sb₂, (log, disk), hb, hr, hw, rfl⟩

end Logged

end Tux3.Recovery
