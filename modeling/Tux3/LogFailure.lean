import Tux3.LogChain

/-!
# Log writes that fail

`do_commit` drops the error of `write_log` and saves the superblock all the same. The blocks are
counted up to `lognext`, but the chain goes only as far as the loop did.
-/
namespace Tux3.Commit

open Log

/-- The call that fails in a round of `write_log`. The block of a failed write holds anything. -/
inductive Fault where
  | balloc
  | blockget (block : ℕ)
  | blockio (block : ℕ) (left : Option LogBlock)

/-- The round of `write_log` that fails. -/
def failRound (sb : Sb) (index : ℕ) : Fault → Option Sb
  | .balloc => some sb
  | .blockget block => do
      let sb ← sb.balloc block 1 (some index)
      sb.bfree block 1
  | .blockio block left => do
      let sb ← sb.balloc block 1 (some index)
      let (log, _) ← Log.writeBlock sb.log sb.disk index block
      let sb := { sb with
        log := { log with logchain := sb.log.logchain }
        disk := Function.update sb.disk block left }
      sb.bfree block 1

/-- The loop of `write_log`, when the round after those for `blocks` fails. -/
def failBlocks (sb : Sb) (index : ℕ) (fault : Fault) : List ℕ → Option Sb
  | [] => if index < sb.log.lognext then failRound sb index fault else none
  | block :: blocks =>
      if index < sb.log.lognext then do
        let sb ← sb.balloc block 1 (some index)
        let (log, disk) ← Log.writeBlock sb.log sb.disk index block
        let sb := deferBfree { sb with log := log, disk := disk } .newDecycle block 1
        failBlocks sb (index + 1) fault blocks
      else none

/-- `write_log` with at most one fault, at any point. -/
def writeLogErr (sb : Sb) (blocks : List ℕ) : Option Fault → Option Sb
  | none => writeLog sb blocks
  | some fault => do
      let log ← logFinish sb.log
      failBlocks { sb with log := log } log.logthis fault blocks

/-- `do_commit` when `write_log` may fail. -/
def doCommitErr (sb : Sb) (rollup : Option (List Op)) (stage : List Op) (blocks : List ℕ)
    (fault : Option Fault) : Option Sb := do
  let sb := { sb with delta := sb.delta + 1 }
  let sb ← rollup.elim (some sb) (rollupLog sb)
  let sb ← runOps sb stage
  let sb ← writeLogErr sb blocks fault
  commitDelta sb

/-- Log blocks that have got a block are below an index. -/
def Sb.OwnersBelow (sb : Sb) (n : ℕ) : Prop := ∀ b i, sb.owner b = some i → i < n

section
variable {sb sb' : Sb} {n index : ℕ} {blocks : List ℕ} {fault : Fault}

theorem Sb.OwnersBelow.mark (h : sb.OwnersBelow n) (block count : ℕ) (set : Bool) :
    (sb.mark block count set none).OwnersBelow n := by
  intro b i hown
  change (if _ then none else sb.owner b) = some i at hown
  split at hown
  · cases hown
  · exact h b i hown

/-- The steps before `write_log` give no block to a log block and leave `logthis` alone. -/
theorem op_owners (hok : LogOk sb.log sb.opened) (hvol : sb.volblocks ≤ 2 ^ 48) {op : Op}
    (howned : op.Owned sb) (hrun : op.run sb = some sb') (hlt : sb'.opened < 2 ^ 32)
    (h : sb.OwnersBelow n) : sb'.log.logthis = sb.log.logthis ∧ sb'.OwnersBelow n := by
  cases op with
  | balloc block count =>
      simp only [Op.run, Sb.balloc] at hrun
      split at hrun
      · cases hrun
        exact ⟨rfl, h.mark block count true⟩
      · cases hrun
  | bfree block count =>
      simp only [Op.run, Sb.bfree] at hrun
      split at hrun
      · cases hrun
        exact ⟨rfl, h.mark block count false⟩
      · cases hrun
  | log entry =>
      simp only [Op.run, Option.map_eq_some_iff] at hrun
      obtain ⟨log, hlog, rfl⟩ := hrun
      exact ⟨(entry_ok hok howned hlog hlt).1.logthis, h⟩
  | mapBfree isBitmap block count =>
      obtain ⟨hpos, hle, -⟩ := howned
      have hblock : block < 2 ^ 48 := by omega
      cases isBitmap <;>
        simp only [Op.run, mapBfree, if_true, Bool.false_eq_true, if_false, Option.bind_eq_bind,
          Option.bind_eq_some_iff, Option.pure_def, Option.some.injEq] at hrun <;>
        obtain ⟨log, hlog, rfl⟩ := hrun <;>
        have hcount := logExtent_count hlog
      · have hv : (Entry.bfree block count).Valid := ⟨hblock, hcount⟩
        exact ⟨(entry_ok hok hv hlog hlt).1.logthis, h⟩
      · have hv : (Entry.bfreeOnRollup block count).Valid := ⟨hblock, hcount⟩
        exact ⟨(entry_ok hok hv hlog hlt).1.logthis, h⟩

theorem write_owners {block : ℕ} (h : sb.OwnersBelow index) (set : Bool) :
    (sb.mark block 1 set (some index)).OwnersBelow (index + 1) := by
  intro b i hown
  change (if _ then some index else sb.owner b) = some i at hown
  split at hown
  · obtain rfl := Option.some.inj hown
    exact Nat.lt_succ_self _
  · exact Nat.lt_succ_of_lt (h b i hown)

theorem writeBlocks_owners (hrun : writeBlocks sb index blocks = some sb')
    (hle : index ≤ sb.log.lognext) (h : sb.OwnersBelow index) :
    sb'.OwnersBelow sb'.log.logthis := by
  induction blocks generalizing sb index with
  | nil =>
      obtain ⟨-, rfl⟩ := writeBlocks_nil hrun
      exact fun b i hown => Nat.lt_of_lt_of_le (h b i hown) hle
  | cons block blocks ih =>
      obtain ⟨hlt, -, -, hrun⟩ := writeBlocks_cons hrun
      have hrest := ih hrun hlt (write_owners h true)
      exact hrest

theorem unmark_owners (h : sb.OwnersBelow n) (block : ℕ) (owner : Option ℕ) :
    ((sb.mark block 1 true owner).mark block 1 false none).OwnersBelow n := by
  intro b i hown
  change (if _ then none else if _ then owner else sb.owner b) = some i at hown
  split at hown
  · cases hown
  · exact h b i hown

theorem failRound_owners (hrun : failRound sb index fault = some sb') :
    (sb.OwnersBelow n → sb'.OwnersBelow n) ∧ sb'.log.lognext = sb.log.lognext ∧
      sb'.log.logbase = sb.log.logbase ∧ sb'.opened = sb.opened := by
  cases fault with
  | balloc =>
      cases hrun
      exact ⟨id, rfl, rfl, rfl⟩
  | blockget block =>
      simp only [failRound, Option.bind_eq_bind, Option.bind_eq_some_iff, Sb.balloc,
        Sb.bfree] at hrun
      obtain ⟨sb1, halloc, hfree⟩ := hrun
      split at halloc
      case isFalse => cases halloc
      cases halloc
      split at hfree
      case isFalse => cases hfree
      cases hfree
      exact ⟨fun h => unmark_owners h block (some index), rfl, rfl, rfl⟩
  | blockio block left =>
      simp only [failRound, Option.bind_eq_bind, Option.bind_eq_some_iff, Sb.balloc, Sb.bfree,
        Log.writeBlock] at hrun
      obtain ⟨sb1, halloc, ⟨log, disk⟩, hwrite, hfree⟩ := hrun
      split at halloc
      case isFalse => cases halloc
      cases halloc
      split at hwrite
      case isFalse => cases hwrite
      simp only [Option.some.injEq, Prod.mk.injEq] at hwrite
      obtain ⟨rfl, rfl⟩ := hwrite
      split at hfree
      case isFalse => cases hfree
      cases hfree
      exact ⟨fun h => unmark_owners h block (some index), rfl, rfl, rfl⟩

/-- After a failed `write_log` some log block has got no block. -/
theorem failBlocks_owners (hrun : failBlocks sb index fault blocks = some sb') :
    ∃ n, index ≤ n ∧ n < sb.log.lognext ∧ (sb.OwnersBelow index → sb'.OwnersBelow n) ∧
      sb'.log.lognext = sb.log.lognext ∧ sb'.log.logbase = sb.log.logbase ∧
      sb'.opened = sb.opened := by
  induction blocks generalizing sb index with
  | nil =>
      rw [failBlocks] at hrun
      split at hrun
      case isFalse => cases hrun
      rename_i hlt
      exact ⟨index, Nat.le_refl _, hlt, failRound_owners hrun⟩
  | cons block blocks ih =>
      rw [failBlocks] at hrun
      split at hrun
      case isFalse => cases hrun
      obtain ⟨-, -, hrun⟩ :=
        @round_wrote _ _ (fun sb => failBlocks sb (index + 1) fault blocks) _ _ hrun
      obtain ⟨n, hle, hlt, hbelow, hrest⟩ := ih hrun
      exact ⟨n, Nat.le_of_succ_le hle, hlt, fun h => hbelow (write_owners h true), hrest⟩

theorem commitDelta_owners (hrun : commitDelta sb = some sb') (h : sb.OwnersBelow n) :
    sb'.OwnersBelow n := by
  simp only [commitDelta, Option.bind_eq_bind, Option.bind_eq_some_iff, Option.pure_def,
    Option.some.injEq] at hrun
  obtain ⟨⟨err, stash', sb1⟩, hun, rfl⟩ := hrun
  obtain rfl := unstash_err (fun sb d err sb' hact => (retireBfree_ledger hact).1) hun
  have hstart : (saveSb sb).OwnersBelow n := h
  have hend : sb1.OwnersBelow n := by
    refine drain_induct (P := fun _ s => Sb.OwnersBelow s n) (unstash_ok hun).1 hstart ?_
    intro d ds s s' hbelow hact
    simp only [retireBfree, Option.bind_eq_bind, Option.bind_eq_some_iff, Option.pure_def,
      Option.some.injEq, Prod.mk.injEq, Sb.bfree] at hact
    obtain ⟨s1, hfree, -, rfl⟩ := hact
    split at hfree
    case isFalse => cases hfree
    cases hfree
    exact hbelow.mark d.block d.count false
  exact hend

theorem chain_broken (hrun : commitDelta sb = some sb') (h : sb.OwnersBelow n)
    (hn : n < sb.log.lognext) (hbase : sb.log.logbase < sb.log.lognext)
    (hlt : sb.log.lognext < 2 ^ 32) : ¬ ChainIntact sb' := by
  rintro ⟨hcount, bs, hvisits, -⟩
  have hfreed := commitDelta_freed hrun
  have hsaved : sb'.saved = sb.log := hfreed.saved
  rw [hsaved] at hcount hvisits
  have hpos : 0 < sb'.super.logcount := by
    rw [hcount, u32]
    omega
  have hown := commitDelta_owners hrun h _ _ (hvisits.newest hpos)
  unfold u32 at hown
  omega

end

section Run
variable {blocksize volblocks logchain : ℕ} {logmap : ℕ → LogBlock} {disk : Disk}
  {bitmap : ℕ → Bool} {phase : Phase} {sb sb' : Sb}

/-- In a run without faults only the log blocks that are written have blocks. -/
theorem Reachable.owners
    (h : Reachable Op.Owned (Commit.mount blocksize volblocks logchain logmap disk bitmap) phase sb)
    (hvol : volblocks ≤ 2 ^ 48) (hlt : sb.opened < 2 ^ 32) : sb.OwnersBelow sb.log.logthis := by
  induction h with
  | mount => exact nofun
  | op prev op early allowed run ih =>
      have hle := (op_opened run).1
      obtain ⟨hvol', hinv⟩ := prev.inv hvol
      obtain ⟨hok, -⟩ := hinv (Nat.lt_of_le_of_lt hle hlt)
      obtain ⟨hthis, hbelow⟩ := op_owners hok (hvol'.symm ▸ hvol) allowed run hlt
        (ih (Nat.lt_of_le_of_lt hle hlt))
      rw [hthis]
      exact hbelow
  | delta prev ih => exact ih hlt
  | rollup prev run ih =>
      obtain ⟨-, hle, hrest⟩ := startRollup_rest run
      have hlt' := Nat.lt_of_le_of_lt hle hlt
      obtain ⟨hok, -⟩ := (prev.inv hvol).2 hlt'
      have hrest := hrest hlt hok
      intro b i hown
      rw [hrest.owner] at hown
      rw [hrest.frame.logthis]
      exact ih hlt' b i hown
  | write prev blocks early run ih =>
      have hlt' := (writeLog_same run).1 ▸ hlt
      obtain ⟨hok, -⟩ := (prev.inv hvol).2 hlt'
      simp only [writeLog, Option.bind_eq_bind, Option.bind_eq_some_iff] at run
      obtain ⟨log, hfin, run⟩ := run
      obtain ⟨hframe, hnext, -⟩ := logFinish_ok hok hfin
      refine writeBlocks_owners run ?_ ?_
      · change log.logthis ≤ log.lognext
        rw [hframe.logthis, hnext]
        exact hok.this_le
      · rw [hframe.logthis]
        exact ih hlt'
  | commit prev run ih =>
      have hfreed := commitDelta_freed run
      have hopened : _ = _ := hfreed.opened
      have hlog : _ = _ := hfreed.log
      rw [hlog]
      exact commitDelta_owners run (ih (hopened ▸ hlt))

theorem Reachable.trans {ok : Sb → Op → Prop} {start mid : Sb} (h : Reachable ok start .idle mid)
    (h' : Reachable ok mid phase sb) : Reachable ok start phase sb := by
  induction h' with
  | mount => exact h
  | op prev op early allowed run ih => exact .op ih op early allowed run
  | delta prev ih => exact .delta ih
  | rollup prev run ih => exact .rollup ih run
  | write prev blocks early run ih => exact .write ih blocks early run
  | commit prev run ih => exact .commit ih run

/-- After a commit the chain of the superblock stays intact exactly when `write_log` does not
fail. -/
theorem commit_intact_iff (hvol : volblocks ≤ 2 ^ 48)
    (h : Reachable Op.Owned (Commit.mount blocksize volblocks logchain logmap disk bitmap) .idle sb)
    {rollup : Option (List Op)} {stage : List Op} {blocks : List ℕ} {fault : Option Fault}
    (hok : CommitAllowed Op.Owned { sb with delta := sb.delta + 1 } rollup stage)
    (hrun : doCommitErr sb rollup stage blocks fault = some sb') (hlt : sb'.opened < 2 ^ 32) :
    (∀ phase later, Reachable Op.Owned sb' phase later → later.opened < 2 ^ 32 →
      ChainIntact later) ↔ fault = none := by
  simp only [doCommitErr, Option.bind_eq_bind, Option.bind_eq_some_iff] at hrun
  obtain ⟨sb₁, hroll, sb₂, hstage, sb₃, hwrite, hcommit⟩ := hrun
  obtain ⟨phase, early, hstaged⟩ := h.staged hok hroll hstage
  cases fault with
  | none =>
      have hdone := (Reachable.write hstaged blocks early hwrite).commit hcommit
      exact ⟨fun _ => rfl, fun _ phase later hlater hopened =>
        (((hdone.trans hlater).inv hvol).2 hopened).2.1.intact⟩
  | some fault =>
      refine ⟨fun hintact => absurd (hintact _ _ .mount hlt) ?_, nofun⟩
      simp only [writeLogErr, Option.bind_eq_bind, Option.bind_eq_some_iff] at hwrite
      obtain ⟨log, hfin, hwrite⟩ := hwrite
      obtain ⟨n, hle, hn, hbelow, hnext₃, hbase₃, hopened₃⟩ := failBlocks_owners hwrite
      have hopened : _ = _ := (commitDelta_freed hcommit).opened
      have hlt₂ : sb₂.opened < 2 ^ 32 := (hopened.trans hopened₃) ▸ hlt
      obtain ⟨hok₂, hinv₂, -⟩ := (hstaged.inv hvol).2 hlt₂
      obtain ⟨hframe, hnext, -⟩ := logFinish_ok hok₂ hfin
      have howners := hstaged.owners hvol hlt₂
      rw [← hframe.logthis] at howners
      have hlast := hok₂.opened
      have hbase := hinv₂.length
      have hthis := hframe.logthis
      have hbase₂ := hframe.logbase
      dsimp only at hn hnext₃ hbase₃
      exact chain_broken hcommit (hbelow howners) (by omega) (by omega) (by omega)

end Run

/-! ## A fault -/

/-- One entry is logged, and the first `balloc` of `write_log` fails: the superblock counts a log
block, and where the chain starts there is none. -/
theorem commit_unreplayable : ∃ sb sb', doCommitErr sb none [] [] (some .balloc) = some sb' ∧
    Reachable Op.Owned (mount 256 64 0 (fun _ => ⟨0, 0, 0, fun _ => 0⟩) (fun _ => none)
      fun _ => false) .idle sb ∧
    sb'.super.logcount = 1 ∧ sb'.disk sb'.super.logchain = none ∧ ¬ ChainIntact sb' := by
  have h0 : Reachable Op.Owned
      (mount 256 64 0 (fun _ => ⟨0, 0, 0, fun _ => 0⟩) (fun _ => none) fun _ => false) .idle _ :=
    .mount
  have h1 := h0.op (.log (.balloc 5 1)) nofun (by unfold Op.Owned; decide) rfl
  refine ⟨_, _, rfl, h1, rfl, rfl, ?_⟩
  rintro ⟨-, bs, hvisits, -⟩
  have hown := hvisits.newest (by decide)
  cases hown

/-- One entry is logged and written to block 10. -/
theorem commit_intact_entry : ∃ sb sb',
    Reachable Op.Owned (mount 256 64 0 (fun _ => ⟨0, 0, 0, fun _ => 0⟩) (fun _ => none)
      fun _ => false) .idle sb ∧
    doCommitErr sb none [] [10] none = some sb' ∧ sb'.super.logcount = 1 ∧
    ((∀ phase later, Reachable Op.Owned sb' phase later → later.opened < 2 ^ 32 →
      ChainIntact later) ↔ (none : Option Fault) = none) := by
  have h0 : Reachable Op.Owned
      (mount 256 64 0 (fun _ => ⟨0, 0, 0, fun _ => 0⟩) (fun _ => none) fun _ => false) .idle _ :=
    .mount
  have h1 := h0.op (.log (.balloc 5 1)) nofun (by unfold Op.Owned; decide) rfl
  have hok : ∀ sb, CommitAllowed Op.Owned sb none [] := fun _ => ⟨nofun, fun _ _ => trivial⟩
  have hiff := fun sb' => @commit_intact_iff _ _ _ _ _ _ _ sb' (by decide) h1 none [] [10] none
    (hok _)
  exact ⟨_, _, h1, rfl, rfl, hiff _ rfl (by decide)⟩

end Tux3.Commit
