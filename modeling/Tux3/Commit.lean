import Tux3.LogReplay
import Tux3.Stash

/-!
# Delta commits

The deferred-free and commit functions of `kernel/commit.c` and `map_bfree` of
`kernel/filemap.c`, over an allocation map with one bit per block. I/O and page allocation
succeed; a result `none` is a failed `assert`, a call of `error` or a request the
allocation map cannot meet.
-/
namespace Tux3.Commit

open Log

/-- A value in a stash. The source has only `val`; `id` says which call of `defer_bfree` it
comes from. -/
structure Deferred where
  val : ℕ
  id : ℕ
  deriving DecidableEq, Repr

/-- `val & ~(-1ULL << 48)`. -/
def Deferred.block (d : Deferred) : ℕ := d.val % 2 ^ 48

/-- `val >> 48`. -/
def Deferred.count (d : Deferred) : ℕ := d.val / 2 ^ 48

/-- The stash an extent is deferred on. -/
inductive Kind where
  | defree
  | derollup
  | newDecycle
  deriving DecidableEq, Repr

/-- What a history records: calls of `defer_bfree`, the start of a rollup, `save_sb`, calls of
`bfree` from the stash, and the end of a commit. -/
inductive Event where
  | defer (kind : Kind) (id block count : ℕ)
  | rollup
  | save
  | bfree (id block count : ℕ)
  | done
  deriving DecidableEq, Repr

/-- The log fields of `struct disksuper`. -/
structure Super where
  logchain : ℕ
  logcount : ℕ
  nextLogcount : ℕ

/-- The fields of `struct sb` that a commit works on. The last four are history: which log
block each physical block holds since it was allocated, the number of log blocks since mount,
the log at the last `save_sb`, and the events. -/
structure Sb where
  log : LogSb
  disk : Disk
  volblocks : ℕ
  bitmap : ℕ → Bool
  defree : Stash Deferred
  derollup : Stash Deferred
  decycle : Stash Deferred
  newDecycle : Stash Deferred
  super : Super
  delta : ℕ
  rollup : ℕ
  owner : ℕ → Option ℕ
  opened : ℕ
  saved : LogSb
  trace : List Event

def Sb.record (sb : Sb) (event : Event) : Sb := { sb with trace := sb.trace ++ [event] }

def Sb.setLog (sb : Sb) (log : LogSb) : Sb :=
  { sb with
    log := log
    opened := if log.lognext = sb.log.lognext then sb.opened else sb.opened + 1 }

/-! ## The allocation map -/

/-- Give blocks to an owner, or to none. -/
def Sb.mark (sb : Sb) (block count : ℕ) (set : Bool) (owner : Option ℕ) : Sb :=
  { sb with
    bitmap := fun b => if block ≤ b ∧ b < block + count then set else sb.bitmap b
    owner := fun b => if block ≤ b ∧ b < block + count then owner else sb.owner b }

/-- `balloc` returns free blocks of the volume. -/
def Sb.balloc (sb : Sb) (block count : ℕ) (owner : Option ℕ) : Option Sb :=
  if block + count ≤ sb.volblocks ∧ (List.range' block count).all (fun b => !sb.bitmap b) then
    some (sb.mark block count true owner)
  else none

/-- `bfree` ends the program on a double free. -/
def Sb.bfree (sb : Sb) (block count : ℕ) : Option Sb :=
  if (List.range' block count).all sb.bitmap then some (sb.mark block count false none) else none

/-! ## Deferred frees -/

def deferBfree (sb : Sb) (kind : Kind) (block count : ℕ) : Sb :=
  let id := sb.trace.length
  let value : Deferred := ⟨(count * 2 ^ 48 + block) % 2 ^ 64, id⟩
  let sb := sb.record (.defer kind id block count)
  match kind with
  | .defree => { sb with defree := stashValue sb.defree value }
  | .derollup => { sb with derollup := stashValue sb.derollup value }
  | .newDecycle => { sb with newDecycle := stashValue sb.newDecycle value }

/-- `inode == sb->bitmap` is the flag `isBitmap`. -/
def mapBfree (sb : Sb) (isBitmap : Bool) (block count : ℕ) : Option Sb :=
  if isBitmap then do
    let log ← logBfreeOnRollup sb.log block count
    return deferBfree (sb.setLog log) .derollup block count
  else do
    let log ← logBfree sb.log block count
    return deferBfree (sb.setLog log) .defree block count

def moveDeferred (sb : Sb) (val : Deferred) : Option (ℤ × Sb) :=
  some (0, { sb with defree := stashValue sb.defree val })

def defreeLogblocks (sb : Sb) (val : Deferred) : Option (ℤ × Sb) := do
  let log ← logBfree sb.log val.block val.count
  moveDeferred (sb.setLog log) val

def retireBfree (sb : Sb) (val : Deferred) : Option (ℤ × Sb) := do
  let sb ← sb.bfree val.block val.count
  return (0, sb.record (.bfree val.id val.block val.count))

/-! ## A commit -/

def newCycleLog (sb : Sb) : Option Sb :=
  if sb.log.logbuf = none then do
    let sb := { sb with
      log := { sb.log with logbase := sb.log.nextLogbase, nextLogbase := sb.log.lognext } }
    let (_, decycle, sb) ← unstash defreeLogblocks sb.decycle sb
    return { sb with decycle := sb.newDecycle, newDecycle := decycle }
  else none

/-- `rollup_log` up to the flush of the bnodes and of the bitmap. -/
def startRollup (sb : Sb) : Option Sb := do
  let sb := { sb with rollup := sb.rollup + 1 }.record .rollup
  let sb ← newCycleLog sb
  let (_, derollup, sb) ← unstash moveDeferred sb.derollup sb
  return { sb with derollup := derollup }

/-- The loop of `write_log`, when `balloc` returns `blocks`. -/
def writeBlocks (sb : Sb) (index : ℕ) : List ℕ → Option Sb
  | [] =>
      if index < sb.log.lognext then none
      else some { sb with log := { sb.log with logthis := sb.log.lognext } }
  | block :: blocks =>
      if index < sb.log.lognext then do
        let sb ← sb.balloc block 1 (some index)
        let (log, disk) ← Log.writeBlock sb.log sb.disk index block
        let sb := deferBfree { sb with log := log, disk := disk } .newDecycle block 1
        writeBlocks sb (index + 1) blocks
      else none

def writeLog (sb : Sb) (blocks : List ℕ) : Option Sb := do
  let log ← logFinish sb.log
  writeBlocks { sb with log := log } log.logthis blocks

def saveSb (sb : Sb) : Sb :=
  { sb with
    super :=
      { logchain := sb.log.logchain
        logcount := u32 (2 ^ 32 + sb.log.lognext - sb.log.logbase)
        nextLogcount := u32 (2 ^ 32 + sb.log.lognext - sb.log.nextLogbase) }
    saved := sb.log }.record .save

def commitDelta (sb : Sb) : Option Sb := do
  let sb := saveSb sb
  let (_, defree, sb) ← unstash retireBfree sb.defree sb
  return { sb with defree := defree }.record .done

/-- What is done to the allocation map and the log between the steps of a commit: by the front
end, and by the flushes of bnodes, bitmap blocks and leaves. -/
inductive Op where
  | balloc (block count : ℕ)
  | bfree (block count : ℕ)
  | log (entry : Entry)
  | mapBfree (isBitmap : Bool) (block count : ℕ)
  deriving DecidableEq, Repr

def Op.run (sb : Sb) : Op → Option Sb
  | .balloc block count => sb.balloc block count none
  | .bfree block count => sb.bfree block count
  | .log entry => (entry.log sb.log).map sb.setLog
  | .mapBfree isBitmap block count => Commit.mapBfree sb isBitmap block count

def runOps (sb : Sb) : List Op → Option Sb
  | [] => some sb
  | op :: ops => do runOps (← op.run sb) ops

/-- The flushes of bnodes and of the bitmap make the operations `flush`. -/
def rollupLog (sb : Sb) (flush : List Op) : Option Sb := do
  let sb ← startRollup sb
  runOps sb flush

/-- `rollup` holds the operations of the flushes in `rollup_log` when there is a rollup, `stage`
those of `stage_delta`. -/
def doCommit (sb : Sb) (rollup : Option (List Op)) (stage : List Op) (blocks : List ℕ) :
    Option Sb := do
  let sb := { sb with delta := sb.delta + 1 }
  let sb ← rollup.elim (some sb) (rollupLog sb)
  let sb ← runOps sb stage
  let sb ← writeLog sb blocks
  commitDelta sb

/-! ## Runs -/

/-- Where a run is: between commits or before `write_log`, or between `write_log` and
`commit_delta`. A commit has at most one rollup, before its other steps. -/
inductive Phase where
  | idle
  | rolled
  | written
  deriving DecidableEq, Repr

/-- The states of all runs from a mount, with the operations `ok` allows. -/
inductive Reachable (ok : Sb → Op → Prop) (start : Sb) : Phase → Sb → Prop where
  | mount : Reachable ok start .idle start
  | op {phase : Phase} {sb sb' : Sb} (prev : Reachable ok start phase sb) (op : Op)
      (early : phase ≠ .written) (allowed : ok sb op) (run : op.run sb = some sb') :
      Reachable ok start phase sb'
  | delta {sb : Sb} (prev : Reachable ok start .idle sb) :
      Reachable ok start .idle { sb with delta := sb.delta + 1 }
  | rollup {sb sb' : Sb} (prev : Reachable ok start .idle sb) (run : startRollup sb = some sb') :
      Reachable ok start .rolled sb'
  | write {phase : Phase} {sb sb' : Sb} (prev : Reachable ok start phase sb) (blocks : List ℕ)
      (early : phase ≠ .written) (run : writeLog sb blocks = some sb') :
      Reachable ok start .written sb'
  | commit {sb sb' : Sb} (prev : Reachable ok start .written sb) (run : commitDelta sb = some sb') :
      Reachable ok start .idle sb'

/-- A list of operations, each allowed when it is run. -/
def OpsAllowed (ok : Sb → Op → Prop) : Sb → List Op → Prop
  | _, [] => True
  | sb, op :: ops => ok sb op ∧ ∀ sb', op.run sb = some sb' → OpsAllowed ok sb' ops

/-- The operations of a commit are allowed when they are run. -/
structure CommitAllowed (ok : Sb → Op → Prop) (sb : Sb) (rollup : Option (List Op))
    (stage : List Op) : Prop where
  flush : ∀ ops sb', rollup = some ops → startRollup sb = some sb' → OpsAllowed ok sb' ops
  stage : ∀ sb', rollup.elim (some sb) (rollupLog sb) = some sb' → OpsAllowed ok sb' stage

section Runs
variable {ok : Sb → Op → Prop} {start sb sb' : Sb} {phase : Phase}

theorem Reachable.runOps (h : Reachable ok start phase sb) (early : phase ≠ .written)
    {ops : List Op} (hok : OpsAllowed ok sb ops) (hrun : runOps sb ops = some sb') :
    Reachable ok start phase sb' := by
  induction ops generalizing sb with
  | nil =>
      cases hrun
      exact h
  | cons op ops ih =>
      simp only [Commit.runOps, Option.bind_eq_bind, Option.bind_eq_some_iff] at hrun
      obtain ⟨sb1, h1, hrun⟩ := hrun
      exact ih (.op h op early hok.1 h1) (hok.2 sb1 h1) hrun

/-- The steps of `do_commit` before `write_log` are steps of a run. -/
theorem Reachable.staged (h : Reachable ok start .idle sb) {rollup : Option (List Op)}
    {stage : List Op} {sb₁ : Sb}
    (hok : CommitAllowed ok { sb with delta := sb.delta + 1 } rollup stage)
    (hroll : rollup.elim (some { sb with delta := sb.delta + 1 })
      (rollupLog { sb with delta := sb.delta + 1 }) = some sb₁)
    (hstage : Commit.runOps sb₁ stage = some sb') :
    ∃ phase, phase ≠ .written ∧ Reachable ok start phase sb' := by
  have h0 : Reachable ok start .idle { sb with delta := sb.delta + 1 } := .delta h
  have hallowed := hok.stage sb₁ hroll
  cases rollup with
  | none =>
      cases hroll
      exact ⟨.idle, nofun, h0.runOps nofun hallowed hstage⟩
  | some flush =>
      simp only [Option.elim_some, rollupLog, Option.bind_eq_bind, Option.bind_eq_some_iff] at hroll
      obtain ⟨sb0, hr, hroll⟩ := hroll
      have hrolled := (Reachable.rollup h0 hr).runOps nofun (hok.flush flush sb0 rfl hr) hroll
      exact ⟨.rolled, nofun, hrolled.runOps nofun hallowed hstage⟩

theorem Reachable.doCommit (h : Reachable ok start .idle sb) {rollup : Option (List Op)}
    {stage : List Op} {blocks : List ℕ}
    (hok : CommitAllowed ok { sb with delta := sb.delta + 1 } rollup stage)
    (hrun : doCommit sb rollup stage blocks = some sb') : Reachable ok start .idle sb' := by
  simp only [Commit.doCommit, Option.bind_eq_bind, Option.bind_eq_some_iff] at hrun
  obtain ⟨sb1, h1, sb2, h2, sb3, h3, h4⟩ := hrun
  obtain ⟨phase, early, hstaged⟩ := h.staged hok h1 h2
  exact .commit (.write hstaged blocks early h3) h4

end Runs

/-- A file system as it is mounted, with nothing logged or deferred. -/
def mount (blocksize volblocks logchain : ℕ) (logmap : ℕ → LogBlock) (disk : Disk)
    (bitmap : ℕ → Bool) : Sb :=
  let log : LogSb :=
    { blocksize, logmap, logchain
      logbase := 0
      nextLogbase := 0
      logthis := 0
      lognext := 0
      logbuf := none
      logpos := 0
      logtop := 0 }
  { log, disk, volblocks, bitmap
    defree := stashInit
    derollup := stashInit
    decycle := stashInit
    newDecycle := stashInit
    super := ⟨logchain, 0, 0⟩
    delta := 0
    rollup := 0
    owner := fun _ => none
    opened := 0
    saved := log
    trace := [] }

end Tux3.Commit
