import Tux3.Codec

/-!
# The log writers

`log_next`, `log_drop`, `log_finish`, `log_begin`, `log_end` and the nine writers of
`kernel/log.c`, and the loop of `write_log` in `kernel/commit.c`. A result `none` is a
failed `assert`.
-/
namespace Tux3.Log

open Segment

/-- The type codes of log entries. -/
inductive Code where
  | balloc
  | bfree
  | bfreeOnRollup
  | leafRedirect
  | bnodeRedirect
  | bnodeRoot
  | bnodeSplit
  | bnodeAdd
  | bnodeUpdate
  deriving DecidableEq, Repr

/-- `LOG_BALLOC = 0x33` and its successors. -/
def Code.value : Code → ℕ
  | .balloc => 0x33
  | .bfree => 0x34
  | .bfreeOnRollup => 0x35
  | .leafRedirect => 0x36
  | .bnodeRedirect => 0x37
  | .bnodeRoot => 0x38
  | .bnodeSplit => 0x39
  | .bnodeAdd => 0x3a
  | .bnodeUpdate => 0x3b

def Code.byte (code : Code) : Byte := BitVec.ofNat 8 code.value

def magicLog : ℕ := 0x10ad

/-- `struct logblock`; `data` is what follows the header. -/
structure LogBlock where
  magic : ℕ
  bytes : ℕ
  logchain : ℕ
  data : Bytes

/-- `sizeof(struct logblock)`. -/
def headerSize : ℕ := 16

/-- The log fields of `struct sb`. `logpos` and `logtop` are offsets into the data of the
block `logbuf`, both 0 for the null pointers. -/
structure LogSb where
  blocksize : ℕ
  logmap : ℕ → LogBlock
  logchain : ℕ
  logbase : ℕ
  nextLogbase : ℕ
  logthis : ℕ
  lognext : ℕ
  logbuf : Option ℕ
  logpos : ℕ
  logtop : ℕ

def logNext (log : LogSb) : LogSb :=
  { log with
    logbuf := some log.lognext
    lognext := u32 (log.lognext + 1)
    logpos := 0
    logtop := log.blocksize - headerSize }

def logDrop (log : LogSb) : LogSb :=
  { log with logbuf := none, logpos := 0, logtop := 0 }

/-- `bytes` is a `be_u16`. -/
def logFinish (log : LogSb) : Option LogSb :=
  match log.logbuf with
  | none => some log
  | some index =>
      if log.logtop < log.logpos then none
      else
        let block := log.logmap index
        let block := { block with
          bytes := log.logpos % 2 ^ 16
          data := memset block.data log.logpos 0#8 (log.logtop - log.logpos) }
        some (logDrop { log with logmap := Function.update log.logmap index block })

def logBegin (log : LogSb) (bytes : ℕ) : Option LogSb :=
  if log.logtop < log.logpos + bytes then do
    let log ← logFinish log
    let index := log.lognext
    let log := logNext log
    let block := { log.logmap index with magic := magicLog, bytes := 0, logchain := 0 }
    return { log with logmap := Function.update log.logmap index block }
  else some log

/-- The stores through the pointer `log_begin` returned, up to `log_end`. -/
def logEnd (log : LogSb) (entry : List Byte) : Option LogSb := do
  let index ← log.logbuf
  let block := log.logmap index
  let block := { block with data := put block.data log.logpos entry }
  return { log with
    logmap := Function.update log.logmap index block
    logpos := log.logpos + entry.length }

def logExtent (log : LogSb) (intent : Code) (block count : ℕ) : Option LogSb :=
  if count < 256 then do
    let log ← logBegin log 8
    logEnd log (intent.byte :: BitVec.ofNat 8 count :: encode48 block)
  else none

def logBalloc (log : LogSb) (block count : ℕ) : Option LogSb := logExtent log .balloc block count

def logBfree (log : LogSb) (block count : ℕ) : Option LogSb := logExtent log .bfree block count

def logBfreeOnRollup (log : LogSb) (block count : ℕ) : Option LogSb :=
  logExtent log .bfreeOnRollup block count

def logRedirect (log : LogSb) (intent : Code) (oldblock newblock : ℕ) : Option LogSb := do
  let log ← logBegin log 13
  logEnd log (intent.byte :: encode48 oldblock ++ encode48 newblock)

def logLeafRedirect (log : LogSb) (oldblock newblock : ℕ) : Option LogSb :=
  logRedirect log .leafRedirect oldblock newblock

def logBnodeRedirect (log : LogSb) (oldblock newblock : ℕ) : Option LogSb :=
  logRedirect log .bnodeRedirect oldblock newblock

def logBnodeRoot (log : LogSb) (root count left right rkey : ℕ) : Option LogSb := do
  let log ← logBegin log 26
  if count = 1 ∨ count = 2 then
    logEnd log (Code.bnodeRoot.byte :: BitVec.ofNat 8 count ::
      encode48 root ++ encode48 left ++ encode48 right ++ encode48 rkey)
  else none

def logBnodeSplit (log : LogSb) (src pos dest : ℕ) : Option LogSb := do
  let log ← logBegin log 15
  logEnd log (Code.bnodeSplit.byte :: encode32 pos ++ encode48 src ++ encode48 dest)

def logBnodeEntry (log : LogSb) (intent : Code) (parent child key : ℕ) : Option LogSb := do
  let log ← logBegin log 19
  logEnd log (intent.byte :: encode48 parent ++ encode48 child ++ encode48 key)

def logBnodeAdd (log : LogSb) (parent child key : ℕ) : Option LogSb :=
  logBnodeEntry log .bnodeAdd parent child key

def logBnodeUpdate (log : LogSb) (parent child key : ℕ) : Option LogSb :=
  logBnodeEntry log .bnodeUpdate parent child key

/-! ## Writing the log blocks of a delta -/

/-- What is stored at each physical block, as far as it has been written. -/
abbrev Disk := ℕ → Option LogBlock

/-- One turn of the loop of `write_log`: log block `index` goes to `block`. -/
def writeBlock (log : LogSb) (disk : Disk) (index block : ℕ) : Option (LogSb × Disk) :=
  if (log.logmap index).magic = magicLog then
    let buffer := { log.logmap index with logchain := log.logchain }
    some ({ log with logmap := Function.update log.logmap index buffer, logchain := block },
      Function.update disk block (some buffer))
  else none

/-- The loop of `write_log`, when its calls of `balloc` return `blocks`. -/
def writeBlocks (log : LogSb) (disk : Disk) (index : ℕ) : List ℕ → Option (LogSb × Disk)
  | [] => if index < log.lognext then none else some ({ log with logthis := log.lognext }, disk)
  | block :: blocks =>
      if index < log.lognext then do
        let (log, disk) ← writeBlock log disk index block
        writeBlocks log disk (index + 1) blocks
      else none

def writeLog (log : LogSb) (disk : Disk) (blocks : List ℕ) : Option (LogSb × Disk) := do
  let log ← logFinish log
  writeBlocks log disk log.logthis blocks

end Tux3.Log
