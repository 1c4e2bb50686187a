import Tux3.Balloc
import Tux3.Log

/-!
# Replay

`replay` of `kernel/replay.c`: the log chain is loaded backwards from the superblock,
then its bytes are walked twice. The walks return what they decode, so that what
they do can be compared with what was written.
-/
namespace Tux3.Log

/-- The bytes of an entry, its type code included. -/
def logsize : Code → ℕ
  | .balloc => 8
  | .bfree => 8
  | .bfreeOnRollup => 8
  | .leafRedirect => 13
  | .bnodeRedirect => 13
  | .bnodeRoot => 26
  | .bnodeSplit => 15
  | .bnodeAdd => 19
  | .bnodeUpdate => 19

/-- The code a byte stands for in the `switch` statements. -/
def Code.ofByte (code : Byte) : Option Code :=
  [Code.balloc, .bfree, .bfreeOnRollup, .leafRedirect, .bnodeRedirect, .bnodeRoot, .bnodeSplit,
    .bnodeAdd, .bnodeUpdate].find? (·.byte = code)

/-- An entry found by a walk: its log block and offset, its code and the fields decoded. -/
structure Seen where
  block : ℕ
  pos : ℕ
  code : Code
  fields : List ℕ
  deriving DecidableEq, Repr

/-- A call of `update_bitmap`. -/
structure Update where
  start : ℕ
  count : ℕ
  set : Bool
  deriving DecidableEq, Repr

/-- The `switch` of a walk: the fields decoded after the code and the offset of the next
entry, or `none` for `goto unknown`. -/
abbrev Switch := Code → Bytes → ℕ → Option (List ℕ × ℕ)

def firstSwitch : Switch := fun code data pos =>
  match code with
  | .bnodeAdd | .bnodeUpdate =>
      some ([decode48 data pos, decode48 data (pos + 6), decode48 data (pos + 12)], pos + 18)
  | .balloc | .bfree | .bfreeOnRollup => some ([], pos + (logsize code - 1))
  | .leafRedirect | .bnodeRedirect | .bnodeRoot | .bnodeSplit => none

def secondSwitch : Switch := fun code data pos =>
  match code with
  | .balloc | .bfree | .bfreeOnRollup =>
      some ([(data pos).toNat, decode48 data (pos + 1)], pos + 7)
  | .leafRedirect | .bnodeRedirect | .bnodeRoot | .bnodeSplit | .bnodeAdd | .bnodeUpdate =>
      some ([], pos + (logsize code - 1))

/-- The `while` loop over one log block. Each turn moves forward, so `log.bytes` turns
are enough; the flag is false after `goto unknown`. -/
def walkBlock (switch : Switch) (log : LogBlock) (block : ℕ) : ℕ → ℕ → List Seen × Bool
  | 0, _ => ([], true)
  | fuel + 1, pos =>
      if pos < log.bytes then
        match (do
          let code ← Code.ofByte (log.data pos)
          let (fields, next) ← switch code log.data (pos + 1)
          return (code, fields, next)) with
        | some (code, fields, next) =>
            let (seen, ok) := walkBlock switch log block fuel next
            (⟨block, pos, code, fields⟩ :: seen, ok)
        | none => ([], false)
      else ([], true)

/-- The `for` loop over the log blocks, `n` of them left. -/
def walk (switch : Switch) (logmap : ℕ → LogBlock) : ℕ → ℕ → List Seen × Bool
  | 0, _ => ([], true)
  | n + 1, lognext =>
      let log := logmap lognext
      match walkBlock switch log lognext log.bytes 0 with
      | (seen, false) => (seen, false)
      | (seen, true) =>
          let (rest, ok) := walk switch logmap n (lognext + 1)
          (seen ++ rest, ok)

/-- The call the second walk makes for an entry. -/
def Seen.update (seen : Seen) : Option Update :=
  match seen.code, seen.fields with
  | .balloc, [count, block] => some ⟨block, count, true⟩
  | .bfree, [count, block] => some ⟨block, count, false⟩
  | .bfreeOnRollup, [count, block] => some ⟨block, count, false⟩
  | _, _ => none

/-- `update_bitmap(sb, block, count, set)`; its error is only printed. -/
def Update.apply (sb : Balloc.Sb) (u : Update) : Balloc.Sb :=
  (Balloc.updateBitmap sb u.start u.count u.set).2

/-- The first loop: log blocks `i - 1` down to 0 are read along the chain. -/
def loadLog (disk : Disk) : ℕ → ℕ → (ℕ → LogBlock) → Except ℤ (ℕ → LogBlock)
  | 0, _, logmap => .ok logmap
  | i + 1, logchain, logmap =>
      match disk logchain with
      | none => .error (-eio)
      | some log =>
          if log.magic = magicLog then
            loadLog disk i log.logchain (Function.update logmap i log)
          else .error (-einval)

/-- What a call of `replay` does. -/
structure Outcome where
  ret : ℤ
  first : List Seen
  second : List Seen
  updates : List Update
  sb : Balloc.Sb

/-- `int i = logcount`: how often the first loop runs. -/
def loadCount (logcount : ℕ) : ℕ := if logcount < 2 ^ 31 then logcount else 0

/-- `cached` is what the buffers of `logmap` hold when they are not read. -/
def replay (disk : Disk) (logchain logcount : ℕ) (cached : ℕ → LogBlock) (sb : Balloc.Sb) :
    Outcome :=
  match loadLog disk (loadCount logcount) logchain cached with
  | .error err => ⟨err, [], [], [], sb⟩
  | .ok logmap =>
      match walk firstSwitch logmap logcount 0 with
      | (first, false) => ⟨-einval, first, [], [], sb⟩
      | (first, true) =>
          let (second, ok) := walk secondSwitch logmap logcount 0
          let updates := second.filterMap Seen.update
          ⟨if ok then 0 else -einval, first, second, updates, updates.foldl Update.apply sb⟩

end Tux3.Log
