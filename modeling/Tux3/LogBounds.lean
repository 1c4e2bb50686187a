import Tux3.LogRoundTrip

/-!
# The log and the end of its block

How many bytes each writer reserves and emits, and which calls run over the end of the log block.
-/
namespace Tux3.Log

open Segment

/-- The number in the call of `log_begin`. -/
def Entry.reserved : Entry → ℕ
  | .balloc .. | .bfree .. | .bfreeOnRollup .. => 8
  | .leafRedirect .. | .bnodeRedirect .. => 13
  | .bnodeRoot .. => 26
  | .bnodeSplit .. => 15
  | .bnodeAdd .. | .bnodeUpdate .. => 19

/-- The bytes from the place that `log_begin` returns to the one that `log_end` gets. -/
def Entry.emitted (e : Entry) (log log' : LogSb) : ℕ :=
  log'.logpos - ((logBegin log e.reserved).map LogSb.logpos).getD 0

def Entry.IsSplit : Entry → Prop
  | .bnodeSplit .. => True
  | _ => False

/-- A split with 15 or 16 bytes left. -/
def Tight (log : LogSb) (e : Entry) : Prop :=
  e.IsSplit ∧ log.logpos + 15 ≤ log.logtop ∧ log.logtop < log.logpos + 17

/-- No log block is open. -/
def LogSb.Closed (log : LogSb) : Prop := log.logbuf = none ∧ log.logpos = 0 ∧ log.logtop = 0

/-- The pointers are in the open block, and no byte behind any log block has changed. -/
structure Within (start log : LogSb) : Prop where
  blocksize : log.blocksize = start.blocksize
  pos : log.logpos ≤ log.logtop
  top : log.Closed ∨ (∃ index, log.logbuf = some index) ∧ log.logtop = start.blocksize - headerSize
  behind : ∀ index p, start.blocksize - headerSize ≤ p →
    (log.logmap index).data p = (start.logmap index).data p

/-- Calls of the writers, none of them tight, and of `log_finish`. -/
inductive Calls (start : LogSb) : LogSb → Prop where
  | start : Calls start start
  | call {log log' : LogSb} (prev : Calls start log) (e : Entry) (room : ¬ Tight log e)
      (run : e.log log = some log') : Calls start log'
  | finish {log log' : LogSb} (prev : Calls start log) (run : logFinish log = some log') :
      Calls start log'

section
variable {start log log' log₁ : LogSb} {e : Entry}

theorem reserved_eq (e : Entry) : e.reserved = logsize e.code := by
  cases e <;> rfl

theorem encode_length_split (hs : e.IsSplit) : e.encode.length = 17 ∧ e.reserved = 15 := by
  cases e <;> first | exact ⟨rfl, rfl⟩ | exact False.elim hs

theorem encode_length_reserved (hs : ¬ e.IsSplit) : e.encode.length = e.reserved := by
  cases e <;> first | rfl | exact absurd trivial hs

theorem reserved_pos (e : Entry) : 0 < e.reserved ∧ e.reserved ≤ 26 := by
  rw [reserved_eq]
  exact ⟨by cases e.code <;> decide, logsize_le _⟩

theorem Within.refl (h : start.Closed) : Within start start :=
  ⟨rfl, Nat.le_of_eq (h.2.1.trans h.2.2.symm), Or.inl h, fun _ _ _ => rfl⟩

/-! ## The steps of a call -/

/-- What `log_finish` writes to the open block. -/
def LogBlock.finished (block : LogBlock) (logpos logtop : ℕ) : LogBlock :=
  { block with
    bytes := logpos % 2 ^ 16
    data := memset block.data logpos 0#8 (logtop - logpos) }

theorem logFinish_open {index : ℕ} (hopen : log.logbuf = some index)
    (hpos : log.logpos ≤ log.logtop) : logFinish log = some (logDrop { log with
      logmap := Function.update log.logmap index
        ((log.logmap index).finished log.logpos log.logtop) }) := by
  rw [logFinish, hopen]
  exact if_neg (Nat.not_lt.mpr hpos)

theorem logBegin_full {n : ℕ} (hfull : log.logtop < log.logpos + n)
    (hfin : logFinish log = some log₁) : logBegin log n = some { logNext log₁ with
      logmap := Function.update log₁.logmap log₁.lognext
        { log₁.logmap log₁.lognext with magic := magicLog, bytes := 0, logchain := 0 } } := by
  rw [logBegin, if_pos hfull, hfin]
  rfl

theorem Within.logFinish (h : Within start log) :
    ∃ log', logFinish log = some log' ∧ Within start log' ∧ log'.Closed ∧
      log'.lognext = log.lognext ∧ ∀ i, log.logbuf ≠ some i → log'.logmap i = log.logmap i := by
  have hpos := h.pos
  rcases h.top with hclosed | ⟨⟨index, hopen⟩, htop⟩
  · exact ⟨log, by rw [Log.logFinish, hclosed.1], h, hclosed, rfl, fun _ _ => rfl⟩
  · refine ⟨_, logFinish_open hopen hpos, ⟨h.blocksize, Nat.le_refl 0, Or.inl ⟨rfl, rfl, rfl⟩,
      fun i p hp => ?_⟩, ⟨rfl, rfl, rfl⟩, rfl, fun i hi => ?_⟩
    · rw [← h.behind i p hp, logDrop]
      dsimp only
      by_cases hi : i = index
      · -- the rest of the block is cleared up to its end
        rw [hi, Function.update_self]
        exact if_neg (by omega)
      · rw [Function.update_of_ne hi]
    · rw [logDrop]
      exact Function.update_of_ne (fun heq => hi (hopen.trans (congrArg some heq.symm))) _ _

theorem Within.logBegin (h : Within start log) {n : ℕ} (hpos : 0 < n) :
    ∃ log₁ index, logBegin log n = some log₁ ∧ log₁.logbuf = some index ∧
      log₁.logtop = start.blocksize - headerSize ∧ log₁.blocksize = start.blocksize ∧
      (∀ i p, start.blocksize - headerSize ≤ p →
        (log₁.logmap i).data p = (start.logmap i).data p) ∧
      (log₁.logpos = log.logpos ∧ log₁.logtop = log.logtop ∧ log.logpos + n ≤ log.logtop ∨
        log.logtop < log.logpos + n ∧ log₁.logpos = 0) ∧
      ∀ i, log.logbuf ≠ some i → log₁.logbuf ≠ some i → log₁.logmap i = log.logmap i := by
  by_cases hfull : log.logtop < log.logpos + n
  · obtain ⟨log', hfin, hin, -, -, hsame⟩ := h.logFinish
    refine ⟨_, log'.lognext, logBegin_full hfull hfin, rfl, ?_, hin.blocksize, fun i p hp => ?_,
      Or.inr ⟨hfull, rfl⟩, fun i hi hi' => ?_⟩
    · change log'.blocksize - headerSize = _
      rw [hin.blocksize]
    · rw [← hin.behind i p hp, logNext]
      dsimp only
      by_cases hi : i = log'.lognext
      · rw [hi, Function.update_self]
      · rw [Function.update_of_ne hi]
    · rw [← hsame i hi]
      exact Function.update_of_ne (fun heq => hi' (congrArg some heq.symm)) _ _
  · rcases h.top with hclosed | ⟨⟨index, hopen⟩, htop⟩
    · obtain ⟨-, hzero, hzero'⟩ := hclosed
      omega
    · exact ⟨log, index, by rw [Log.logBegin, if_neg hfull], hopen, htop, h.blocksize, h.behind,
        Or.inl ⟨rfl, rfl, by omega⟩, fun _ _ _ => rfl⟩

/-- One call: it stays in the block unless it is tight. -/
theorem Within.call (hbs : 42 ≤ start.blocksize) (h : Within start log) (ha : e.Asserted) :
    ∃ log', e.log log = some log' ∧ e.emitted log log' = e.encode.length ∧
      (Within start log' ↔ ¬ Tight log e) ∧
      ∀ i, log.logbuf ≠ some i → log'.logbuf ≠ some i → log'.logmap i = log.logmap i := by
  obtain ⟨hres, hres'⟩ := reserved_pos e
  obtain ⟨log₁, index, hbegin, hopen, htop, hsize, hbehind, hplace, hsame⟩ := h.logBegin hres
  have hrun : e.log log = some { log₁ with
      logmap := Function.update log₁.logmap index { log₁.logmap index with
        data := put (log₁.logmap index).data log₁.logpos e.encode }
      logpos := log₁.logpos + e.encode.length } := by
    rw [log_eq ha, ← reserved_eq, hbegin, Option.bind_some, logEnd_eq hopen]
  have hheader : headerSize = 16 := rfl
  refine ⟨_, hrun, ?_, ⟨fun hin htight => ?_, fun hroom => ⟨hsize, ?_, Or.inr ⟨⟨index, hopen⟩, htop⟩,
    fun i p hp => ?_⟩⟩, fun i hi hi' => ?_⟩
  · rw [Entry.emitted, hbegin]
    exact Nat.add_sub_cancel_left _ _
  · obtain ⟨hsplit, h15, h17⟩ := htight
    obtain ⟨hlen, hfifteen⟩ := encode_length_split hsplit
    have hpos := hin.pos
    dsimp only at hpos
    omega
  · dsimp only
    by_cases hs : e.IsSplit
    · obtain ⟨hlen, hfifteen⟩ := encode_length_split hs
      have hnot : ¬ (log.logpos + 15 ≤ log.logtop ∧ log.logtop < log.logpos + 17) :=
        fun hand => hroom ⟨hs, hand⟩
      omega
    · have hlen := encode_length_reserved hs
      omega
  · rw [← hbehind i p hp]
    dsimp only
    by_cases hi : i = index
    · rw [hi, Function.update_self]
      refine put_of_ge ?_
      by_cases hs : e.IsSplit
      · obtain ⟨hlen, hfifteen⟩ := encode_length_split hs
        have hnot : ¬ (log.logpos + 15 ≤ log.logtop ∧ log.logtop < log.logpos + 17) :=
          fun hand => hroom ⟨hs, hand⟩
        omega
      · have hlen := encode_length_reserved hs
        omega
    · rw [Function.update_of_ne hi]
  · rw [← hsame i hi hi']
    exact Function.update_of_ne (fun heq => hi' (hopen.trans (congrArg some heq.symm))) _ _

/-! ## Runs -/

theorem logExtent_asserted {intent : Code} {block count : ℕ}
    (h : logExtent log intent block count = some log') : count < 256 := by
  by_contra hge
  rw [logExtent, if_neg hge] at h
  cases h

theorem log_asserted (h : e.log log = some log') : e.Asserted := by
  cases e with
  | balloc block count => exact logExtent_asserted h
  | bfree block count => exact logExtent_asserted h
  | bfreeOnRollup block count => exact logExtent_asserted h
  | bnodeRoot root count left right rkey =>
      by_contra hcount
      have hcount' : ¬ (count = 1 ∨ count = 2) := hcount
      simp only [Entry.log, logBnodeRoot, if_neg hcount', Option.bind_eq_bind,
        Option.bind_eq_some_iff, reduceCtorEq, and_false, exists_false] at h
  | leafRedirect oldblock newblock => trivial
  | bnodeRedirect oldblock newblock => trivial
  | bnodeSplit src pos dest => trivial
  | bnodeAdd parent child key => trivial
  | bnodeUpdate parent child key => trivial

theorem Calls.within (hbs : 256 ≤ start.blocksize) (hclosed : start.Closed) (h : Calls start log) :
    Within start log := by
  induction h with
  | start => exact Within.refl hclosed
  | call prev e room run ih =>
      obtain ⟨log', hrun, -, hin, -⟩ := ih.call (Nat.le_trans (by decide) hbs) (log_asserted run)
      obtain rfl := Option.some.inj (hrun.symm.trans run)
      exact hin.mpr room
  | finish prev run ih =>
      obtain ⟨log', hrun, hin, -⟩ := ih.logFinish
      obtain rfl := Option.some.inj (hrun.symm.trans run)
      exact hin

/-- In a run without tight calls the log stays in its block. A call there succeeds, emits what it
reserves unless it is a split, leaves the other blocks alone, and runs over the end of its block
exactly when it is tight. -/
theorem calls_within (hbs : 256 ≤ start.blocksize) (hclosed : start.Closed) (h : Calls start log) :
    Within start log ∧ ∀ e : Entry, e.Asserted → ∃ log', e.log log = some log' ∧
      (e.emitted log log' ≤ e.reserved ↔ ¬ e.IsSplit) ∧
      (Within start log' ↔ ¬ Tight log e) ∧
      ∀ i, log.logbuf ≠ some i → log'.logbuf ≠ some i → log'.logmap i = log.logmap i := by
  have hin := h.within hbs hclosed
  refine ⟨hin, fun e ha => ?_⟩
  obtain ⟨log', hrun, hemit, hwithin, hsame⟩ := hin.call (Nat.le_trans (by decide) hbs) ha
  refine ⟨log', hrun, ?_, hwithin, hsame⟩
  rw [hemit]
  constructor
  · intro hle hs
    obtain ⟨hlen, hfifteen⟩ := encode_length_split hs
    omega
  · intro hs
    exact Nat.le_of_eq (encode_length_reserved hs)

end

/-- The log at mount. -/
def emptyLog (blocksize : ℕ) : LogSb where
  blocksize := blocksize
  logmap := fun _ => ⟨0, 0, 0, fun _ => 0⟩
  logchain := 0
  logbase := 0
  nextLogbase := 0
  logthis := 0
  lognext := 0
  logbuf := none
  logpos := 0
  logtop := 0

/-- A split behind an extent in an open block: it emits more than it reserves, and stays inside. -/
theorem calls_within_open : ∃ log log', (Entry.balloc 1 1).log (emptyLog 256) = some log ∧
    log.logbuf ≠ none ∧ Within (emptyLog 256) log ∧
    (Entry.bnodeSplit 1 2 3).log log = some log' ∧ Within (emptyLog 256) log' ∧
    (Entry.bnodeSplit 1 2 3).reserved < (Entry.bnodeSplit 1 2 3).emitted log log' := by
  obtain ⟨log, hlog, hopen, htight⟩ : ∃ log, (Entry.balloc 1 1).log (emptyLog 256) = some log ∧
      log.logbuf ≠ none ∧ ¬ Tight log (.bnodeSplit 1 2 3) := by
    refine ⟨_, rfl, Option.some_ne_none _, fun htight => absurd htight.2.2 (by decide)⟩
  have hcalls := Calls.start.call (.balloc 1 1) (fun htight => htight.1) hlog
  obtain ⟨hin, hall⟩ := calls_within (by decide) ⟨rfl, rfl, rfl⟩ hcalls
  obtain ⟨log', hrun, hemit, hwithin, -⟩ :=
    hall (.bnodeSplit 1 2 3) trivial
  exact ⟨log, log', hlog, hopen, hin, hrun, hwithin.mpr htight,
    Nat.lt_of_not_le fun hle => hemit.mp hle trivial⟩

/-- The calls one after the other. -/
def logAll : LogSb → List Entry → Option LogSb
  | log, [] => some log
  | log, e :: es => (e.log log).bind fun log => logAll log es

/-- After 28 extents there are 16 bytes left in a block of 256, and a split emits 17. -/
theorem split_overruns : ∃ log log',
    logAll (emptyLog 256) (List.replicate 28 (.balloc 1 1)) = some log ∧
    (Entry.bnodeSplit 1 2 3).log log = some log' ∧ log'.logtop < log'.logpos ∧
    (Entry.bnodeSplit 1 2 3).reserved < (Entry.bnodeSplit 1 2 3).emitted log log' ∧
    (log'.logmap 0).data (256 - headerSize) ≠ (log.logmap 0).data (256 - headerSize) ∧
    logFinish log' = none :=
  ⟨_, _, rfl, rfl, by decide, by decide, by decide, rfl⟩

end Tux3.Log
