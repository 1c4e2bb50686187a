import Tux3.Ledger
import Tux3.LogBounds

/-!
# Deferred frees of the commit functions

The stashes of a run are a run of the ledger, so its extents have the fate the ledger
gives them.
-/
namespace Tux3.Commit

open Log

/-- The ledger a state stands for. -/
def Sb.ledger (sb : Sb) : Ledger where
  defree := sb.defree.values
  derollup := sb.derollup.values
  decycle := sb.decycle.values
  newDecycle := sb.newDecycle.values
  trace := sb.trace

/-- `map_bfree` is given a nonempty extent of the volume. -/
def Op.InVolume (sb : Sb) : Op → Prop
  | .mapBfree _ block count => 0 < count ∧ block + count ≤ sb.volblocks
  | _ => True

section Simulation
variable {sb sb' : Sb}

@[simp] theorem setLog_ledger (sb : Sb) (log : LogSb) : (sb.setLog log).ledger = sb.ledger := rfl

@[simp] theorem setLog_volblocks (sb : Sb) (log : LogSb) :
    (sb.setLog log).volblocks = sb.volblocks := rfl

theorem deferred_fields {block count : ℕ} (hb : block < 2 ^ 48) (hc : count < 2 ^ 16) (id : ℕ) :
    (⟨(count * 2 ^ 48 + block) % 2 ^ 64, id⟩ : Deferred).block = block ∧
      (⟨(count * 2 ^ 48 + block) % 2 ^ 64, id⟩ : Deferred).count = count := by
  simp only [Deferred.block, Deferred.count]
  omega

theorem deferBfree_ledger (sb : Sb) (kind : Kind) {block count : ℕ} (hb : block < 2 ^ 48)
    (hc : count < 2 ^ 16) :
    ∃ d : Deferred, d.id = sb.trace.length ∧ d.block = block ∧ d.count = count ∧
      (deferBfree sb kind block count).ledger = sb.ledger.defer kind d := by
  obtain ⟨hblock, hcount⟩ := deferred_fields hb hc sb.trace.length
  refine ⟨⟨(count * 2 ^ 48 + block) % 2 ^ 64, sb.trace.length⟩, rfl, hblock, hcount, ?_⟩
  cases kind <;>
    simp only [deferBfree, Sb.record, Sb.ledger, Ledger.defer, stashValue_values, hblock, hcount]

@[simp] theorem deferBfree_volblocks (sb : Sb) (kind : Kind) (block count : ℕ) :
    (deferBfree sb kind block count).volblocks = sb.volblocks := by
  cases kind <;> rfl

theorem logExtent_count {log log' : LogSb} {intent : Code} {block count : ℕ}
    (h : logExtent log intent block count = some log') : count < 256 := by
  by_contra hc
  rw [logExtent, if_neg hc] at h
  cases h

/-- Moving the values of a stash to `defree`, in order. -/
theorem drain_move {actor : Sb → Deferred → Option (ℤ × Sb)}
    (hactor : ∀ sb d sb', actor sb d = some (0, sb') → sb'.volblocks = sb.volblocks ∧
      sb'.ledger = { sb.ledger with defree := sb.ledger.defree ++ [d] })
    {ds : List Deferred} (h : drain actor ds sb = some (0, sb')) :
    sb'.volblocks = sb.volblocks ∧
      sb'.ledger = { sb.ledger with defree := sb.ledger.defree ++ ds } := by
  have hend := drain_induct
    (P := fun xs s => s.volblocks = sb.volblocks ∧
      { s.ledger with defree := s.ledger.defree ++ xs } =
        { sb.ledger with defree := sb.ledger.defree ++ ds })
    h ⟨rfl, rfl⟩ (by
      rintro x xs s s' ⟨hv, hl⟩ hact
      obtain ⟨hv', hl'⟩ := hactor s x s' hact
      refine ⟨hv'.trans hv, ?_⟩
      rw [hl', ← hl]
      simp only [List.append_assoc, List.singleton_append])
  simp only [List.append_nil] at hend
  exact hend

theorem moveDeferred_ledger {d : Deferred} {err : ℤ} (h : moveDeferred sb d = some (err, sb')) :
    err = 0 ∧ sb'.volblocks = sb.volblocks ∧
      sb'.ledger = { sb.ledger with defree := sb.ledger.defree ++ [d] } := by
  simp only [moveDeferred, Option.some.injEq, Prod.mk.injEq] at h
  obtain ⟨rfl, rfl⟩ := h
  exact ⟨rfl, rfl, by simp only [Sb.ledger, stashValue_values]⟩

theorem defreeLogblocks_ledger {d : Deferred} {err : ℤ}
    (h : defreeLogblocks sb d = some (err, sb')) :
    err = 0 ∧ sb'.volblocks = sb.volblocks ∧
      sb'.ledger = { sb.ledger with defree := sb.ledger.defree ++ [d] } := by
  simp only [defreeLogblocks, Option.bind_eq_bind, Option.bind_eq_some_iff] at h
  obtain ⟨log, -, h⟩ := h
  have hmove := moveDeferred_ledger h
  exact hmove

/-- `unstash` with one of the two actors. -/
theorem unstash_move {actor : Sb → Deferred → Option (ℤ × Sb)}
    (hactor : ∀ sb d err sb', actor sb d = some (err, sb') → err = 0 ∧
      sb'.volblocks = sb.volblocks ∧
      sb'.ledger = { sb.ledger with defree := sb.ledger.defree ++ [d] })
    {stash stash' : Stash Deferred} {err : ℤ}
    (h : unstash actor stash sb = some (err, stash', sb')) :
    stash'.values = [] ∧ sb'.volblocks = sb.volblocks ∧
      sb'.ledger = { sb.ledger with defree := sb.ledger.defree ++ stash.values } := by
  obtain rfl := unstash_err (fun sb d err sb' hact => (hactor sb d err sb' hact).1) h
  obtain ⟨hdrain, hempty⟩ := unstash_ok h
  exact ⟨hempty, drain_move (fun sb d sb' hact => (hactor sb d 0 sb' hact).2) hdrain⟩

theorem newCycleLog_ledger (h : newCycleLog sb = some sb') :
    sb'.volblocks = sb.volblocks ∧ sb'.ledger = { sb.ledger with
      defree := sb.ledger.defree ++ sb.ledger.decycle
      decycle := sb.ledger.newDecycle
      newDecycle := [] } := by
  rw [newCycleLog] at h
  split at h
  · simp only [Option.bind_eq_bind, Option.bind_eq_some_iff, Option.pure_def,
      Option.some.injEq] at h
    obtain ⟨⟨err, stash', sb1⟩, hun, rfl⟩ := h
    obtain ⟨hempty, hvol, hledger⟩ :=
      unstash_move (fun sb d err sb' => defreeLogblocks_ledger) hun
    refine ⟨hvol, ?_⟩
    simp only [Sb.ledger, Ledger.mk.injEq] at hledger ⊢
    exact ⟨hledger.1, hledger.2.1, hledger.2.2.2.1, hempty, hledger.2.2.2.2⟩
  · cases h

theorem startRollup_ledger (h : startRollup sb = some sb') :
    sb'.volblocks = sb.volblocks ∧ sb'.ledger = sb.ledger.rollup := by
  simp only [startRollup, Option.bind_eq_bind, Option.bind_eq_some_iff, Option.pure_def,
    Option.some.injEq] at h
  obtain ⟨sb1, hcycle, ⟨err, stash', sb2⟩, hun, rfl⟩ := h
  obtain ⟨hvol1, hledger1⟩ := newCycleLog_ledger hcycle
  obtain ⟨hempty, hvol2, hledger2⟩ := unstash_move (fun sb d err sb' => moveDeferred_ledger) hun
  refine ⟨hvol2.trans hvol1, ?_⟩
  simp only [Sb.ledger, Sb.record, Ledger.mk.injEq] at hledger1 hledger2
  obtain ⟨h1, h2, h3, h4, h5⟩ := hledger1
  obtain ⟨g1, g2, g3, g4, g5⟩ := hledger2
  simp only [Sb.ledger, Ledger.rollup, Ledger.mk.injEq]
  exact ⟨by rw [g1, h1, h2], hempty, g3.trans h3, g4.trans h4, g5.trans h5⟩

theorem retireBfree_ledger {d : Deferred} {err : ℤ} (h : retireBfree sb d = some (err, sb')) :
    err = 0 ∧ sb'.volblocks = sb.volblocks ∧
      sb'.ledger = { sb.ledger with trace := sb.ledger.trace ++ [d.event] } := by
  simp only [retireBfree, Option.bind_eq_bind, Option.bind_eq_some_iff, Option.pure_def,
    Option.some.injEq, Prod.mk.injEq, Sb.bfree] at h
  obtain ⟨sb1, hfree, rfl, rfl⟩ := h
  split at hfree
  · cases hfree
    exact ⟨rfl, rfl, rfl⟩
  · cases hfree

theorem commitDelta_ledger (h : commitDelta sb = some sb') :
    sb'.volblocks = sb.volblocks ∧ sb'.ledger = sb.ledger.commit := by
  simp only [commitDelta, Option.bind_eq_bind, Option.bind_eq_some_iff, Option.pure_def,
    Option.some.injEq] at h
  obtain ⟨⟨err, stash', sb1⟩, hun, rfl⟩ := h
  obtain rfl := unstash_err (fun sb d err sb' hact => (retireBfree_ledger hact).1) hun
  obtain ⟨hdrain, hempty⟩ := unstash_ok hun
  have hend := drain_induct
    (P := fun xs s => s.volblocks = sb.volblocks ∧
      { s.ledger with trace := s.ledger.trace ++ xs.map Deferred.event } =
        { (saveSb sb).ledger with
          trace := (saveSb sb).ledger.trace ++ sb.defree.values.map Deferred.event })
    hdrain ⟨rfl, rfl⟩ (by
      rintro x xs s s' ⟨hv, hl⟩ hact
      obtain ⟨-, hv', hl'⟩ := retireBfree_ledger hact
      refine ⟨hv'.trans hv, ?_⟩
      rw [hl', ← hl]
      simp only [List.append_assoc, List.singleton_append, List.map_cons])
  simp only [List.map_nil, List.append_nil] at hend
  obtain ⟨hvol, hledger⟩ := hend
  refine ⟨hvol, ?_⟩
  simp only [Sb.ledger, saveSb, Sb.record, Ledger.mk.injEq] at hledger
  obtain ⟨-, h2, h3, h4, h5⟩ := hledger
  simp only [Sb.ledger, Sb.record, Ledger.commit, Ledger.mk.injEq]
  refine ⟨hempty, h2, h3, h4, ?_⟩
  rw [h5]
  simp only [List.append_assoc, List.cons_append, List.nil_append]

/-- The state after log block `index` has gone to `block`, which is not yet deferred. -/
def wrote (sb : Sb) (index block : ℕ) : Sb :=
  let buffer := { sb.log.logmap index with logchain := sb.log.logchain }
  { sb.mark block 1 true (some index) with
    log := { sb.log with
      logmap := Function.update sb.log.logmap index buffer
      logchain := block }
    disk := Function.update sb.disk block (some buffer) }

/-- A round of `write_log` that succeeds. -/
theorem round_wrote {f : Sb → Option Sb} {index block : ℕ}
    (h : (do
      let sb ← sb.balloc block 1 (some index)
      let (log, disk) ← Log.writeBlock sb.log sb.disk index block
      f (deferBfree { sb with log := log, disk := disk } .newDecycle block 1)) = some sb') :
    block < sb.volblocks ∧ sb.bitmap block = false ∧
      f (deferBfree (wrote sb index block) .newDecycle block 1) = some sb' := by
  simp only [Option.bind_eq_bind, Option.bind_eq_some_iff, Sb.balloc, Log.writeBlock] at h
  obtain ⟨sb1, halloc, ⟨log, disk⟩, hwrite, h⟩ := h
  split at halloc
  case isFalse => cases halloc
  rename_i hfree
  simp only [List.range'_one, List.all_cons, List.all_nil, Bool.and_true,
    Bool.not_eq_true'] at hfree
  cases halloc
  split at hwrite
  case isFalse => cases hwrite
  cases hwrite
  exact ⟨hfree.1, hfree.2, h⟩

theorem writeBlocks_nil {index : ℕ} (h : writeBlocks sb index [] = some sb') :
    sb.log.lognext ≤ index ∧
      sb' = { sb with log := { sb.log with logthis := sb.log.lognext } } := by
  rw [writeBlocks] at h
  split at h
  · cases h
  · next hge =>
      cases h
      exact ⟨Nat.le_of_not_lt hge, rfl⟩

theorem writeBlocks_cons {index block : ℕ} {blocks : List ℕ}
    (h : writeBlocks sb index (block :: blocks) = some sb') :
    index < sb.log.lognext ∧ block < sb.volblocks ∧ sb.bitmap block = false ∧
      writeBlocks (deferBfree (wrote sb index block) .newDecycle block 1) (index + 1) blocks =
        some sb' := by
  rw [writeBlocks] at h
  split at h
  · next hlt => exact ⟨hlt, @round_wrote _ _ (fun sb => writeBlocks sb (index + 1) blocks) _ _ h⟩
  · cases h

theorem writeBlocks_ledger (hvol : sb.volblocks ≤ 2 ^ 48) (hl : sb.ledger.Reachable) {index : ℕ}
    {blocks : List ℕ} (h : writeBlocks sb index blocks = some sb') :
    sb'.volblocks = sb.volblocks ∧ sb'.ledger.Reachable := by
  induction blocks generalizing sb index with
  | nil =>
      obtain ⟨-, rfl⟩ := writeBlocks_nil h
      exact ⟨rfl, hl⟩
  | cons block blocks ih =>
      obtain ⟨-, hblock, -, h⟩ := writeBlocks_cons h
      obtain ⟨d, hid, -, -, hledger⟩ := deferBfree_ledger (wrote sb index block) .newDecycle
        (show block < 2 ^ 48 by omega) (by decide : 1 < 2 ^ 16)
      obtain ⟨hvol', hreach⟩ := ih (by rw [deferBfree_volblocks]; exact hvol)
        (by rw [hledger]; exact hl.defer _ d hid) h
      rw [deferBfree_volblocks] at hvol'
      exact ⟨hvol', hreach⟩

theorem writeLog_ledger (hvol : sb.volblocks ≤ 2 ^ 48) (hl : sb.ledger.Reachable)
    {blocks : List ℕ} (h : writeLog sb blocks = some sb') :
    sb'.volblocks = sb.volblocks ∧ sb'.ledger.Reachable := by
  simp only [writeLog, Option.bind_eq_bind, Option.bind_eq_some_iff] at h
  obtain ⟨log, -, h⟩ := h
  exact @writeBlocks_ledger { sb with log := log } sb' hvol hl log.logthis blocks h

theorem op_ledger (hvol : sb.volblocks ≤ 2 ^ 48) (hl : sb.ledger.Reachable) {op : Op}
    (hop : op.InVolume sb) (h : op.run sb = some sb') :
    sb'.volblocks = sb.volblocks ∧ sb'.ledger.Reachable := by
  cases op with
  | balloc block count =>
      simp only [Op.run, Sb.balloc] at h
      split at h
      · cases h
        exact ⟨rfl, hl⟩
      · cases h
  | bfree block count =>
      simp only [Op.run, Sb.bfree] at h
      split at h
      · cases h
        exact ⟨rfl, hl⟩
      · cases h
  | log entry =>
      simp only [Op.run, Option.map_eq_some_iff] at h
      obtain ⟨log, -, rfl⟩ := h
      exact ⟨rfl, hl⟩
  | mapBfree isBitmap block count =>
      obtain ⟨hpos, hle⟩ := hop
      have hblock : block < 2 ^ 48 := by omega
      cases isBitmap <;>
        simp only [Op.run, mapBfree, if_true, Bool.false_eq_true, if_false, Option.bind_eq_bind,
          Option.bind_eq_some_iff, Option.pure_def, Option.some.injEq] at h <;>
        obtain ⟨log, hlog, rfl⟩ := h <;>
        have hcount := logExtent_count hlog <;>
        obtain ⟨d, hid, -, -, hledger⟩ := deferBfree_ledger (sb.setLog log) _ hblock
          (Nat.lt_trans hcount (by decide)) <;>
        exact ⟨deferBfree_volblocks _ _ _ _, hledger ▸ hl.defer _ d hid⟩

end Simulation

section Run
variable {start sb : Sb} {phase : Phase}

theorem Reachable.ledger (h : Reachable Op.InVolume start phase sb)
    (hvol : start.volblocks ≤ 2 ^ 48) (hl : start.ledger.Reachable) :
    sb.volblocks = start.volblocks ∧ sb.ledger.Reachable := by
  induction h with
  | mount => exact ⟨rfl, hl⟩
  | op _ op _ allowed run ih =>
      obtain ⟨hv, hr⟩ := op_ledger (ih.1.symm ▸ hvol) ih.2 allowed run
      exact ⟨hv.trans ih.1, hr⟩
  | delta _ ih => exact ih
  | rollup _ run ih =>
      obtain ⟨hv, hr⟩ := startRollup_ledger run
      exact ⟨hv.trans ih.1, hr ▸ ih.2.rollup⟩
  | write _ blocks _ run ih =>
      obtain ⟨hv, hr⟩ := writeLog_ledger (ih.1.symm ▸ hvol) ih.2 run
      exact ⟨hv.trans ih.1, hr⟩
  | commit _ run ih =>
      obtain ⟨hv, hr⟩ := commitDelta_ledger run
      exact ⟨hv.trans ih.1, hr ▸ ih.2.commit⟩

end Run

/-! ## The start of a rollup -/

/-- What a rollup needs of the state: without an open block the log has no room, and what is in
`decycle` and `new_decycle` are single blocks, which `log_bfree` takes. -/
structure Sb.Ready (sb : Sb) (blocksize : ℕ) : Prop where
  blocksize : sb.log.blocksize = blocksize
  null : sb.log.logbuf = none → sb.log.logpos = 0 ∧ sb.log.logtop = 0
  single : ∀ d ∈ sb.decycle.values ++ sb.newDecycle.values, d.count = 1

section Ready
variable {sb sb' : Sb} {blocksize : ℕ}

theorem logFinish_closed {log log' : LogSb} (h : logFinish log = some log') :
    log'.blocksize = log.blocksize ∧ (log'.logbuf = log.logbuf ∧ log' = log ∨ log'.Closed) := by
  rw [logFinish] at h
  cases hb : log.logbuf with
  | none =>
      simp only [hb, Option.some.injEq] at h
      subst h
      exact ⟨rfl, .inl ⟨hb, rfl⟩⟩
  | some index =>
      simp only [hb] at h
      split at h
      · cases h
      · cases h
        exact ⟨rfl, .inr ⟨rfl, rfl, rfl⟩⟩

theorem log_open {log log' : LogSb} {e : Entry} (h : e.log log = some log') :
    log'.blocksize = log.blocksize ∧ log'.logbuf ≠ none := by
  rw [log_eq (log_asserted h), Option.bind_eq_some_iff] at h
  obtain ⟨log1, hbegin, hend⟩ := h
  simp only [logEnd, Option.bind_eq_bind, Option.bind_eq_some_iff, Option.pure_def,
    Option.some.injEq] at hend
  obtain ⟨index, hbuf, rfl⟩ := hend
  refine ⟨?_, by rw [hbuf]; exact Option.some_ne_none index⟩
  change log1.blocksize = log.blocksize
  rw [logBegin] at hbegin
  split at hbegin
  · simp only [Option.bind_eq_bind, Option.bind_eq_some_iff, Option.pure_def,
      Option.some.injEq] at hbegin
    obtain ⟨log2, hfin, rfl⟩ := hbegin
    exact (logFinish_closed hfin).1
  · cases hbegin
    rfl

theorem Sb.Ready.setLog (h : sb.Ready blocksize) {log : LogSb} {e : Entry}
    (hrun : e.log sb.log = some log) : (sb.setLog log).Ready blocksize :=
  ⟨(log_open hrun).1.trans h.blocksize, fun hnone => absurd hnone (log_open hrun).2, h.single⟩

theorem Sb.Ready.op (h : sb.Ready blocksize) {op : Op} (hrun : op.run sb = some sb') :
    sb'.Ready blocksize := by
  cases op with
  | balloc block count =>
      simp only [Op.run, Sb.balloc] at hrun
      split at hrun
      · cases hrun
        exact ⟨h.blocksize, h.null, h.single⟩
      · cases hrun
  | bfree block count =>
      simp only [Op.run, Sb.bfree] at hrun
      split at hrun
      · cases hrun
        exact ⟨h.blocksize, h.null, h.single⟩
      · cases hrun
  | log entry =>
      simp only [Op.run, Option.map_eq_some_iff] at hrun
      obtain ⟨log, hlog, rfl⟩ := hrun
      exact h.setLog hlog
  | mapBfree isBitmap block count =>
      cases isBitmap with
      | false =>
          simp only [Op.run, mapBfree, Bool.false_eq_true, if_false, Option.bind_eq_bind,
            Option.bind_eq_some_iff, Option.pure_def, Option.some.injEq] at hrun
          obtain ⟨log, hlog, rfl⟩ := hrun
          have hset := h.setLog (e := .bfree block count) hlog
          exact ⟨hset.blocksize, hset.null, hset.single⟩
      | true =>
          simp only [Op.run, mapBfree, if_true, Option.bind_eq_bind,
            Option.bind_eq_some_iff, Option.pure_def, Option.some.injEq] at hrun
          obtain ⟨log, hlog, rfl⟩ := hrun
          have hset := h.setLog (e := .bfreeOnRollup block count) hlog
          exact ⟨hset.blocksize, hset.null, hset.single⟩

theorem Sb.Ready.writeBlocks (h : sb.Ready blocksize) (hvol : sb.volblocks ≤ 2 ^ 48) {index : ℕ}
    {blocks : List ℕ} (hrun : Commit.writeBlocks sb index blocks = some sb') :
    sb'.Ready blocksize := by
  induction blocks generalizing sb index with
  | nil =>
      obtain ⟨-, rfl⟩ := writeBlocks_nil hrun
      exact ⟨h.blocksize, h.null, h.single⟩
  | cons block blocks ih =>
      obtain ⟨-, hblock, -, hrun⟩ := writeBlocks_cons hrun
      refine @ih (deferBfree (wrote sb index block) .newDecycle block 1)
        ⟨h.blocksize, h.null, fun d hd => ?_⟩ hvol _ hrun
      simp only [deferBfree, Sb.record, wrote, stashValue_values, ← List.append_assoc] at hd
      rcases List.mem_append.mp hd with hd | hd
      · exact h.single d hd
      · rw [List.mem_singleton.mp hd]
        exact (deferred_fields (show block < 2 ^ 48 by omega) (by decide) _).2

theorem Sb.Ready.writeLog (h : sb.Ready blocksize) (hvol : sb.volblocks ≤ 2 ^ 48)
    {blocks : List ℕ} (hrun : Commit.writeLog sb blocks = some sb') : sb'.Ready blocksize := by
  simp only [Commit.writeLog, Option.bind_eq_bind, Option.bind_eq_some_iff] at hrun
  obtain ⟨log, hfin, hrun⟩ := hrun
  refine @Sb.Ready.writeBlocks { sb with log := log } sb' blocksize ⟨?_, ?_, h.single⟩ hvol _ _ hrun
  · exact (logFinish_closed hfin).1.trans h.blocksize
  · rcases (logFinish_closed hfin).2 with ⟨-, rfl⟩ | hclosed
    · exact h.null
    · exact fun _ => hclosed.2

theorem commitDelta_log (hrun : commitDelta sb = some sb') :
    sb'.log = sb.log := by
  simp only [commitDelta, Option.bind_eq_bind, Option.bind_eq_some_iff, Option.pure_def,
    Option.some.injEq] at hrun
  obtain ⟨⟨err, stash', sb1⟩, hun, rfl⟩ := hrun
  obtain rfl := unstash_err (fun sb d err sb' hact => (retireBfree_ledger hact).1) hun
  refine drain_induct (P := fun _ s => s.log = sb.log) (unstash_ok hun).1 rfl ?_
  intro d ds s s' hs hact
  simp only [retireBfree, Option.bind_eq_bind, Option.bind_eq_some_iff, Option.pure_def,
    Option.some.injEq, Prod.mk.injEq, Sb.bfree] at hact
  obtain ⟨s1, hfree, -, rfl⟩ := hact
  split at hfree
  · cases hfree
    exact hs
  · cases hfree

theorem Sb.Ready.commitDelta (h : sb.Ready blocksize) (hrun : Commit.commitDelta sb = some sb') :
    sb'.Ready blocksize := by
  have hlog := commitDelta_log hrun
  have hledger := (commitDelta_ledger hrun).2
  refine ⟨hlog ▸ h.blocksize, hlog ▸ h.null, ?_⟩
  have h1 : sb'.decycle.values = sb.decycle.values := congrArg Ledger.decycle hledger
  have h2 : sb'.newDecycle.values = sb.newDecycle.values := congrArg Ledger.newDecycle hledger
  rw [h1, h2]
  exact h.single

theorem defreeLogblocks_some {start : LogSb} (hbs : 42 ≤ start.blocksize) {d : Deferred}
    (hd : d.count = 1) (h : Within start sb.log) :
    ∃ sb', defreeLogblocks sb d = some (0, sb') ∧ Within start sb'.log := by
  obtain ⟨log, hrun, -, hin, -⟩ :=
    h.call (e := .bfree d.block d.count) hbs (show d.count < 256 by omega)
  have hrun' : logBfree sb.log d.block d.count = some log := hrun
  refine ⟨_, by rw [defreeLogblocks, hrun']; rfl, ?_⟩
  exact hin.mpr fun htight => htight.1

theorem Sb.Ready.startRollup (h : sb.Ready blocksize) (hbs : 42 ≤ blocksize)
    (hbuf : sb.log.logbuf = none) :
    ∃ sb', Commit.startRollup sb = some sb' ∧ sb'.Ready blocksize := by
  let start : Sb := { { sb with rollup := sb.rollup + 1 }.record .rollup with
    log := { sb.log with logbase := sb.log.nextLogbase, nextLogbase := sb.log.lognext } }
  have hsize : 42 ≤ start.log.blocksize := by
    rw [← h.blocksize] at hbs
    exact hbs
  have hclosed : start.log.Closed := ⟨hbuf, h.null hbuf⟩
  obtain ⟨decycle, sb1, hdecycle, h1⟩ := @unstash_some _ _ defreeLogblocks
    (fun s => Within start.log s.log) sb.decycle start
    (fun d hd s hs => defreeLogblocks_some hsize (h.single d (List.mem_append_left _ hd)) hs)
    (Within.refl hclosed)
  obtain ⟨derollup, sb2, hderollup, h2⟩ := @unstash_some _ _ moveDeferred
    (fun s => Within start.log s.log) sb1.derollup
    { sb1 with decycle := sb1.newDecycle, newDecycle := decycle }
    (fun d _ s hs => ⟨_, rfl, hs⟩) h1
  have hrun : Commit.startRollup sb = some { sb2 with derollup := derollup } := by
    have hcycle : newCycleLog ({ sb with rollup := sb.rollup + 1 }.record .rollup) =
        some { sb1 with decycle := sb1.newDecycle, newDecycle := decycle } := by
      rw [newCycleLog]
      refine (if_pos hbuf).trans ?_
      change (unstash defreeLogblocks sb.decycle start).bind _ = _
      rw [hdecycle]
      rfl
    rw [Commit.startRollup, hcycle]
    change (unstash moveDeferred sb1.derollup _).bind _ = _
    rw [hderollup]
    rfl
  have hledger := (startRollup_ledger hrun).2
  refine ⟨_, hrun, h2.blocksize.trans h.blocksize, fun hnone => ?_, fun d hd => ?_⟩
  · rcases h2.top with hclosed | ⟨⟨index, hopen⟩, -⟩
    · exact hclosed.2
    · exact absurd (hopen.symm.trans hnone) (Option.some_ne_none index)
  · have hd1 : sb2.decycle.values = sb.newDecycle.values := congrArg Ledger.decycle hledger
    have hd2 : sb2.newDecycle.values = [] := congrArg Ledger.newDecycle hledger
    change d ∈ sb2.decycle.values ++ sb2.newDecycle.values at hd
    rw [hd1, hd2, List.append_nil] at hd
    exact h.single d (List.mem_append_right _ hd)

theorem startRollup_closed (hrun : startRollup sb = some sb') : sb.log.logbuf = none := by
  simp only [startRollup, Option.bind_eq_bind, Option.bind_eq_some_iff] at hrun
  obtain ⟨sb1, hcycle, -⟩ := hrun
  rw [newCycleLog] at hcycle
  split at hcycle
  · assumption
  · cases hcycle

theorem Reachable.ready {start : Sb} {phase : Phase} (h : Reachable Op.InVolume start phase sb)
    (hvol : start.volblocks ≤ 2 ^ 48) (hl : start.ledger.Reachable) (hbs : 42 ≤ blocksize)
    (hstart : start.Ready blocksize) : sb.Ready blocksize := by
  induction h with
  | mount => exact hstart
  | op _ op _ _ run ih => exact ih.op run
  | delta _ ih => exact ⟨ih.blocksize, ih.null, ih.single⟩
  | rollup _ run ih =>
      obtain ⟨sb', hrun, hready⟩ := ih.startRollup hbs (startRollup_closed run)
      obtain rfl := Option.some.inj (hrun.symm.trans run)
      exact hready
  | write prev blocks _ run ih => exact ih.writeLog ((prev.ledger hvol hl).1 ▸ hvol) run
  | commit _ run ih => exact ih.commitDelta run

end Ready

/-- In every run each deferred extent is freed exactly once, in the first commit it is due in,
and never before a `save_sb` that follows its deferral. A rollup can begin exactly when no log
block is open: `do_commit` writes the log only after it. -/
theorem deferred_frees_exactlyOnce {blocksize volblocks logchain : ℕ} {logmap : ℕ → LogBlock}
    {disk : Disk} {bitmap : ℕ → Bool} {phase : Phase} {sb : Sb} (hvol : volblocks ≤ 2 ^ 48)
    (h : Reachable Op.InVolume (mount blocksize volblocks logchain logmap disk bitmap) phase sb) :
    ExactlyOnce sb.trace ∧
      (42 ≤ blocksize → ((startRollup sb).isSome ↔ sb.log.logbuf = none)) := by
  refine ⟨(h.ledger hvol .empty).2.inv.exactlyOnce, fun hbs => ⟨fun hsome => ?_, fun hbuf => ?_⟩⟩
  · obtain ⟨sb', hrun⟩ := Option.isSome_iff_exists.mp hsome
    exact startRollup_closed hrun
  · obtain ⟨sb', hrun, -⟩ := (h.ready hvol .empty hbs ⟨rfl, fun _ => ⟨rfl, rfl⟩, nofun⟩).startRollup
      hbs hbuf
    rw [hrun]
    rfl

/-- Two extents freed in two commits, the second one with a rollup. -/
theorem deferred_frees_two_commits :
    ∃ sb : Sb, sb.trace =
        [.defer .defree 0 5 1, .defer .derollup 1 6 1, .defer .newDecycle 2 10 1, .save,
          .bfree 0 5 1, .done, .rollup, .save, .bfree 1 6 1, .done] ∧ ExactlyOnce sb.trace := by
  have h0 : Reachable Op.InVolume
      (mount 256 64 0 (fun _ => ⟨0, 0, 0, fun _ => 0⟩) (fun _ => none) fun _ => false) .idle _ :=
    .mount
  have h1 := h0.op (.balloc 5 2) nofun trivial rfl
  have h2 := h1.op (.mapBfree false 5 1) nofun (by unfold Op.InVolume; decide) rfl
  have h3 := h2.op (.mapBfree true 6 1) nofun (by unfold Op.InVolume; decide) rfl
  have h4 := (h3.write [10] nofun rfl).commit rfl
  have h5 := ((h4.rollup rfl).write [] nofun rfl).commit rfl
  exact ⟨_, rfl, (deferred_frees_exactlyOnce (by decide) h5).1⟩

/-- An extent that waits, and a log block that is open: no commit with a rollup ends. -/
theorem rollup_assertion : ∃ sb : Sb,
    Reachable Op.InVolume
      (mount 256 64 0 (fun _ => ⟨0, 0, 0, fun _ => 0⟩) (fun _ => none) fun _ => false) .idle sb ∧
    sb.trace = [.defer .defree 0 5 1] ∧ sb.log.logbuf ≠ none ∧
    ∀ flush stage blocks, doCommit sb (some flush) stage blocks = none := by
  have h0 : Reachable Op.InVolume
      (mount 256 64 0 (fun _ => ⟨0, 0, 0, fun _ => 0⟩) (fun _ => none) fun _ => false) .idle _ :=
    .mount
  have h1 := h0.op (.balloc 5 1) nofun trivial rfl
  have h2 := h1.op (.mapBfree false 5 1) nofun (by unfold Op.InVolume; decide) rfl
  refine ⟨_, h2, rfl, Option.some_ne_none _, fun flush stage blocks => ?_⟩
  rw [Option.eq_none_iff_forall_ne_some]
  intro sb' hrun
  simp only [doCommit, Option.elim_some, rollupLog, Option.bind_eq_bind,
    Option.bind_eq_some_iff] at hrun
  obtain ⟨sb1, ⟨sb2, hstart, -⟩, -⟩ := hrun
  exact absurd (startRollup_closed hstart) (Option.some_ne_none _)

end Tux3.Commit
