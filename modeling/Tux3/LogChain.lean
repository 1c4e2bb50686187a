import Tux3.LogSession
import Tux3.DeferredFrees

/-!
# The committed log chain

The log blocks of the last two rollup cycles wait in `decycle` and `new_decycle`. As long as
`lognext` does not wrap they are what the chain of the superblock visits, and nothing
clears them.
-/
namespace Tux3.Commit

open Log

/-- Following `->logchain` from block `c` visits the blocks `bs`, which have held the log
blocks `indexes` since they were allocated for them. -/
def Visits (disk : Disk) (logmap : ℕ → LogBlock) (owner : ℕ → Option ℕ) :
    ℕ → List ℕ → List ℕ → Prop
  | _, [], [] => True
  | c, i :: indexes, b :: bs =>
      c = b ∧ owner b = some i ∧
        ∃ block, disk b = some block ∧ block = logmap i ∧
          Visits disk logmap owner block.logchain indexes bs
  | _, _, _ => False

/-- The `n` log indexes before `lognext`, newest first. -/
def indexesBefore (lognext n : ℕ) : List ℕ :=
  (List.range n).map fun k => u32 (2 ^ 32 + lognext - 1 - k)

/-- The chain of the committed superblock: in `super.logcount` steps it visits the log blocks
`lognext - 1` to `logbase` of the last `save_sb`, all on different blocks, all allocated. -/
def ChainIntact (sb : Sb) : Prop :=
  sb.super.logcount = u32 (2 ^ 32 + sb.saved.lognext - sb.saved.logbase) ∧
    ∃ bs : List ℕ,
      Visits sb.disk sb.saved.logmap sb.owner sb.super.logchain
        (indexesBefore sb.saved.lognext sb.super.logcount) bs ∧
      bs.Nodup ∧ ∀ b ∈ bs, sb.bitmap b = true

def blocksOf (ds : List Deferred) : List ℕ := ds.flatMap fun d => List.range' d.block d.count

/-- The blocks of all extents in the stashes. -/
def Sb.deferredBlocks (sb : Sb) : List ℕ := blocksOf sb.ledger.pending

/-- A caller frees and defers only extents it owns: allocated, and not deferred already. -/
def Op.Owned (sb : Sb) : Op → Prop
  | .balloc _ _ => True
  | .bfree block count => ∀ b, block ≤ b → b < block + count → b ∉ sb.deferredBlocks
  | .log entry => entry.Valid
  | .mapBfree _ block count => 0 < count ∧ block + count ≤ sb.volblocks ∧
      ∀ b, block ≤ b → b < block + count → b ∉ sb.deferredBlocks ∧ sb.bitmap b = true

section Visits
variable {disk disk' : Disk} {logmap logmap' : ℕ → LogBlock} {owner owner' : ℕ → Option ℕ}

theorem Visits.congr {c : ℕ} {indexes bs : List ℕ}
    (h : Visits disk logmap owner c indexes bs) (hdisk : ∀ b ∈ bs, disk' b = disk b)
    (howner : ∀ b ∈ bs, owner' b = owner b) (hmap : ∀ i ∈ indexes, logmap' i = logmap i) :
    Visits disk' logmap' owner' c indexes bs := by
  induction bs generalizing c indexes with
  | nil =>
      cases indexes with
      | nil => trivial
      | cons i indexes => cases h
  | cons b bs ih =>
      cases indexes with
      | nil => cases h
      | cons i indexes =>
          obtain ⟨rfl, hown, block, hb, hblock, hrest⟩ := h
          refine ⟨rfl, (howner _ List.mem_cons_self).trans hown, block,
            (hdisk _ List.mem_cons_self).trans hb,
            hblock.trans (hmap _ List.mem_cons_self).symm, ?_⟩
          exact ih hrest (fun x hx => hdisk x (List.mem_cons_of_mem _ hx))
            (fun x hx => howner x (List.mem_cons_of_mem _ hx))
            fun j hj => hmap j (List.mem_cons_of_mem _ hj)

theorem Visits.take {c : ℕ} {indexes indexes' bs bs' : List ℕ}
    (h : Visits disk logmap owner c (indexes ++ indexes') (bs ++ bs'))
    (hlen : indexes.length = bs.length) : Visits disk logmap owner c indexes bs := by
  induction bs generalizing c indexes with
  | nil =>
      rw [List.eq_nil_of_length_eq_zero hlen]
      trivial
  | cons b bs ih =>
      cases indexes with
      | nil => cases hlen
      | cons i indexes =>
          obtain ⟨hc, hown, block, hb, hblock, hrest⟩ := h
          exact ⟨hc, hown, block, hb, hblock, ih hrest (Nat.succ.inj hlen)⟩

theorem Visits.newest {c lognext n : ℕ} {bs : List ℕ}
    (h : Visits disk logmap owner c (indexesBefore lognext n) bs) (hn : 0 < n) :
    owner c = some (u32 (2 ^ 32 + lognext - 1)) := by
  obtain ⟨n, rfl⟩ := Nat.exists_eq_add_of_lt hn
  rw [indexesBefore, Nat.zero_add, List.range_succ_eq_map, List.map_cons] at h
  cases bs with
  | nil => cases h
  | cons b bs =>
      obtain ⟨rfl, hown, -⟩ := h
      exact hown

theorem indexesBefore_eq {base n : ℕ} (h : base + n < 2 ^ 32) :
    indexesBefore (base + n) n = (List.range' base n).reverse := by
  refine List.ext_getElem ?_ fun k hk _ => ?_
  · simp only [indexesBefore, List.length_map, List.length_range, List.length_reverse,
      List.length_range']
  · simp only [indexesBefore, List.length_map, List.length_range] at hk
    simp only [indexesBefore, List.getElem_map, List.getElem_range, List.getElem_reverse,
      List.length_range', List.getElem_range', u32]
    omega

end Visits

section Blocks
variable {ds ds' : List Deferred}

theorem mem_blocksOf {b : ℕ} :
    b ∈ blocksOf ds ↔ ∃ d ∈ ds, d.block ≤ b ∧ b < d.block + d.count := by
  simp only [blocksOf, List.mem_flatMap, List.mem_range'_1]

theorem blocksOf_perm (h : ds.Perm ds') : (blocksOf ds).Perm (blocksOf ds') :=
  h.flatMap_right _

theorem blocksOf_append : blocksOf (ds ++ ds') = blocksOf ds ++ blocksOf ds' :=
  List.flatMap_append

theorem blocksOf_single (h : ∀ d ∈ ds, d.count = 1) : blocksOf ds = ds.map Deferred.block := by
  induction ds with
  | nil => rfl
  | cons d ds ih =>
      rw [blocksOf, List.flatMap_cons, h d List.mem_cons_self, List.map_cons]
      exact congrArg (d.block :: ·) (ih fun x hx => h x (List.mem_cons_of_mem _ hx))

end Blocks

/-! ## The log -/

/-- `lognext` has not wrapped, and only an open block is ahead of `logthis`. -/
structure LogOk (log : LogSb) (opened : ℕ) : Prop where
  opened : log.lognext = opened
  shut : log.logbuf = none → log.logthis = log.lognext
  null : log.logbuf = none → log.logpos = 0 ∧ log.logtop = 0
  filling : ∀ i, log.logbuf = some i → i + 1 = log.lognext ∧ log.logthis ≤ i

section Log
variable {log log' : LogSb} {opened : ℕ}

theorem LogOk.this_le (h : LogOk log opened) : log.logthis ≤ log.lognext := by
  cases hb : log.logbuf with
  | none => exact Nat.le_of_eq (h.shut hb)
  | some i =>
      have := h.filling i hb
      omega

theorem logFinish_ok (hok : LogOk log opened) (h : logFinish log = some log') :
    Frame log log' ∧ log'.lognext = log.lognext ∧ log'.logbuf = none ∧
      log'.logpos = 0 ∧ log'.logtop = 0 := by
  rw [logFinish] at h
  cases hb : log.logbuf with
  | none =>
      simp only [hb, Option.some.injEq] at h
      subst h
      exact ⟨Frame.refl log, rfl, hb, hok.null hb⟩
  | some index =>
      simp only [hb] at h
      split at h
      · cases h
      · rw [Option.some.injEq] at h
        subst h
        have hthis := (hok.filling index hb).2
        refine ⟨⟨rfl, rfl, rfl, rfl, rfl, fun i hi => ?_⟩, rfl, rfl, rfl, rfl⟩
        exact Function.update_of_ne (by omega) _ _

theorem logBegin_ok {n : ℕ} (hn : 0 < n) (hok : LogOk log opened)
    (h : logBegin log n = some log') :
    (log' = log ∧ log.logbuf ≠ none) ∨
      (Frame log log' ∧ log'.lognext = u32 (log.lognext + 1) ∧
        log'.logbuf = some log.lognext) := by
  rw [logBegin] at h
  split at h
  · simp only [Option.bind_eq_bind, Option.bind_eq_some_iff, Option.pure_def,
      Option.some.injEq] at h
    obtain ⟨log1, hfin, rfl⟩ := h
    obtain ⟨hframe, hnext, -⟩ := logFinish_ok hok hfin
    refine Or.inr ⟨hframe.trans ⟨rfl, rfl, rfl, rfl, rfl, fun i hi => ?_⟩, ?_, ?_⟩
    · have := hok.this_le
      rw [hframe.logthis] at hi
      exact Function.update_of_ne (by omega) _ _
    · rw [← hnext]
      rfl
    · rw [← hnext]
      rfl
  · rename_i hroom
    cases h
    refine Or.inl ⟨rfl, fun hb => ?_⟩
    have := hok.null hb
    omega

/-- An entry leaves the log blocks of earlier deltas alone and moves `lognext` by at most one. -/
theorem entry_ok (hok : LogOk log opened) {e : Entry} (hv : e.Valid) (h : e.log log = some log')
    (hlt : (if log'.lognext = log.lognext then opened else opened + 1) < 2 ^ 32) :
    Frame log log' ∧ LogOk log' (if log'.lognext = log.lognext then opened else opened + 1) := by
  rw [log_eq hv.asserted, Option.bind_eq_some_iff] at h
  obtain ⟨log1, hbegin, hend⟩ := h
  simp only [logEnd, Option.bind_eq_bind, Option.bind_eq_some_iff, Option.pure_def,
    Option.some.injEq] at hend
  obtain ⟨index, hbuf, rfl⟩ := hend
  have hpos : 0 < logsize e.code := by cases e.code <;> decide
  have hthis := hok.this_le
  rcases logBegin_ok hpos hok hbegin with ⟨rfl, -⟩ | ⟨hframe, hnext, hbuf1⟩
  · have hfill := hok.filling index hbuf
    refine ⟨⟨rfl, rfl, rfl, rfl, rfl, fun i hi => Function.update_of_ne (by omega) _ _⟩, ?_⟩
    simp only [if_true]
    exact ⟨hok.opened, hok.shut, fun hb => absurd (hbuf.symm.trans hb) (Option.some_ne_none index),
      hok.filling⟩
  · have hne : ¬ log1.lognext = log.lognext := by
      unfold u32 at hnext
      omega
    simp only [if_neg hne] at hlt ⊢
    have hidx : index = log.lognext := by
      rw [hbuf] at hbuf1
      exact Option.some.inj hbuf1
    have hnext' : log1.lognext = log.lognext + 1 := by
      rw [hnext, hok.opened, u32_of_lt hlt]
    refine ⟨hframe.trans ⟨rfl, rfl, rfl, rfl, rfl, fun i hi => ?_⟩, ?_,
      fun hb => absurd (hbuf.symm.trans hb) (Option.some_ne_none index),
      fun hb => absurd (hbuf.symm.trans hb) (Option.some_ne_none index),
      fun i hi => ?_⟩
    · rw [hframe.logthis] at hi
      exact Function.update_of_ne (by omega) _ _
    · simp only [hnext', hok.opened]
    · simp only [hbuf, Option.some.injEq] at hi
      simp only [hnext', hframe.logthis]
      omega

end Log

/-! ## The invariant -/

/-- The log blocks of the last two cycles, oldest first. -/
def Sb.cycle (sb : Sb) : List Deferred := sb.decycle.values ++ sb.newDecycle.values

/-- `next` log blocks have been written. -/
structure Inv (sb : Sb) (next : ℕ) : Prop where
  older : sb.log.logbase + sb.decycle.values.length = sb.log.nextLogbase
  newer : sb.log.nextLogbase + sb.newDecycle.values.length = next
  single : ∀ d ∈ sb.cycle, d.count = 1
  visits : Visits sb.disk sb.log.logmap sb.owner sb.log.logchain
    (List.range' sb.log.logbase sb.cycle.length).reverse (sb.cycle.map Deferred.block).reverse
  nodup : sb.deferredBlocks.Nodup
  set : ∀ b ∈ sb.deferredBlocks, sb.bitmap b = true
  count : sb.super.logcount = u32 (2 ^ 32 + sb.saved.lognext - sb.saved.logbase)
  saved : ∃ bs : List ℕ,
    Visits sb.disk sb.saved.logmap sb.owner sb.super.logchain
      (indexesBefore sb.saved.lognext sb.super.logcount) bs ∧
    bs.Nodup ∧ ∀ b ∈ bs, b ∈ sb.deferredBlocks

theorem Inv.intact {sb : Sb} {next : ℕ} (h : Inv sb next) : ChainIntact sb := by
  obtain ⟨bs, hvisits, hnodup, hmem⟩ := h.saved
  exact ⟨h.count, bs, hvisits, hnodup, fun b hb => h.set b (hmem b hb)⟩

section Steps
variable {sb sb' : Sb} {next : ℕ}

theorem mem_cycle {d : Deferred} (h : d ∈ sb.cycle) : d ∈ sb.ledger.pending := by
  simp only [Sb.cycle, List.mem_append] at h
  simp only [Ledger.pending, Sb.ledger, List.mem_append]
  exact Or.inr (Or.inr h)

theorem Inv.mem_deferred (h : Inv sb next) {b : ℕ}
    (hb : b ∈ (sb.cycle.map Deferred.block).reverse) : b ∈ sb.deferredBlocks := by
  obtain ⟨d, hd, rfl⟩ := List.mem_map.mp (List.mem_reverse.mp hb)
  refine mem_blocksOf.mpr ⟨d, mem_cycle hd, Nat.le_refl _, ?_⟩
  rw [h.single d hd]
  exact Nat.lt_succ_self _

theorem Inv.length (h : Inv sb next) : sb.log.logbase + sb.cycle.length = next := by
  have h1 := h.older
  have h2 := h.newer
  rw [Sb.cycle, List.length_append]
  omega

theorem Inv.index_lt (h : Inv sb next) {i : ℕ}
    (hi : i ∈ (List.range' sb.log.logbase sb.cycle.length).reverse) : i < next := by
  have := (List.mem_range'_1.mp (List.mem_reverse.mp hi)).2
  rwa [h.length] at this

theorem Inv.mark (h : Inv sb next) {block count : ℕ}
    (hout : ∀ b, block ≤ b → b < block + count → b ∉ sb.deferredBlocks) (set : Bool)
    (owner : Option ℕ) : Inv (sb.mark block count set owner) next := by
  have hin : ∀ b ∈ sb.deferredBlocks, ¬ (block ≤ b ∧ b < block + count) := fun b hb hr =>
    hout b hr.1 hr.2 hb
  have howner : ∀ b ∈ sb.deferredBlocks,
      (sb.mark block count set owner).owner b = sb.owner b := fun b hb => if_neg (hin b hb)
  obtain ⟨bs, hvisits, hnodup, hmem⟩ := h.saved
  exact ⟨h.older, h.newer, h.single,
    h.visits.congr (fun _ _ => rfl) (fun b hb => howner b (h.mem_deferred hb)) fun _ _ => rfl,
    h.nodup, fun b hb => (if_neg (hin b hb)).trans (h.set b hb), h.count, bs,
    hvisits.congr (fun _ _ => rfl) (fun b hb => howner b (hmem b hb)) fun _ _ => rfl, hnodup, hmem⟩

theorem Inv.setLog (h : Inv sb sb.log.logthis) {log : LogSb} (hframe : Frame sb.log log) :
    Inv (sb.setLog log) (sb.setLog log).log.logthis where
  older := by
    change log.logbase + _ = log.nextLogbase
    rw [hframe.logbase, hframe.nextLogbase]
    exact h.older
  newer := by
    change log.nextLogbase + _ = log.logthis
    rw [hframe.nextLogbase, hframe.logthis]
    exact h.newer
  single := h.single
  visits := by
    change Visits sb.disk log.logmap sb.owner log.logchain
      (List.range' log.logbase sb.cycle.length).reverse _
    rw [hframe.logchain, hframe.logbase]
    exact h.visits.congr (fun _ _ => rfl) (fun _ _ => rfl) fun i hi =>
      hframe.kept i (h.index_lt hi)
  nodup := h.nodup
  set := h.set
  count := h.count
  saved := h.saved

theorem Inv.sameLog {log : LogSb} (h : Inv (sb.setLog log) next) :
    Inv { sb with log := log } next :=
  ⟨h.older, h.newer, h.single, h.visits, h.nodup, h.set, h.count, h.saved⟩

theorem deferBfree_deferred (sb : Sb) (kind : Kind) {block count : ℕ} (hb : block < 2 ^ 48)
    (hc : count < 2 ^ 16) :
    (deferBfree sb kind block count).deferredBlocks.Perm
      (List.range' block count ++ sb.deferredBlocks) := by
  obtain ⟨d, -, rfl, rfl, hledger⟩ := deferBfree_ledger sb kind hb hc
  rw [Sb.deferredBlocks, hledger]
  exact blocksOf_perm (defer_pending sb.ledger kind d)

theorem Inv.mapBfree (h : Inv sb next) {kind : Kind} (hkind : kind ≠ .newDecycle)
    {block count : ℕ} (hb : block < 2 ^ 48) (hc : count < 2 ^ 16)
    (hown : ∀ b, block ≤ b → b < block + count → b ∉ sb.deferredBlocks ∧ sb.bitmap b = true) :
    Inv (deferBfree sb kind block count) next := by
  have hperm := deferBfree_deferred sb kind hb hc
  have hmem : ∀ b, b ∈ (deferBfree sb kind block count).deferredBlocks ↔
      (block ≤ b ∧ b < block + count) ∨ b ∈ sb.deferredBlocks := fun b => by
    rw [hperm.mem_iff, List.mem_append, List.mem_range'_1]
  obtain ⟨bs, hvisits, hnodup, hsaved⟩ := h.saved
  have hsame : (deferBfree sb kind block count).cycle = sb.cycle ∧
      (deferBfree sb kind block count).log = sb.log ∧
      (deferBfree sb kind block count).disk = sb.disk ∧
      (deferBfree sb kind block count).owner = sb.owner ∧
      (deferBfree sb kind block count).bitmap = sb.bitmap ∧
      (deferBfree sb kind block count).super = sb.super ∧
      (deferBfree sb kind block count).saved = sb.saved ∧
      (deferBfree sb kind block count).decycle = sb.decycle ∧
      (deferBfree sb kind block count).newDecycle = sb.newDecycle := by
    cases kind with
    | newDecycle => exact absurd rfl hkind
    | defree | derollup => exact ⟨rfl, rfl, rfl, rfl, rfl, rfl, rfl, rfl, rfl⟩
  obtain ⟨hcycle, hlog, hdisk, howner, hbitmap, hsuper, hsav, hdec, hnew⟩ := hsame
  refine ⟨?_, ?_, ?_, ?_, ?_, ?_, ?_, bs, ?_, hnodup, fun b hb => (hmem b).mpr
    (Or.inr (hsaved b hb))⟩
  · rw [hlog, hdec]
    exact h.older
  · rw [hlog, hnew]
    exact h.newer
  · rw [hcycle]
    exact h.single
  · rw [hdisk, hlog, howner, hcycle]
    exact h.visits
  · rw [hperm.nodup_iff, List.nodup_append]
    refine ⟨List.nodup_range', h.nodup, fun a ha b hb heq => ?_⟩
    rw [List.mem_range'_1] at ha
    exact (hown a ha.1 ha.2).1 (heq ▸ hb)
  · intro b hb
    rw [hbitmap]
    cases (hmem b).mp hb with
    | inl hr => exact (hown b hr.1 hr.2).2
    | inr hd => exact h.set b hd
  · rw [hsuper, hsav]
    exact h.count
  · rw [hdisk, hsav, howner, hsuper]
    exact hvisits

/-- One turn of `write_log` puts the next log block at the head of the chain. -/
theorem Inv.write (h : Inv sb next) {block : ℕ} (hb : block < 2 ^ 48)
    (hclear : sb.bitmap block = false) :
    Inv (deferBfree (wrote sb next block) .newDecycle block 1) (next + 1) := by
  obtain ⟨d, -, hdb, hdc, hledger⟩ := deferBfree_ledger (wrote sb next block) .newDecycle hb
    (by decide : 1 < 2 ^ 16)
  have hperm := deferBfree_deferred (wrote sb next block) .newDecycle hb (by decide : 1 < 2 ^ 16)
  have hnew : block ∉ sb.deferredBlocks := fun hin => by
    have := h.set block hin
    rw [hclear] at this
    cases this
  have hother : ∀ b ∈ sb.deferredBlocks, b ≠ block := fun b hin heq => hnew (heq ▸ hin)
  have hmem : ∀ b, b ∈ (deferBfree (wrote sb next block) .newDecycle block 1).deferredBlocks ↔
      b = block ∨ b ∈ sb.deferredBlocks := fun b => by
    rw [hperm.mem_iff, List.range'_one, List.singleton_append, List.mem_cons]
    exact Iff.rfl
  have howner : ∀ b, b ≠ block → (wrote sb next block).owner b = sb.owner b := fun b hne =>
    if_neg (by omega)
  have hdisk : ∀ b, b ≠ block → (wrote sb next block).disk b = sb.disk b := fun b hne =>
    Function.update_of_ne hne _ _
  have hdecycle : (deferBfree (wrote sb next block) .newDecycle block 1).decycle.values =
      sb.decycle.values := congrArg Ledger.decycle hledger
  have hnewDecycle : (deferBfree (wrote sb next block) .newDecycle block 1).newDecycle.values =
      sb.newDecycle.values ++ [d] := congrArg Ledger.newDecycle hledger
  have hcycle : (deferBfree (wrote sb next block) .newDecycle block 1).cycle = sb.cycle ++ [d] := by
    rw [Sb.cycle, hdecycle, hnewDecycle, Sb.cycle, List.append_assoc]
  obtain ⟨bs, hvisits, hnodup, hsaved⟩ := h.saved
  refine ⟨?_, ?_, ?_, ?_, ?_, ?_, h.count, bs, ?_, hnodup,
    fun b hb => (hmem b).mpr (Or.inr (hsaved b hb))⟩
  · rw [hdecycle]
    exact h.older
  · rw [hnewDecycle, List.length_append, List.length_singleton, ← Nat.add_assoc]
    exact congrArg (· + 1) h.newer
  · rw [hcycle]
    intro x hx
    cases List.mem_append.mp hx with
    | inl hold => exact h.single x hold
    | inr hlast => exact List.mem_singleton.mp hlast ▸ hdc
  · have hindex : sb.log.logbase + 1 * sb.cycle.length = next := (Nat.one_mul _).symm ▸ h.length
    rw [hcycle, List.length_append, List.length_singleton]
    change Visits _ _ _ _ (List.range' sb.log.logbase (sb.cycle.length + 1)).reverse _
    rw [List.range'_concat, hindex, List.reverse_append, List.map_append, List.reverse_append,
      List.map_singleton, hdb]
    refine ⟨rfl, ?_, { sb.log.logmap next with logchain := sb.log.logchain }, ?_,
      ?_, ?_⟩
    · exact if_pos ⟨Nat.le_refl _, Nat.lt_succ_self _⟩
    · exact Function.update_self block
        (some { sb.log.logmap next with logchain := sb.log.logchain }) sb.disk
    · exact (Function.update_self next
        { sb.log.logmap next with logchain := sb.log.logchain } sb.log.logmap).symm
    · exact h.visits.congr (fun b hb => hdisk b (hother b (h.mem_deferred hb)))
        (fun b hb => howner b (hother b (h.mem_deferred hb)))
        fun i hi => Function.update_of_ne (Nat.ne_of_lt (h.index_lt hi)) _ _
  · rw [hperm.nodup_iff, List.range'_one, List.singleton_append, List.nodup_cons]
    exact ⟨hnew, h.nodup⟩
  · intro b hb
    change (if block ≤ b ∧ b < block + 1 then true else sb.bitmap b) = true
    split
    · rfl
    · rename_i hne
      cases (hmem b).mp hb with
      | inl heq => exact absurd ⟨Nat.le_of_eq heq.symm, by omega⟩ hne
      | inr hin => exact h.set b hin
  · exact hvisits.congr (fun b hb => hdisk b (hother b (hsaved b hb)))
      (fun b hb => howner b (hother b (hsaved b hb))) fun _ _ => rfl

theorem writeBlocks_same {index : ℕ} {blocks : List ℕ}
    (hrun : writeBlocks sb index blocks = some sb') :
    sb'.opened = sb.opened ∧ sb'.volblocks = sb.volblocks := by
  induction blocks generalizing sb index with
  | nil =>
      obtain ⟨-, rfl⟩ := writeBlocks_nil hrun
      exact ⟨rfl, rfl⟩
  | cons block blocks ih =>
      have hrest := ih (writeBlocks_cons hrun).2.2.2
      exact hrest

/-- After `write_log` every log block is on the chain. -/
theorem writeBlocks_inv (h : Inv sb next) (hle : next ≤ sb.log.lognext)
    (hvol : sb.volblocks ≤ 2 ^ 48) {blocks : List ℕ} (hrun : writeBlocks sb next blocks = some sb') :
    Inv sb' sb'.log.logthis ∧ sb'.log.logthis = sb'.log.lognext ∧
      sb'.log.lognext = sb.log.lognext ∧ sb'.log.logbuf = sb.log.logbuf ∧
      sb'.log.logpos = sb.log.logpos ∧ sb'.log.logtop = sb.log.logtop := by
  induction blocks generalizing sb next with
  | nil =>
      obtain ⟨hge, rfl⟩ := writeBlocks_nil hrun
      obtain rfl : next = sb.log.lognext := by omega
      exact ⟨⟨h.older, h.newer, h.single, h.visits, h.nodup, h.set, h.count, h.saved⟩, rfl, rfl,
        rfl, rfl, rfl⟩
  | cons block blocks ih =>
      obtain ⟨hlt, hblock, hclear, hrun⟩ := writeBlocks_cons hrun
      have hrest := ih (h.write (show block < 2 ^ 48 by omega) hclear) hlt hvol hrun
      exact hrest

theorem writeLog_same {blocks : List ℕ} (hrun : writeLog sb blocks = some sb') :
    sb'.opened = sb.opened ∧ sb'.volblocks = sb.volblocks := by
  simp only [writeLog, Option.bind_eq_bind, Option.bind_eq_some_iff] at hrun
  obtain ⟨log, -, hrun⟩ := hrun
  have hsame := writeBlocks_same hrun
  exact hsame

theorem writeLog_inv (hok : LogOk sb.log sb.opened) (h : Inv sb sb.log.logthis)
    (hvol : sb.volblocks ≤ 2 ^ 48) {blocks : List ℕ} (hrun : writeLog sb blocks = some sb') :
    LogOk sb'.log sb'.opened ∧ Inv sb' sb'.log.logthis ∧ sb'.log.logthis = sb'.log.lognext := by
  have hopened := (writeLog_same hrun).1
  simp only [writeLog, Option.bind_eq_bind, Option.bind_eq_some_iff] at hrun
  obtain ⟨log, hfin, hrun⟩ := hrun
  obtain ⟨hframe, hnext, hbuf, hpos, htop⟩ := logFinish_ok hok hfin
  have hinv : Inv { sb with log := log } log.logthis := (h.setLog hframe).sameLog
  have hle : log.logthis ≤ log.lognext := by
    rw [hframe.logthis, hnext]
    exact hok.this_le
  obtain ⟨hinv', hthis, hnext', hbuf', hpos', htop'⟩ := writeBlocks_inv hinv hle hvol hrun
  refine ⟨⟨?_, fun _ => hthis, fun _ => ⟨hpos'.trans hpos, htop'.trans htop⟩, fun i hi => ?_⟩,
    hinv', hthis⟩
  · rw [hnext', hopened]
    exact hnext.trans hok.opened
  · rw [hbuf'] at hi
    exact absurd (hbuf.symm.trans hi) (Option.some_ne_none i).symm

/-! ## Rollups -/

/-- What a rollup changes besides the stashes and the two bases: the open part of the log. -/
structure Rest (a b : Sb) : Prop where
  frame : Frame a.log b.log
  ok : LogOk b.log b.opened
  disk : b.disk = a.disk
  bitmap : b.bitmap = a.bitmap
  owner : b.owner = a.owner
  super : b.super = a.super
  saved : b.saved = a.saved

theorem setLog_opened_le (sb : Sb) (log : LogSb) : sb.opened ≤ (sb.setLog log).opened := by
  simp only [Sb.setLog]
  split
  · exact Nat.le_refl _
  · exact Nat.le_succ _

theorem moveDeferred_rest {a : Sb} {d : Deferred} {err : ℤ}
    (hrun : moveDeferred sb d = some (err, sb')) :
    err = 0 ∧ sb.opened ≤ sb'.opened ∧ (sb'.opened < 2 ^ 32 → Rest a sb → Rest a sb') := by
  simp only [moveDeferred, Option.some.injEq, Prod.mk.injEq] at hrun
  obtain ⟨rfl, rfl⟩ := hrun
  exact ⟨rfl, Nat.le_refl _, fun _ hrest => ⟨hrest.frame, hrest.ok, hrest.disk, hrest.bitmap,
    hrest.owner, hrest.super, hrest.saved⟩⟩

theorem defreeLogblocks_rest {a : Sb} {d : Deferred} {err : ℤ}
    (hrun : defreeLogblocks sb d = some (err, sb')) :
    err = 0 ∧ sb.opened ≤ sb'.opened ∧ (sb'.opened < 2 ^ 32 → Rest a sb → Rest a sb') := by
  simp only [defreeLogblocks, Option.bind_eq_bind, Option.bind_eq_some_iff] at hrun
  obtain ⟨log, hlog, hmove⟩ := hrun
  obtain ⟨rfl, hopened, hrest'⟩ := moveDeferred_rest (a := a) hmove
  refine ⟨rfl, Nat.le_trans (setLog_opened_le sb log) hopened, fun hlt hrest => hrest' hlt ?_⟩
  have hv : (Entry.bfree d.block d.count).Valid :=
    ⟨Nat.mod_lt _ (by decide), logExtent_count hlog⟩
  obtain ⟨hframe, hok⟩ := entry_ok hrest.ok hv hlog (Nat.lt_of_le_of_lt hopened hlt)
  exact ⟨hrest.frame.trans hframe, hok, hrest.disk, hrest.bitmap, hrest.owner, hrest.super,
    hrest.saved⟩

theorem unstash_rest {actor : Sb → Deferred → Option (ℤ × Sb)} {a : Sb}
    (hactor : ∀ sb d err sb', actor sb d = some (err, sb') →
      err = 0 ∧ sb.opened ≤ sb'.opened ∧ (sb'.opened < 2 ^ 32 → Rest a sb → Rest a sb'))
    {stash stash' : Stash Deferred} {err : ℤ}
    (hrun : unstash actor stash sb = some (err, stash', sb')) :
    sb.opened ≤ sb'.opened ∧ (sb'.opened < 2 ^ 32 → Rest a sb → Rest a sb') := by
  obtain rfl := unstash_err (fun sb d err sb' hact => (hactor sb d err sb' hact).1) hrun
  refine drain_induct (P := fun _ s => sb.opened ≤ s.opened ∧
      (s.opened < 2 ^ 32 → Rest a sb → Rest a s))
    (unstash_ok hrun).1 ⟨Nat.le_refl _, fun _ hrest => hrest⟩ ?_
  rintro x xs s s' ⟨hle, hs⟩ hact
  obtain ⟨-, hle', hstep⟩ := hactor s x 0 s' hact
  exact ⟨Nat.le_trans hle hle', fun hlt hrest => hstep hlt (hs (Nat.lt_of_le_of_lt hle' hlt) hrest)⟩

theorem newCycleLog_rest (hrun : newCycleLog sb = some sb') :
    sb.log.logbuf = none ∧ sb.opened ≤ sb'.opened ∧
      (sb'.opened < 2 ^ 32 → LogOk sb.log sb.opened →
        Rest { sb with
          log := { sb.log with logbase := sb.log.nextLogbase, nextLogbase := sb.log.lognext } }
          sb') := by
  rw [newCycleLog] at hrun
  split at hrun
  case isFalse => cases hrun
  rename_i hbuf
  simp only [Option.bind_eq_bind, Option.bind_eq_some_iff, Option.pure_def,
    Option.some.injEq] at hrun
  obtain ⟨⟨err, stash', sb1⟩, hun, rfl⟩ := hrun
  obtain ⟨hopened, hrest⟩ := unstash_rest (fun _ _ _ _ => defreeLogblocks_rest) hun
  refine ⟨hbuf, hopened, fun hlt hok => ?_⟩
  have hrest' := hrest hlt
    ⟨Frame.refl _, ⟨hok.opened, hok.shut, hok.null, hok.filling⟩, rfl, rfl, rfl, rfl, rfl⟩
  exact ⟨hrest'.frame, hrest'.ok, hrest'.disk, hrest'.bitmap, hrest'.owner, hrest'.super,
    hrest'.saved⟩

theorem startRollup_rest (hrun : startRollup sb = some sb') :
    sb.log.logbuf = none ∧ sb.opened ≤ sb'.opened ∧
      (sb'.opened < 2 ^ 32 → LogOk sb.log sb.opened →
        Rest { sb with
          log := { sb.log with logbase := sb.log.nextLogbase, nextLogbase := sb.log.lognext } }
          sb') := by
  simp only [startRollup, Option.bind_eq_bind, Option.bind_eq_some_iff, Option.pure_def,
    Option.some.injEq] at hrun
  obtain ⟨sb1, hcycle, ⟨err, stash', sb2⟩, hun, rfl⟩ := hrun
  obtain ⟨hbuf, hopened, hrest⟩ := newCycleLog_rest hcycle
  obtain ⟨hopened', hrest'⟩ := unstash_rest (fun _ _ _ _ => moveDeferred_rest) hun
  refine ⟨hbuf, Nat.le_trans hopened hopened', fun hlt hok => ?_⟩
  have hend := hrest' hlt (hrest (Nat.lt_of_le_of_lt hopened' hlt) hok)
  exact ⟨hend.frame, hend.ok, hend.disk, hend.bitmap, hend.owner, hend.super, hend.saved⟩

/-- A rollup drops the older cycle from the end of the chain. -/
theorem startRollup_inv (hok : LogOk sb.log sb.opened) (h : Inv sb sb.log.logthis)
    (hrun : startRollup sb = some sb') (hlt : sb'.opened < 2 ^ 32) :
    LogOk sb'.log sb'.opened ∧ Inv sb' sb'.log.logthis := by
  obtain ⟨hbuf, -, hrest⟩ := startRollup_rest hrun
  obtain ⟨hframe, hok', hdisk, hbitmap, howner, hsuper, hsaved⟩ := hrest hlt hok
  have hledger := (startRollup_ledger hrun).2
  have hdecycle : sb'.decycle.values = sb.newDecycle.values := congrArg Ledger.decycle hledger
  have hnewDecycle : sb'.newDecycle.values = [] := congrArg Ledger.newDecycle hledger
  have hcycle : sb'.cycle = sb.newDecycle.values := by
    rw [Sb.cycle, hdecycle, hnewDecycle, List.append_nil]
  have hthis : sb'.log.logthis = sb.log.logthis := hframe.logthis
  have hbase : sb'.log.logbase = sb.log.nextLogbase := hframe.logbase
  have hnext : sb'.log.nextLogbase = sb.log.logthis := hframe.nextLogbase.trans (hok.shut hbuf).symm
  have hperm : sb'.deferredBlocks.Perm sb.deferredBlocks := by
    rw [Sb.deferredBlocks, hledger]
    exact blocksOf_perm (rollup_pending sb.ledger)
  have hvisits := h.visits
  rw [Sb.cycle, List.length_append, ← List.range'_append_1, List.reverse_append, List.map_append,
    List.reverse_append, h.older] at hvisits
  refine ⟨hok', ?_, ?_, ?_, ?_, hperm.nodup_iff.mpr h.nodup, ?_, ?_, ?_⟩
  · rw [hdecycle, hbase, hnext]
    exact h.newer
  · rw [hnewDecycle, hnext, hthis]
    rfl
  · rw [hcycle]
    exact fun d hd => h.single d (List.mem_append_right _ hd)
  · rw [hcycle, hdisk, howner, hbase, hframe.logchain]
    refine (hvisits.take (by simp)).congr (fun _ _ => rfl) (fun _ _ => rfl) fun i hi => ?_
    refine hframe.kept i ?_
    have hlt := (List.mem_range'_1.mp (List.mem_reverse.mp hi)).2
    rwa [h.newer] at hlt
  · intro b hb
    rw [hbitmap]
    exact h.set b (hperm.mem_iff.mp hb)
  · rw [hsuper, hsaved]
    exact h.count
  · obtain ⟨bs, hvisits, hnodup, hmem⟩ := h.saved
    rw [hdisk, howner, hsuper, hsaved]
    exact ⟨bs, hvisits, hnodup, fun b hb => hperm.mem_iff.mpr (hmem b hb)⟩

/-! ## Commits -/

/-- What `retire_bfree` changes outside the blocks of `ds`: the history. -/
structure Freed (a : Sb) (ds : List Deferred) (b : Sb) : Prop where
  log : b.log = a.log
  opened : b.opened = a.opened
  disk : b.disk = a.disk
  super : b.super = a.super
  saved : b.saved = a.saved
  bitmap : ∀ x, x ∉ blocksOf ds → b.bitmap x = a.bitmap x
  owner : ∀ x, x ∉ blocksOf ds → b.owner x = a.owner x

theorem retireBfree_freed {a : Sb} {ds : List Deferred} {d : Deferred} (hd : d ∈ ds)
    (hfreed : Freed a ds sb) (hrun : retireBfree sb d = some (0, sb')) : Freed a ds sb' := by
  simp only [retireBfree, Option.bind_eq_bind, Option.bind_eq_some_iff, Option.pure_def,
    Option.some.injEq, Prod.mk.injEq, Sb.bfree] at hrun
  obtain ⟨sb1, hfree, -, rfl⟩ := hrun
  split at hfree
  case isFalse => cases hfree
  cases hfree
  have hout : ∀ x, x ∉ blocksOf ds → ¬ (d.block ≤ x ∧ x < d.block + d.count) := fun x hx hr =>
    hx (mem_blocksOf.mpr ⟨d, hd, hr⟩)
  exact ⟨hfreed.log, hfreed.opened, hfreed.disk, hfreed.super, hfreed.saved,
    fun x hx => (if_neg (hout x hx)).trans (hfreed.bitmap x hx),
    fun x hx => (if_neg (hout x hx)).trans (hfreed.owner x hx)⟩

theorem commitDelta_freed (hrun : commitDelta sb = some sb') :
    Freed (saveSb sb) sb.defree.values sb' := by
  simp only [commitDelta, Option.bind_eq_bind, Option.bind_eq_some_iff, Option.pure_def,
    Option.some.injEq] at hrun
  obtain ⟨⟨err, stash', sb1⟩, hun, rfl⟩ := hrun
  obtain rfl := unstash_err (fun sb d err sb' hact => (retireBfree_ledger hact).1) hun
  have hend := drain_induct
    (P := fun xs s => (∀ d ∈ xs, d ∈ sb.defree.values) ∧ Freed (saveSb sb) sb.defree.values s)
    (unstash_ok hun).1
    ⟨fun _ hd => hd, rfl, rfl, rfl, rfl, rfl, fun _ _ => rfl, fun _ _ => rfl⟩ (by
      rintro x xs s s' ⟨hmem, hfreed⟩ hact
      exact ⟨fun d hd => hmem d (List.mem_cons_of_mem _ hd),
        retireBfree_freed (hmem x List.mem_cons_self) hfreed hact⟩)
  obtain ⟨-, hlog, hopened, hdisk, hsuper, hsaved, hbitmap, howner⟩ := hend
  exact ⟨hlog, hopened, hdisk, hsuper, hsaved, hbitmap, howner⟩

/-- A commit names the chain and frees no block of it. -/
theorem commitDelta_inv (hok : LogOk sb.log sb.opened) (hlt : sb.opened < 2 ^ 32)
    (hnext : sb.log.logthis = sb.log.lognext) (h : Inv sb sb.log.logthis)
    (hrun : commitDelta sb = some sb') :
    LogOk sb'.log sb'.opened ∧ sb'.opened = sb.opened ∧ Inv sb' sb'.log.logthis := by
  obtain ⟨hlog, hopened, hdisk, hsuper, hsaved, hbitmap, howner⟩ := commitDelta_freed hrun
  replace hlog : sb'.log = sb.log := hlog
  replace hsaved : sb'.saved = sb.log := hsaved
  replace hdisk : sb'.disk = sb.disk := hdisk
  have hledger := (commitDelta_ledger hrun).2
  have hdecycle : sb'.decycle.values = sb.decycle.values := congrArg Ledger.decycle hledger
  have hnewDecycle : sb'.newDecycle.values = sb.newDecycle.values :=
    congrArg Ledger.newDecycle hledger
  have hcycle : sb'.cycle = sb.cycle := by
    rw [Sb.cycle, hdecycle, hnewDecycle, Sb.cycle]
  have hsplit : sb.deferredBlocks = blocksOf sb.defree.values ++ sb'.deferredBlocks := by
    rw [Sb.deferredBlocks, Sb.deferredBlocks, hledger]
    exact blocksOf_append
  obtain ⟨-, hnodup, hdisjoint⟩ := List.nodup_append.mp (hsplit ▸ h.nodup)
  have hkept : ∀ x ∈ sb'.deferredBlocks, x ∉ blocksOf sb.defree.values := fun x hx hin =>
    hdisjoint x hin x hx rfl
  have hmem : ∀ x ∈ (sb.cycle.map Deferred.block).reverse, x ∈ sb'.deferredBlocks := by
    intro x hx
    obtain ⟨d, hd, rfl⟩ := List.mem_map.mp (List.mem_reverse.mp hx)
    have hcount := h.single d hd
    rw [← hcycle] at hd
    refine mem_blocksOf.mpr ⟨d, mem_cycle hd, Nat.le_refl _, ?_⟩
    rw [hcount]
    exact Nat.lt_succ_self _
  have hvisits : Visits sb.disk sb.log.logmap sb'.owner sb.log.logchain
      (List.range' sb.log.logbase sb.cycle.length).reverse (sb.cycle.map Deferred.block).reverse :=
    h.visits.congr (fun _ _ => rfl) (fun x hx => howner x (hkept x (hmem x hx))) fun _ _ => rfl
  have hnodup' : (sb.cycle.map Deferred.block).Nodup := by
    have hcycles : blocksOf sb.cycle = sb.cycle.map Deferred.block := blocksOf_single h.single
    have hall : sb.deferredBlocks = blocksOf (sb.defree.values ++ sb.derollup.values) ++
        blocksOf sb.cycle := by
      rw [← blocksOf_append, List.append_assoc]
      rfl
    rw [← hcycles]
    exact (List.nodup_append.mp (hall ▸ h.nodup)).2.1
  have hcount : sb'.super.logcount = u32 (2 ^ 32 + sb.log.lognext - sb.log.logbase) :=
    congrArg Super.logcount hsuper
  have hchain : sb'.super.logchain = sb.log.logchain := congrArg Super.logchain hsuper
  have hlength : sb.log.logbase + sb.cycle.length = sb.log.lognext := hnext ▸ h.length
  have hlast := hok.opened
  refine ⟨?_, hopened, ?_, ?_, ?_, ?_, hnodup, ?_, ?_, ?_⟩
  · rw [hlog, hopened]
    exact hok
  · rw [hlog, hdecycle]
    exact h.older
  · rw [hlog, hnewDecycle]
    exact h.newer
  · rw [hcycle]
    exact h.single
  · rw [hcycle, hlog, hdisk]
    exact hvisits
  · intro x hx
    rw [hbitmap x (hkept x hx)]
    exact h.set x (hsplit ▸ List.mem_append_right _ hx)
  · rw [hsaved]
    exact hcount
  · refine ⟨(sb.cycle.map Deferred.block).reverse, ?_,
      (List.reverse_perm _).nodup_iff.mpr hnodup', hmem⟩
    have hcount' : u32 (2 ^ 32 + sb.log.lognext - sb.log.logbase) = sb.cycle.length := by
      unfold u32
      omega
    rw [hsaved, hdisk, hchain, hcount, hcount', ← hlength, indexesBefore_eq (by omega)]
    exact hvisits

/-- The front end and the flushes leave the chain alone. -/
theorem op_inv (hok : LogOk sb.log sb.opened) (h : Inv sb sb.log.logthis)
    (hvol : sb.volblocks ≤ 2 ^ 48) {op : Op} (howned : op.Owned sb)
    (hrun : op.run sb = some sb') (hlt : sb'.opened < 2 ^ 32) :
    LogOk sb'.log sb'.opened ∧ Inv sb' sb'.log.logthis := by
  cases op with
  | balloc block count =>
      simp only [Op.run, Sb.balloc] at hrun
      split at hrun
      case isFalse => cases hrun
      rename_i hfree
      cases hrun
      refine ⟨hok, h.mark (fun b hle hub hin => ?_) true none⟩
      have hclear := List.all_eq_true.mp hfree.2 b (List.mem_range'_1.mpr ⟨hle, hub⟩)
      rw [h.set b hin] at hclear
      cases hclear
  | bfree block count =>
      simp only [Op.run, Sb.bfree] at hrun
      split at hrun
      case isFalse => cases hrun
      cases hrun
      exact ⟨hok, h.mark howned false none⟩
  | log entry =>
      simp only [Op.run, Option.map_eq_some_iff] at hrun
      obtain ⟨log, hlog, rfl⟩ := hrun
      obtain ⟨hframe, hok'⟩ := entry_ok hok howned hlog hlt
      exact ⟨hok', h.setLog hframe⟩
  | mapBfree isBitmap block count =>
      obtain ⟨hpos, hle, hown⟩ := howned
      have hstep : ∀ kind log, kind ≠ .newDecycle →
          (∃ e : Entry, e.Valid ∧ e.log sb.log = some log) → count < 256 →
          deferBfree (sb.setLog log) kind block count = sb' →
          LogOk sb'.log sb'.opened ∧ Inv sb' sb'.log.logthis := by
        rintro kind log hkind ⟨e, hv, hlog⟩ hcount rfl
        have hsame : (deferBfree (sb.setLog log) kind block count).log = log ∧
            (deferBfree (sb.setLog log) kind block count).opened = (sb.setLog log).opened := by
          cases kind <;> exact ⟨rfl, rfl⟩
        rw [hsame.1, hsame.2]
        obtain ⟨hframe, hok'⟩ := entry_ok hok hv hlog 
          (show (sb.setLog log).opened < 2 ^ 32 from hsame.2 ▸ hlt)
        exact ⟨hok', (h.setLog hframe).mapBfree hkind (by omega) (by omega) hown⟩
      cases isBitmap <;>
        simp only [Op.run, mapBfree, if_true, Bool.false_eq_true, if_false, Option.bind_eq_bind,
          Option.bind_eq_some_iff, Option.pure_def, Option.some.injEq] at hrun <;>
        obtain ⟨log, hlog, hsb'⟩ := hrun <;>
        have hcount := logExtent_count hlog
      · exact hstep .defree log (fun h => by cases h)
          ⟨.bfree block count, ⟨by omega, hcount⟩, hlog⟩ hcount hsb'
      · exact hstep .derollup log (fun h => by cases h)
          ⟨.bfreeOnRollup block count, ⟨by omega, hcount⟩, hlog⟩ hcount hsb'

theorem op_opened {op : Op} (hrun : op.run sb = some sb') :
    sb.opened ≤ sb'.opened ∧ sb'.volblocks = sb.volblocks := by
  cases op with
  | balloc block count =>
      simp only [Op.run, Sb.balloc] at hrun
      split at hrun
      · cases hrun
        exact ⟨Nat.le_refl _, rfl⟩
      · cases hrun
  | bfree block count =>
      simp only [Op.run, Sb.bfree] at hrun
      split at hrun
      · cases hrun
        exact ⟨Nat.le_refl _, rfl⟩
      · cases hrun
  | log entry =>
      simp only [Op.run, Option.map_eq_some_iff] at hrun
      obtain ⟨log, -, rfl⟩ := hrun
      exact ⟨setLog_opened_le sb log, rfl⟩
  | mapBfree isBitmap block count =>
      cases isBitmap <;>
        simp only [Op.run, mapBfree, if_true, Bool.false_eq_true, if_false, Option.bind_eq_bind,
          Option.bind_eq_some_iff, Option.pure_def, Option.some.injEq] at hrun <;>
        obtain ⟨log, -, rfl⟩ := hrun <;>
        exact ⟨setLog_opened_le sb log, rfl⟩

end Steps

section Run
variable {blocksize volblocks logchain : ℕ} {logmap : ℕ → LogBlock} {disk : Disk}
  {bitmap : ℕ → Bool} {phase : Phase} {sb : Sb}

theorem mount_inv : LogOk (Commit.mount blocksize volblocks logchain logmap disk bitmap).log 0 ∧
    Inv (Commit.mount blocksize volblocks logchain logmap disk bitmap) 0 :=
  ⟨⟨rfl, fun _ => rfl, fun _ => ⟨rfl, rfl⟩, nofun⟩, rfl, rfl, nofun, trivial, List.nodup_nil,
    nofun, show 0 = u32 (2 ^ 32 + 0 - 0) by decide, [], trivial, List.nodup_nil, nofun⟩

theorem Reachable.inv
    (h : Reachable Op.Owned (Commit.mount blocksize volblocks logchain logmap disk bitmap) phase sb)
    (hvol : volblocks ≤ 2 ^ 48) :
    sb.volblocks = volblocks ∧ (sb.opened < 2 ^ 32 → LogOk sb.log sb.opened ∧
      Inv sb sb.log.logthis ∧ (phase = .written → sb.log.logthis = sb.log.lognext)) := by
  induction h with
  | mount => exact ⟨rfl, fun _ => ⟨mount_inv.1, mount_inv.2, fun _ => rfl⟩⟩
  | op _ op early allowed run ih =>
      obtain ⟨hle, hvol'⟩ := op_opened run
      refine ⟨hvol'.trans ih.1, fun hlt => ?_⟩
      obtain ⟨hok, hinv, -⟩ := ih.2 (Nat.lt_of_le_of_lt hle hlt)
      obtain ⟨hok', hinv'⟩ := op_inv hok hinv (ih.1.symm ▸ hvol) allowed run hlt
      exact ⟨hok', hinv', fun hwritten => absurd hwritten early⟩
  | delta _ ih =>
      refine ⟨ih.1, fun hlt => ?_⟩
      obtain ⟨hok, hinv, hphase⟩ := ih.2 hlt
      exact ⟨hok, ⟨hinv.older, hinv.newer, hinv.single, hinv.visits, hinv.nodup, hinv.set,
        hinv.count, hinv.saved⟩, hphase⟩
  | rollup _ run ih =>
      refine ⟨(startRollup_ledger run).1.trans ih.1, fun hlt => ?_⟩
      obtain ⟨-, hle, -⟩ := startRollup_rest run
      obtain ⟨hok, hinv, -⟩ := ih.2 (Nat.lt_of_le_of_lt hle hlt)
      obtain ⟨hok', hinv'⟩ := startRollup_inv hok hinv run hlt
      exact ⟨hok', hinv', nofun⟩
  | write _ blocks _ run ih =>
      obtain ⟨hopened, hvol'⟩ := writeLog_same run
      refine ⟨hvol'.trans ih.1, fun hlt => ?_⟩
      obtain ⟨hok, hinv, -⟩ := ih.2 (hopened ▸ hlt)
      obtain ⟨hok', hinv', hthis⟩ := writeLog_inv hok hinv (ih.1.symm ▸ hvol) run
      exact ⟨hok', hinv', fun _ => hthis⟩
  | commit _ run ih =>
      have hopened : _ = _ := (commitDelta_freed run).opened
      refine ⟨(commitDelta_ledger run).1.trans ih.1, fun hlt => ?_⟩
      have hlt' := hopened ▸ hlt
      obtain ⟨hok, hinv, hthis⟩ := ih.2 hlt'
      obtain ⟨hok', -, hinv'⟩ := commitDelta_inv hok hlt' (hthis rfl) hinv run
      exact ⟨hok', hinv', nofun⟩

/-- As long as fewer than `2^32` log blocks have been opened since mount, the chain of the
committed superblock is intact. -/
theorem logchain_intact (hvol : volblocks ≤ 2 ^ 48)
    (h : Reachable Op.Owned (Commit.mount blocksize volblocks logchain logmap disk bitmap) phase sb)
    (hopened : sb.opened < 2 ^ 32) : ChainIntact sb :=
  ((h.inv hvol).2 hopened).2.1.intact

end Run

/-- Three commits, the last two with a rollup. The second rollup logs that block 10 is free. -/
theorem logchain_intact_two_rollups :
    ∃ sb : Sb, sb.super.logcount = 1 ∧ sb.super.logchain = 11 ∧ sb.bitmap 10 = false ∧
      ChainIntact sb := by
  have h0 : Reachable Op.Owned
      (mount 256 64 0 (fun _ => ⟨0, 0, 0, fun _ => 0⟩) (fun _ => none) fun _ => false) .idle _ :=
    .mount
  have h1 := h0.op (.log (.balloc 5 1)) nofun (by unfold Op.Owned; decide) rfl
  have h2 := (h1.write [10] nofun rfl).commit rfl
  have h3 := ((h2.rollup rfl).write [] nofun rfl).commit rfl
  have h4 := ((h3.rollup rfl).write [11] nofun rfl).commit rfl
  exact ⟨_, rfl, rfl, rfl, logchain_intact (by decide) h4 (by decide)⟩

/-! ## Past the wrap -/

/-- A rollup has deferred the only log block, 10, of index 0, and the delta logs on: `k` entries
are in the open log block, before `next`. -/
structure Spin (sb : Sb) (next k : ℕ) : Prop where
  blocksize : sb.log.blocksize = 256
  buf : ∃ i, sb.log.logbuf = some i
  pos : sb.log.logpos = 8 * k
  top : sb.log.logtop = 240
  next : sb.log.lognext = next
  this : sb.log.logthis = 1
  base : sb.log.logbase = 1
  chain : sb.log.logchain = 10
  defree : sb.defree = ⟨some ([], [⟨2 ^ 48 + 10, 0⟩])⟩
  bitmap : sb.bitmap 10 = true

section Wrap
variable {start sb : Sb} {next k : ℕ}

theorem Spin.log (h : Spin sb next k) (hk : k ≤ 30) :
    ∃ sb', (Op.log (.balloc 5 1)).run sb = some sb' ∧
      if k < 30 then Spin sb' next (k + 1) else Spin sb' (u32 (next + 1)) 1 := by
  obtain ⟨hbs, ⟨i, hbuf⟩, hpos, htop, hnext, hthis, hbase, hchain, hdefree, hbitmap⟩ := h
  by_cases hroom : k < 30
  · have hfit : ¬ sb.log.logtop < sb.log.logpos + 8 := by omega
    simp only [Op.run, Entry.log, logBalloc, logExtent, logBegin, if_neg hfit, logEnd, hbuf,
      if_pos hroom, Option.bind_eq_bind, Option.bind_some, Option.pure_def, Option.map_some,
      Option.some.injEq, exists_eq_left', Nat.reduceLT, if_true]
    refine ⟨hbs, ⟨i, rfl⟩, ?_, htop, hnext, hthis, hbase, hchain, hdefree, hbitmap⟩
    change sb.log.logpos + 8 = 8 * (k + 1)
    omega
  · have hfull : sb.log.logtop < sb.log.logpos + 8 := by omega
    have hle : ¬ sb.log.logtop < sb.log.logpos := by omega
    simp only [Op.run, Entry.log, logBalloc, logExtent, logBegin, if_pos hfull, logFinish, hbuf,
      if_neg hle, if_neg hroom, logEnd, logNext, logDrop, Option.bind_eq_bind, Option.bind_some,
      Option.pure_def, Option.map_some, Option.some.injEq, exists_eq_left', Nat.reduceLT, if_true]
    refine ⟨hbs, ⟨_, rfl⟩, rfl, ?_, ?_, hthis, hbase, hchain, hdefree, hbitmap⟩
    · change sb.log.blocksize - 16 = 240
      omega
    · exact congrArg (fun n => u32 (n + 1)) hnext

theorem Spin.step (h : Spin sb next k) (hk : k ≤ 30)
    (hr : Reachable Op.Owned start .rolled sb) :
    ∃ sb', Reachable Op.Owned start .rolled sb' ∧
      if k < 30 then Spin sb' next (k + 1) else Spin sb' (u32 (next + 1)) 1 := by
  obtain ⟨sb', hrun, hspin⟩ := h.log hk
  have hvalid : (Entry.balloc 5 1).Valid := by decide
  exact ⟨sb', hr.op (.log (.balloc 5 1)) nofun hvalid hrun, hspin⟩

theorem Spin.fill (h : Spin sb next k) (hk : k ≤ 30)
    (hr : Reachable Op.Owned start .rolled sb) :
    ∃ sb', Reachable Op.Owned start .rolled sb' ∧ Spin sb' next 30 := by
  induction hm : 30 - k generalizing sb k with
  | zero =>
      obtain rfl : k = 30 := by omega
      exact ⟨sb, hr, h⟩
  | succ m ih =>
      obtain ⟨sb', hr', hspin⟩ := h.step hk hr
      rw [if_pos (show k < 30 by omega)] at hspin
      exact ih hspin (by omega) hr' (by omega)

theorem Spin.open (h : Spin sb next k) (hk : k ≤ 30) (hnext : next < 2 ^ 32)
    (hr : Reachable Op.Owned start .rolled sb) (n : ℕ) :
    ∃ sb' k, k ≤ 30 ∧ Reachable Op.Owned start .rolled sb' ∧ Spin sb' (u32 (next + n)) k := by
  induction n with
  | zero => exact ⟨sb, k, hk, hr, (u32_of_lt hnext).symm ▸ h⟩
  | succ n ih =>
      obtain ⟨sb1, k1, hk1, hr1, h1⟩ := ih
      obtain ⟨sb2, hr2, h2⟩ := h1.fill hk1 hr1
      obtain ⟨sb3, hr3, h3⟩ := h2.step (Nat.le_refl _) hr2
      rw [if_neg (by omega)] at h3
      refine ⟨sb3, 1, by omega, hr3, ?_⟩
      have hindex : u32 (u32 (next + n) + 1) = u32 (next + (n + 1)) := by
        unfold u32
        omega
      exact hindex ▸ h3

theorem Spin.write (h : Spin sb 0 k) (hk : k ≤ 30) :
    ∃ sb1, writeLog sb [] = some sb1 ∧ sb1.log.lognext = 0 ∧ sb1.log.logbase = 1 ∧
      sb1.log.logchain = 10 ∧ sb1.defree = sb.defree ∧ sb1.bitmap = sb.bitmap := by
  obtain ⟨hbs, ⟨i, hbuf⟩, hpos, htop, hnext, hthis, hbase, hchain, -, -⟩ := h
  have hle : ¬ sb.log.logtop < sb.log.logpos := by omega
  simp only [writeLog, logFinish, hbuf, if_neg hle, logDrop, writeBlocks, hnext, hthis,
    Nat.not_lt_zero, if_false, Option.bind_eq_bind, Option.bind_some, Option.some.injEq]
  exact ⟨_, rfl, rfl, hbase, hchain, rfl, rfl⟩

/-- Then `commit_delta` names block 10 for the log block of index `2^32 - 1`, and frees it. -/
theorem commitDelta_wrapped (hnext : sb.log.lognext = 0) (hbase : sb.log.logbase = 1)
    (hchain : sb.log.logchain = 10) (hdefree : sb.defree = ⟨some ([], [⟨2 ^ 48 + 10, 0⟩])⟩)
    (hbitmap : sb.bitmap 10 = true) :
    ∃ sb', commitDelta sb = some sb' ∧ sb'.super.logcount = 2 ^ 32 - 1 ∧
      sb'.saved.lognext = 0 ∧ sb'.super.logchain = 10 ∧ sb'.owner 10 = none := by
  have hblock : (2 ^ 48 + 10) % 2 ^ 48 = 10 := by decide
  have hcount : (2 ^ 48 + 10) / 2 ^ 48 = 1 := by decide
  simp only [commitDelta, saveSb, Sb.record, hdefree, unstash, unstashPages, drain, retireBfree,
    Sb.bfree, Deferred.block, Deferred.count, hblock, hcount, hnext, hbase, hchain,
    List.range'_one, List.all_cons, List.all_nil, hbitmap, Bool.and_self, if_true, Sb.mark,
    Option.bind_eq_bind, Option.bind_some, Option.pure_def, ne_eq, not_true_eq_false, if_false,
    Option.some.injEq, exists_eq_left']
  exact ⟨rfl, trivial, trivial, rfl⟩

/-- After `2^32` log blocks the chain no longer reaches the newest log block. -/
theorem logchain_wraps :
    ∃ sb : Sb, Reachable Op.Owned
        (mount 256 64 0 (fun _ => ⟨0, 0, 0, fun _ => 0⟩) (fun _ => none) fun _ => false) .idle sb ∧
      ¬ ChainIntact sb := by
  have h0 : Reachable Op.Owned
      (mount 256 64 0 (fun _ => ⟨0, 0, 0, fun _ => 0⟩) (fun _ => none) fun _ => false) .idle _ :=
    .mount
  have h1 := h0.op (.log (.balloc 5 1)) nofun (by unfold Op.Owned; decide) rfl
  have h2 := (h1.write [10] nofun rfl).commit rfl
  have h3 := ((h2.rollup rfl).write [] nofun rfl).commit rfl
  have h4 := h3.rollup rfl
  have hstart : ∃ sb, Reachable Op.Owned _ .rolled sb ∧ Spin sb 2 1 :=
    ⟨_, h4, rfl, ⟨_, rfl⟩, rfl, rfl, rfl, rfl, rfl, rfl, rfl, rfl⟩
  obtain ⟨sb0, hr0, hspin0⟩ := hstart
  obtain ⟨sb, k, hk, hr, hspin⟩ := hspin0.open (by omega) (by omega) hr0 (2 ^ 32 - 2)
  obtain ⟨sb1, hwrite, hnext, hbase, hchain, hdefree, hbitmap⟩ := Spin.write hspin hk
  obtain ⟨sb2, hcommit, hcount, hnext2, hchain2, howner⟩ := commitDelta_wrapped hnext hbase hchain
    (hdefree.trans hspin.defree) (hbitmap ▸ hspin.bitmap)
  refine ⟨sb2, (hr.write [] nofun hwrite).commit hcommit, ?_⟩
  rintro ⟨-, bs, hvisits, -, -⟩
  have howner' := hvisits.newest (by rw [hcount]; decide)
  rw [hchain2, howner] at howner'
  cases howner'

end Wrap

end Tux3.Commit
