import Tux3.LogSession

/-!
# The log round trip

The invariant of a session, and from it what replay returns.
-/
namespace Tux3.Log

open Segment

/-- The state of a session with the log blocks `groups` and the chain `chain` on disk. -/
structure Inv (blocksize : ℕ) (alloc : ℕ → ℕ) (w : Written) (groups : List (List Entry))
    (chain : List (ℕ × LogBlock)) : Prop where
  size : w.log.blocksize = blocksize
  opened : w.opened = groups.length
  lognext : w.log.lognext = groups.length
  logbase : w.log.logbase = 0
  marks : w.marks = groupMarks groups
  valid : ∀ g ∈ groups, ∀ e ∈ g, e.Valid
  filled : Filled w.log groups
  this : w.log.logthis = chain.length
  onDisk : Chain w.disk w.log.logchain chain
  cached : Cached w.log.logmap chain
  addrs : ∀ x ∈ chain, ∃ i < w.allocated, x.1 = alloc i

/-- The state between two deltas: every log block is on the chain. -/
structure Done (blocksize : ℕ) (alloc : ℕ → ℕ) (w : Written) (groups : List (List Entry))
    (chain : List (ℕ × LogBlock)) : Prop extends Inv blocksize alloc w groups chain where
  shut : Shut w.log groups
  all : chain.length = groups.length

theorem u32_succ_ne (n : ℕ) : u32 (n + 1) ≠ n := by
  unfold u32
  omega

theorem blockMarks_concat (block pos : ℕ) (g : List Entry) (e : Entry) :
    blockMarks block pos (g ++ [e]) =
      blockMarks block pos g ++ [⟨block, pos + (encodeAll g).length, e⟩] := by
  induction g generalizing pos with
  | nil => rfl
  | cons x g ih =>
      rw [List.cons_append, blockMarks, ih, blockMarks, List.cons_append, encodeAll, encodeAll,
        List.flatMap_cons, List.length_append, Nat.add_assoc]

theorem mount_done (blocksize logchain : ℕ) (alloc : ℕ → ℕ) (logmap : ℕ → LogBlock) (disk : Disk) :
    Done blocksize alloc (mount blocksize logchain logmap disk) [] [] where
  size := rfl
  opened := rfl
  lognext := rfl
  logbase := rfl
  marks := rfl
  valid := fun _ hg => nomatch hg
  filled := Or.inl ⟨rfl, rfl, rfl, trivial, Nat.le_refl _⟩
  this := rfl
  onDisk := .nil _
  cached := trivial
  addrs := fun _ hx => nomatch hx
  shut := ⟨rfl, rfl, rfl, trivial, Nat.le_refl _⟩
  all := rfl

section Invariant
variable {blocksize : ℕ} {alloc : ℕ → ℕ} {w w' : Written} {groups : List (List Entry)}
  {chain : List (ℕ × LogBlock)}

theorem entry_eq {e : Entry} (h : w.entry e = some w') :
    ∃ log, e.log w.log = some log ∧ w' = { w with
      log := log
      opened := if log.lognext = w.log.lognext then w.opened else w.opened + 1
      marks := w.marks ++
        [⟨(if log.lognext = w.log.lognext then w.opened else w.opened + 1) - 1,
          log.logpos - e.encode.length, e⟩] } := by
  simp only [Written.entry, Option.bind_eq_bind, Option.bind_eq_some_iff, Option.pure_def,
    Option.some.injEq] at h
  obtain ⟨log, hlog, rfl⟩ := h
  exact ⟨log, hlog, rfl⟩

/-- Logging an entry extends the newest group or starts one. -/
theorem entry_inv (inv : Inv blocksize alloc w groups chain) (hbs : blocksize ≤ 2 ^ 16) {e : Entry}
    (hv : e.Valid) (h : w.entry e = some w') (hlt : w'.opened < 2 ^ 32) :
    ∃ groups', Inv blocksize alloc w' groups' chain := by
  obtain ⟨log, hlog, rfl⟩ := entry_eq h
  rw [log_eq hv.asserted, Option.bind_eq_some_iff] at hlog
  obtain ⟨log1, hbegin, hend⟩ := hlog
  have hpos : 0 < logsize e.code := by
    cases e.code <;> decide
  -- the frame keeps the part of the invariant that is about earlier deltas
  have hkeep : ∀ log2, Frame w.log log2 → Chain w.disk log2.logchain chain ∧
      Cached log2.logmap chain ∧ log2.logthis = chain.length := by
    intro log2 hf
    refine ⟨hf.logchain.symm ▸ inv.onDisk, inv.cached.congr fun i hi => hf.kept i ?_,
      hf.logthis.trans inv.this⟩
    rw [inv.this]
    exact hi
  rcases logBegin_filled hpos (inv.size.symm ▸ hbs) inv.filled inv.lognext hbegin with
    ⟨rfl, g, older, rfl, ho⟩ | ⟨ho, hframe, hnext⟩
  · obtain ⟨log2, heq, ho2, hframe2, hnext2, hpos2⟩ := logEnd_open ho e
    rw [heq] at hend
    cases hend
    obtain ⟨hchain, hcached, hthis⟩ := hkeep _ hframe2
    refine ⟨(g ++ [e]) :: older, hframe2.blocksize.trans inv.size, ?_,
      hnext2.trans inv.lognext, hframe2.logbase.trans inv.logbase, ?_, ?_,
      Or.inr ⟨_, _, rfl, ho2⟩, hthis, hchain, hcached, inv.addrs⟩
    · simp only [hnext2, if_true]
      exact inv.opened
    · simp only [hnext2, if_true, hpos2, inv.opened, inv.marks, List.length_cons,
        Nat.add_sub_cancel, groupMarks, blockMarks_concat, List.append_assoc, Nat.zero_add]
    · intro x hx y hy
      cases List.mem_cons.mp hx with
      | inl hxg =>
          subst hxg
          cases List.mem_append.mp hy with
          | inl hyg => exact inv.valid g List.mem_cons_self y hyg
          | inr hye => exact List.mem_singleton.mp hye ▸ hv
      | inr hxo => exact inv.valid x (List.mem_cons_of_mem _ hxo) y hy
  · obtain ⟨log2, heq, ho2, hframe2, hnext2, hpos2⟩ := logEnd_open ho e
    rw [heq] at hend
    cases hend
    obtain ⟨hchain, hcached, hthis⟩ := hkeep _ (hframe.trans hframe2)
    have hne : ¬ log.lognext = w.log.lognext := by
      rw [hnext2, hnext, inv.lognext]
      exact u32_succ_ne _
    simp only [if_neg hne] at hlt
    rw [inv.opened] at hlt
    refine ⟨[e] :: groups, (hframe.trans hframe2).blocksize.trans inv.size, ?_, ?_,
      (hframe.trans hframe2).logbase.trans inv.logbase, ?_, ?_, Or.inr ⟨_, _, rfl, ho2⟩, hthis,
      hchain, hcached, inv.addrs⟩
    · simp only [if_neg hne, inv.opened, List.length_cons]
    · rw [hnext2, hnext, u32_of_lt hlt, List.length_cons]
    · simp only [if_neg hne, hpos2, inv.opened, inv.marks, Nat.add_sub_cancel, groupMarks,
        blockMarks]
      rfl
    · intro x hx y hy
      cases List.mem_cons.mp hx with
      | inl hxg =>
          subst hxg
          exact List.mem_singleton.mp hy ▸ hv
      | inr hxo => exact inv.valid x hxo y hy

theorem entry_opened_le {e : Entry} (h : w.entry e = some w') : w.opened ≤ w'.opened := by
  obtain ⟨log, -, rfl⟩ := entry_eq h
  simp only
  split
  · exact Nat.le_refl _
  · exact Nat.le_succ _

theorem entries_opened_le {es : List Entry} (h : w.entries es = some w') :
    w.opened ≤ w'.opened := by
  induction es generalizing w with
  | nil =>
      cases h
      exact Nat.le_refl _
  | cons e es ih =>
      simp only [Written.entries, Option.bind_eq_bind, Option.bind_eq_some_iff] at h
      obtain ⟨w1, h1, h⟩ := h
      exact Nat.le_trans (entry_opened_le h1) (ih h)

theorem entries_inv (inv : Inv blocksize alloc w groups chain) (hbs : blocksize ≤ 2 ^ 16)
    {es : List Entry} (hv : ∀ e ∈ es, e.Valid) (h : w.entries es = some w')
    (hlt : w'.opened < 2 ^ 32) : ∃ groups', Inv blocksize alloc w' groups' chain := by
  induction es generalizing w groups with
  | nil =>
      cases h
      exact ⟨groups, inv⟩
  | cons e es ih =>
      simp only [Written.entries, Option.bind_eq_bind, Option.bind_eq_some_iff] at h
      obtain ⟨w1, h1, h⟩ := h
      obtain ⟨groups1, inv1⟩ := entry_inv inv hbs (hv e List.mem_cons_self) h1
        (Nat.lt_of_le_of_lt (entries_opened_le h) hlt)
      exact ih inv1 (fun x hx => hv x (List.mem_cons_of_mem _ hx)) h

/-! ## Writing the log blocks -/

/-- The loop of `write_log` puts the remaining log blocks on the chain. -/
theorem writeBlocks_chain {log : LogSb} {disk : Disk} {n start : ℕ}
    (halloc : Function.Injective alloc) (hshut : Shut log groups)
    (hnext : log.lognext = groups.length) (hn : chain.length + n = groups.length)
    (hchain : Chain disk log.logchain chain) (hcached : Cached log.logmap chain)
    (haddrs : ∀ x ∈ chain, ∃ i < start, x.1 = alloc i) :
    ∃ log' disk' chain',
      writeBlocks log disk chain.length ((List.range' start n).map alloc) = some (log', disk') ∧
      chain'.length = groups.length ∧ Chain disk' log'.logchain chain' ∧
      Cached log'.logmap chain' ∧ (∀ x ∈ chain', ∃ i < start + n, x.1 = alloc i) ∧
      Shut log' groups ∧ log'.lognext = log.lognext ∧ log'.logthis = log.lognext ∧
      log'.logbase = log.logbase ∧ log'.blocksize = log.blocksize := by
  induction n generalizing log disk chain start with
  | zero =>
      refine ⟨{ log with logthis := log.lognext }, disk, chain,
        by rw [List.range'_zero, List.map_nil, writeBlocks, if_neg (by omega)],
        hn, hchain, hcached, haddrs, ⟨hshut.logbuf, hshut.logpos, hshut.logtop, hshut.stored, ?_⟩,
        rfl, rfl, rfl, rfl⟩
      exact Nat.le_of_eq hnext
  | succ n ih =>
      have hlt : chain.length < groups.length := by omega
      have hfresh : ∀ x ∈ chain, x.1 ≠ alloc start := by
        intro x hx heq
        obtain ⟨i, hi, hxi⟩ := haddrs x hx
        exact Nat.ne_of_lt hi (halloc (hxi.symm.trans heq))
      have hsame : ∀ i, Same (Function.update log.logmap chain.length
          { log.logmap chain.length with logchain := log.logchain } i) (log.logmap i) := by
        intro i
        by_cases hi : i = chain.length
        · rw [hi, Function.update_self]
          exact ⟨rfl, rfl, rfl⟩
        · rw [Function.update_of_ne hi]
          exact ⟨rfl, rfl, rfl⟩
      rw [List.range'_succ, List.map_cons, writeBlocks, if_pos (by omega), writeBlock,
        if_pos (hshut.stored.magic hlt)]
      simp only [Option.bind_eq_bind, Option.bind_some]
      have hstep := @ih
        ((alloc start, { log.logmap chain.length with logchain := log.logchain }) :: chain)
        { log with
          logmap := Function.update log.logmap chain.length
            { log.logmap chain.length with logchain := log.logchain }
          logchain := alloc start }
        (Function.update disk (alloc start)
          (some { log.logmap chain.length with logchain := log.logchain }))
        (start + 1)
        ⟨hshut.logbuf, hshut.logpos, hshut.logtop, hshut.stored.same fun i _ => hsame i,
          hshut.this⟩ hnext (by rw [List.length_cons]; omega)
        (.cons (Function.update_self _ _ _) (hchain.write hfresh _)) ⟨?_, ?_⟩ ?_
      · rw [List.length_cons, show start + 1 + n = start + (n + 1) by omega] at hstep
        exact hstep
      · simp only [Function.update_self]
        exact ⟨rfl, rfl, rfl⟩
      · exact hcached.congr fun i hi => Function.update_of_ne (Nat.ne_of_lt hi) _ _
      · intro x hx
        cases List.mem_cons.mp hx with
        | inl hxe => exact ⟨start, Nat.lt_succ_self _, hxe ▸ rfl⟩
        | inr hxo =>
            obtain ⟨i, hi, hxi⟩ := haddrs x hxo
            exact ⟨i, Nat.lt_succ_of_lt hi, hxi⟩

theorem writeLog_done (inv : Inv blocksize alloc w groups chain) (hbs : blocksize ≤ 2 ^ 16)
    (halloc : Function.Injective alloc) {log : LogSb} (hfin : logFinish w.log = some log) :
    ∃ w' chain', w.commit alloc = some w' ∧ Done blocksize alloc w' groups chain' := by
  obtain ⟨hshut, hframe, hnext⟩ := logFinish_filled (inv.size.symm ▸ hbs) inv.filled hfin
  have hthis : log.logthis = chain.length := hframe.logthis.trans inv.this
  have hle : chain.length ≤ groups.length := hthis ▸ hshut.this
  have hn : chain.length + (w.log.lognext - w.log.logthis) = groups.length := by
    rw [inv.lognext, inv.this]
    omega
  obtain ⟨log', disk', chain', hwrite, hlen, hchain, hcached, haddrs, hshut', hnext', hthis', hbase,
    hsize⟩ := writeBlocks_chain halloc hshut (hnext.trans inv.lognext) hn
      (hframe.logchain.symm ▸ inv.onDisk)
      (inv.cached.congr fun i hi => hframe.kept i (inv.this.symm ▸ hi)) inv.addrs
  have hlognext : log'.lognext = groups.length := (hnext'.trans hnext).trans inv.lognext
  refine ⟨{ w with
    log := log'
    disk := disk'
    allocated := w.allocated + (w.log.lognext - w.log.logthis) }, chain', ?_, ⟨⟨?_, inv.opened,
      hlognext, ?_, inv.marks, inv.valid, Or.inl hshut', ?_, hchain, hcached, haddrs⟩, hshut', hlen⟩⟩
  · rw [Written.commit, writeLog, hfin]
    simp only [Option.bind_eq_bind, Option.bind_some, hthis, hwrite]
    rfl
  · exact hsize.trans (hframe.blocksize.trans inv.size)
  · exact hbase.trans (hframe.logbase.trans inv.logbase)
  · rw [hthis', hnext, inv.lognext, hlen]

theorem commit_finish (h : w.commit alloc = some w') : ∃ log, logFinish w.log = some log := by
  simp only [Written.commit, writeLog, Option.bind_eq_bind, Option.bind_eq_some_iff] at h
  obtain ⟨-, ⟨log, hlog, -⟩, -⟩ := h
  exact ⟨log, hlog⟩

theorem commit_done (inv : Inv blocksize alloc w groups chain) (hbs : blocksize ≤ 2 ^ 16)
    (halloc : Function.Injective alloc) (h : w.commit alloc = some w') :
    ∃ chain', Done blocksize alloc w' groups chain' := by
  obtain ⟨log, hfin⟩ := commit_finish h
  obtain ⟨w1, chain', h1, hdone⟩ := writeLog_done inv hbs halloc hfin
  rw [h, Option.some.injEq] at h1
  exact ⟨chain', h1 ▸ hdone⟩

theorem commit_opened (h : w.commit alloc = some w') :
    w'.opened = w.opened ∧ w'.marks = w.marks := by
  simp only [Written.commit, Option.bind_eq_bind, Option.bind_eq_some_iff, Option.pure_def,
    Option.some.injEq] at h
  obtain ⟨x, -, rfl⟩ := h
  exact ⟨rfl, rfl⟩

theorem session_opened_le {deltas : List (List Entry)} (h : w.session alloc deltas = some w') :
    w.opened ≤ w'.opened := by
  induction deltas generalizing w with
  | nil =>
      cases h
      exact Nat.le_refl _
  | cons delta deltas ih =>
      simp only [Written.session, Option.bind_eq_bind, Option.bind_eq_some_iff] at h
      obtain ⟨w1, h1, w2, h2, h⟩ := h
      have := entries_opened_le h1
      have := (commit_opened h2).1
      have := ih h
      omega

theorem session_done (hdone : Done blocksize alloc w groups chain) (hbs : blocksize ≤ 2 ^ 16)
    (halloc : Function.Injective alloc) {deltas : List (List Entry)}
    (hv : ∀ delta ∈ deltas, ∀ e ∈ delta, e.Valid) (h : w.session alloc deltas = some w')
    (hlt : w'.opened < 2 ^ 32) : ∃ groups' chain', Done blocksize alloc w' groups' chain' := by
  induction deltas generalizing w groups chain with
  | nil =>
      cases h
      exact ⟨groups, chain, hdone⟩
  | cons delta deltas ih =>
      simp only [Written.session, Option.bind_eq_bind, Option.bind_eq_some_iff] at h
      obtain ⟨w1, h1, w2, h2, h⟩ := h
      have hlt1 : w1.opened < 2 ^ 32 := by
        have := (commit_opened h2).1
        have := session_opened_le h
        omega
      obtain ⟨groups1, inv1⟩ := entries_inv hdone.toInv hbs (hv delta List.mem_cons_self) h1 hlt1
      obtain ⟨chain2, hdone2⟩ := commit_done inv1 hbs halloc h2
      exact ih hdone2 (fun d hd => hv d (List.mem_cons_of_mem _ hd)) h

theorem entries_marks {es : List Entry} (h : w.entries es = some w') :
    w'.marks.map Mark.entry = w.marks.map Mark.entry ++ es := by
  induction es generalizing w with
  | nil =>
      cases h
      exact (List.append_nil _).symm
  | cons e es ih =>
      simp only [Written.entries, Option.bind_eq_bind, Option.bind_eq_some_iff] at h
      obtain ⟨w1, h1, h⟩ := h
      obtain ⟨log, -, rfl⟩ := entry_eq h1
      rw [ih h, List.map_append, List.append_assoc]
      rfl

theorem session_marks {deltas : List (List Entry)} (h : w.session alloc deltas = some w') :
    w'.marks.map Mark.entry = w.marks.map Mark.entry ++ deltas.flatten := by
  induction deltas generalizing w with
  | nil =>
      cases h
      exact (List.append_nil _).symm
  | cons delta deltas ih =>
      simp only [Written.session, Option.bind_eq_bind, Option.bind_eq_some_iff] at h
      obtain ⟨w1, h1, w2, h2, h⟩ := h
      rw [ih h, (commit_opened h2).2, entries_marks h1, List.append_assoc, List.flatten_cons]

end Invariant

/-! ## What replay returns -/

theorem mem_blockMarks {block pos : ℕ} {g : List Entry} {e : Entry} :
    (∃ m ∈ blockMarks block pos g, m.entry = e) ↔ e ∈ g := by
  induction g generalizing pos with
  | nil => simp only [blockMarks, List.not_mem_nil, false_and, exists_false]
  | cons x g ih =>
      rw [blockMarks, List.mem_cons, ← @ih (pos + x.encode.length)]
      constructor
      · rintro ⟨m, hm, rfl⟩
        cases List.mem_cons.mp hm with
        | inl h => exact Or.inl (h ▸ rfl)
        | inr h => exact Or.inr ⟨m, h, rfl⟩
      · rintro (rfl | ⟨m, hm, rfl⟩)
        · exact ⟨_, List.mem_cons_self, rfl⟩
        · exact ⟨m, List.mem_cons_of_mem _ hm, rfl⟩

theorem mem_groupMarks {groups : List (List Entry)} {e : Entry} :
    (∃ m ∈ groupMarks groups, m.entry = e) ↔ ∃ g ∈ groups, e ∈ g := by
  induction groups with
  | nil => simp only [groupMarks, List.not_mem_nil, false_and, exists_false]
  | cons g older ih =>
      simp only [groupMarks, List.mem_append, or_and_right, exists_or, ih, mem_blockMarks,
        List.mem_cons, exists_eq_left]
      exact or_comm

section Outcome
variable {blocksize : ℕ} {alloc : ℕ → ℕ} {w : Written} {groups : List (List Entry)}
  {chain : List (ℕ × LogBlock)}

theorem Done.logcount_eq (h : Done blocksize alloc w groups chain)
    (hlt : groups.length < 2 ^ 32) : logcount w.log = groups.length := by
  rw [logcount, h.lognext, h.logbase]
  unfold u32
  omega

theorem seen_update (m : Mark) : (m.seen Entry.secondFields).update = m.entry.update := by
  cases m with
  | mk block pos entry => cases entry <;> rfl

theorem Done.load (h : Done blocksize alloc w groups chain) (hlt : groups.length < 2 ^ 31)
    (cached : ℕ → LogBlock) :
    ∃ loaded, loadLog w.disk (loadCount groups.length) w.log.logchain cached = .ok loaded ∧
      AllStored loaded groups := by
  obtain ⟨loaded, hload, hstored, -⟩ :=
    loadLog_chain h.onDisk h.cached h.shut.stored h.all cached
  rw [h.all] at hload
  exact ⟨loaded, by rw [loadCount, if_pos hlt, hload], hstored⟩

theorem replay_known (h : Done blocksize alloc w groups chain) (hlt : groups.length < 2 ^ 31)
    (hk : ∀ g ∈ groups, ∀ e ∈ g, ¬ e.Unread) (cached : ℕ → LogBlock) (sb : Balloc.Sb) :
    ReplaysExactly w (w.marks.map Mark.entry) cached sb := by
  obtain ⟨loaded, hload, hstored⟩ := h.load hlt cached
  have hfirst := walk_known first_reads hstored h.valid hk
  have hsecond := walk_known second_reads hstored h.valid hk
  rw [ReplaysExactly, h.logcount_eq (by omega)]
  simp only [replay, hload, hfirst, hsecond, h.marks, List.filterMap_map, true_and, if_true]
  exact List.filterMap_congr fun m _ => seen_update m

theorem replay_unread (h : Done blocksize alloc w groups chain) (hlt : groups.length < 2 ^ 31)
    (hu : ∃ g ∈ groups, ∃ e ∈ g, e.Unread) (cached : ℕ → LogBlock) (sb : Balloc.Sb) :
    (replay w.disk w.log.logchain (logcount w.log) cached sb).ret = -einval := by
  obtain ⟨loaded, hload, hstored⟩ := h.load hlt cached
  have hfirst := walk_unread hstored h.valid hu
  rw [h.logcount_eq (by omega)]
  simp only [replay, hload]
  cases hw : walk firstSwitch loaded groups.length 0 with
  | mk seen ok =>
      rw [hw] at hfirst
      cases hfirst
      rfl

/-- A log block no entry of which `replay` knows. -/
def junk : LogBlock := ⟨magicLog, 1, 0, fun _ => 0⟩

theorem replay_unloaded {disk : Disk} {c n : ℕ} (hn : 2 ^ 31 ≤ n) (sb : Balloc.Sb) :
    (replay disk c n (fun _ => junk) sb).ret = -einval := by
  obtain ⟨k, rfl⟩ := Nat.exists_eq_succ_of_ne_zero (show n ≠ 0 by omega)
  simp only [replay, loadCount, if_neg (Nat.not_lt.mpr hn), loadLog]
  rfl

/-- Replay only reports log blocks below `logcount`. -/
theorem replay_block {disk : Disk} {c n : ℕ} {cached : ℕ → LogBlock} {sb : Balloc.Sb} {s : Seen}
    (h : s ∈ (replay disk c n cached sb).second) : s.block < n := by
  rw [replay] at h
  cases hload : loadLog disk (loadCount n) c cached with
  | error err =>
      rw [hload] at h
      cases h
  | ok logmap =>
      rw [hload] at h
      simp only at h
      cases hw : walk firstSwitch logmap n 0 with
      | mk first ok =>
          rw [hw] at h
          cases ok with
          | false => cases h
          | true =>
              have := walk_block h
              omega

end Outcome

/-! ## Counting the log blocks

These facts do not need `lognext` to be short of wrapping. -/

structure Counted (blocksize : ℕ) (w : Written) : Prop where
  size : w.log.blocksize = blocksize
  logbase : w.log.logbase = 0
  lognext : w.log.lognext = u32 w.opened
  shut : w.log.logbuf = none → w.log.logpos = 0 ∧ w.log.logtop = 0
  last : 0 < w.opened → ∃ m ∈ w.marks, m.block + 1 = w.opened

/-- `room` bytes are left in the open log block. -/
def Fits (log : LogSb) (room : ℕ) : Prop := log.logpos + room = log.logtop

section Counting
variable {blocksize : ℕ} {alloc : ℕ → ℕ} {w w' : Written} {log log' : LogSb}

theorem logFinish_fields (h : logFinish log = some log') :
    log'.lognext = log.lognext ∧ log'.blocksize = log.blocksize ∧ log'.logbase = log.logbase ∧
      log'.logbuf = none ∧ (log.logbuf = none → log' = log) ∧
      (log.logbuf ≠ none → log'.logpos = 0 ∧ log'.logtop = 0) := by
  rw [logFinish] at h
  cases hb : log.logbuf with
  | none =>
      simp only [hb, Option.some.injEq] at h
      subst h
      exact ⟨rfl, rfl, rfl, hb, fun _ => rfl, fun h => absurd rfl h⟩
  | some index =>
      simp only [hb] at h
      split at h
      · cases h
      · rw [Option.some.injEq] at h
        subst h
        exact ⟨rfl, rfl, rfl, rfl, fun hnone => absurd hnone (Option.some_ne_none index),
          fun _ => ⟨rfl, rfl⟩⟩

theorem logFinish_total (h : log.logpos ≤ log.logtop) : ∃ log', logFinish log = some log' := by
  rw [logFinish]
  cases log.logbuf with
  | none => exact ⟨log, rfl⟩
  | some index =>
      simp only
      rw [if_neg (Nat.not_lt.mpr h)]
      exact ⟨_, rfl⟩

theorem logBegin_fields {n : ℕ} (h : logBegin log n = some log') :
    (log' = log ∧ log.logpos + n ≤ log.logtop) ∨
      (log.logtop < log.logpos + n ∧ log'.lognext = u32 (log.lognext + 1) ∧
        log'.blocksize = log.blocksize ∧ log'.logbase = log.logbase ∧ log'.logpos = 0 ∧
        log'.logtop = log.blocksize - headerSize ∧ ∃ index, log'.logbuf = some index) := by
  rw [logBegin] at h
  split at h
  · rename_i hfull
    simp only [Option.bind_eq_bind, Option.bind_eq_some_iff, Option.pure_def,
      Option.some.injEq] at h
    obtain ⟨log1, hfin, rfl⟩ := h
    obtain ⟨hnext, hsize, hbase, -⟩ := logFinish_fields hfin
    refine Or.inr ⟨hfull, ?_, hsize, hbase, rfl, ?_, log1.lognext, rfl⟩
    · rw [← hnext]
      rfl
    · rw [← hsize]
      rfl
  · cases h
    exact Or.inl ⟨rfl, by omega⟩

theorem logBegin_total {n : ℕ} (h : log.logpos ≤ log.logtop) : ∃ log', logBegin log n = some log' := by
  rw [logBegin]
  split
  · obtain ⟨log1, hfin⟩ := logFinish_total h
    exact ⟨_, by rw [hfin]; rfl⟩
  · exact ⟨log, rfl⟩

theorem logEnd_fields {es : List Byte} (h : logEnd log es = some log') :
    log'.lognext = log.lognext ∧ log'.blocksize = log.blocksize ∧ log'.logbase = log.logbase ∧
      log'.logbuf = log.logbuf ∧ log.logbuf ≠ none ∧ log'.logpos = log.logpos + es.length ∧
      log'.logtop = log.logtop := by
  simp only [logEnd, Option.bind_eq_bind, Option.bind_eq_some_iff, Option.pure_def,
    Option.some.injEq] at h
  obtain ⟨index, hb, rfl⟩ := h
  refine ⟨rfl, rfl, rfl, rfl, ?_, rfl, rfl⟩
  rw [hb]
  exact Option.some_ne_none index

theorem mem_concat_self (w : Written) (m : Mark) : m ∈ w.marks ++ [m] :=
  List.mem_append_right _ List.mem_cons_self

theorem entry_counted (hc : Counted blocksize w) {e : Entry} (hv : e.Valid)
    (h : w.entry e = some w') : Counted blocksize w' := by
  obtain ⟨log, hlog, rfl⟩ := entry_eq h
  rw [log_eq hv.asserted, Option.bind_eq_some_iff] at hlog
  obtain ⟨log1, hbegin, hend⟩ := hlog
  obtain ⟨hnext, hsize, hbase, hbuf, hopen, -, -⟩ := logEnd_fields hend
  rcases logBegin_fields hbegin with ⟨rfl, -⟩ | ⟨-, hnext1, hsize1, hbase1, -⟩
  · refine ⟨hsize.trans hc.size, hbase.trans hc.logbase, ?_,
      fun hn => absurd (hbuf.symm.trans hn) hopen, fun hpos => ?_⟩
    · simp only [hnext, if_true]
      exact hc.lognext
    · simp only [hnext, if_true] at hpos ⊢
      obtain ⟨m, hm, heq⟩ := hc.last hpos
      exact ⟨m, List.mem_append_left _ hm, heq⟩
  · have hne : ¬ log.lognext = w.log.lognext := by
      rw [hnext, hnext1]
      exact u32_succ_ne _
    simp only [if_neg hne]
    refine ⟨hsize.trans (hsize1.trans hc.size), hbase.trans (hbase1.trans hc.logbase), ?_,
      fun hn => absurd (hbuf.symm.trans hn) hopen,
      fun _ => ⟨_, mem_concat_self w _, rfl⟩⟩
    rw [hnext, hnext1, hc.lognext, u32, u32, Nat.mod_add_mod, u32]

/-- An entry that `replay` knows is logged, and fills the log as `fill` says. -/
theorem entry_total (hbs : 42 ≤ blocksize) (hc : Counted blocksize w) {room : ℕ}
    (hf : Fits w.log room) {e : Entry} (hv : e.Valid) (hk : ¬ e.Unread) :
    ∃ w', w.entry e = some w' ∧ w'.opened = (fill blocksize (w.opened, room) e).1 ∧
      Fits w'.log (fill blocksize (w.opened, room) e).2 := by
  unfold Fits at hf
  have hsize := logsize_le e.code
  have hlen := encode_length hk
  have hpos := encode_length_pos e
  obtain ⟨log1, hbegin⟩ := @logBegin_total w.log (logsize e.code) (by omega)
  have hcases := logBegin_fields hbegin
  have hopen : ∃ index, log1.logbuf = some index := by
    rcases hcases with ⟨rfl, hroom⟩ | ⟨-, -, -, -, -, -, hbuf⟩
    · cases hb : w.log.logbuf with
      | none =>
          have := hc.shut hb
          omega
      | some index => exact ⟨index, rfl⟩
    · exact hbuf
  obtain ⟨index, hbuf⟩ := hopen
  obtain ⟨log2, hend⟩ : ∃ log2, logEnd log1 e.encode = some log2 := ⟨_, logEnd_eq hbuf _⟩
  obtain ⟨hnext2, -, -, -, -, hpos2, htop2⟩ := logEnd_fields hend
  have hlog : e.log w.log = some log2 := by
    rw [log_eq hv.asserted, hbegin, Option.bind_some, hend]
  refine ⟨_, by rw [Written.entry, hlog]; rfl, ?_⟩
  rcases hcases with ⟨rfl, hroom⟩ | ⟨hfull, hnext, -, -, hpos1, htop1, -⟩
  · rw [fill, if_neg (show ¬ room < logsize e.code by omega)]
    refine ⟨if_pos hnext2, ?_⟩
    simp only [Fits]
    omega
  · rw [fill, if_pos (show room < logsize e.code by omega)]
    refine ⟨if_neg ?_, ?_⟩
    · rw [hnext2, hnext]
      exact u32_succ_ne _
    · have := hc.size
      unfold headerSize at htop1 ⊢
      simp only [Fits]
      omega

theorem entries_counted (hc : Counted blocksize w) {es : List Entry} (hv : ∀ e ∈ es, e.Valid)
    (h : w.entries es = some w') : Counted blocksize w' := by
  induction es generalizing w with
  | nil =>
      cases h
      exact hc
  | cons e es ih =>
      simp only [Written.entries, Option.bind_eq_bind, Option.bind_eq_some_iff] at h
      obtain ⟨w1, h1, h⟩ := h
      exact ih (entry_counted hc (hv e List.mem_cons_self) h1)
        (fun x hx => hv x (List.mem_cons_of_mem _ hx)) h

theorem entries_total (hbs : 42 ≤ blocksize) (hc : Counted blocksize w) {room : ℕ}
    (hf : Fits w.log room) {es : List Entry} (hv : ∀ e ∈ es, e.Valid) (hk : ∀ e ∈ es, ¬ e.Unread) :
    ∃ w', w.entries es = some w' ∧ w'.opened = (es.foldl (fill blocksize) (w.opened, room)).1 ∧
      w'.log.logpos ≤ w'.log.logtop := by
  induction es generalizing w room with
  | nil =>
      refine ⟨w, rfl, rfl, ?_⟩
      unfold Fits at hf
      omega
  | cons e es ih =>
      have hve := hv e List.mem_cons_self
      obtain ⟨w1, h1, hopened, hf1⟩ := entry_total hbs hc hf hve (hk e List.mem_cons_self)
      obtain ⟨w2, h2, hopened2, hroom2⟩ := ih (entry_counted hc hve h1) hf1
        (fun x hx => hv x (List.mem_cons_of_mem _ hx)) (fun x hx => hk x (List.mem_cons_of_mem _ hx))
      refine ⟨w2, by rw [Written.entries, h1]; exact h2, ?_, hroom2⟩
      rw [hopened2, hopened, List.foldl_cons]

theorem writeBlocks_fields {disk disk' : Disk} {index : ℕ} {blocks : List ℕ}
    (h : writeBlocks log disk index blocks = some (log', disk')) :
    log'.blocksize = log.blocksize ∧ log'.logbase = log.logbase ∧ log'.lognext = log.lognext ∧
      log'.logbuf = log.logbuf ∧ log'.logpos = log.logpos ∧ log'.logtop = log.logtop := by
  induction blocks generalizing log disk index with
  | nil =>
      rw [writeBlocks] at h
      split at h
      · cases h
      · cases h
        exact ⟨rfl, rfl, rfl, rfl, rfl, rfl⟩
  | cons block blocks ih =>
      rw [writeBlocks] at h
      split at h
      · simp only [Option.bind_eq_bind, Option.bind_eq_some_iff, writeBlock] at h
        obtain ⟨⟨log1, disk1⟩, h1, h⟩ := h
        split at h1
        · simp only [Option.some.injEq, Prod.mk.injEq] at h1
          obtain ⟨rfl, rfl⟩ := h1
          have hrest := ih h
          exact hrest
        · cases h1
      · cases h

theorem commit_counted (hc : Counted blocksize w) (h : w.commit alloc = some w') :
    Counted blocksize w' ∧ Fits w'.log 0 := by
  simp only [Written.commit, writeLog, Option.bind_eq_bind, Option.bind_eq_some_iff,
    Option.pure_def, Option.some.injEq] at h
  obtain ⟨⟨log2, disk2⟩, ⟨log1, hfin, hwrite⟩, rfl⟩ := h
  obtain ⟨hnext, hsize, hbase, hbuf, hsame, hzero⟩ := logFinish_fields hfin
  obtain ⟨hsize2, hbase2, hnext2, hbuf2, hpos2, htop2⟩ := writeBlocks_fields hwrite
  have hempty : log1.logpos = 0 ∧ log1.logtop = 0 := by
    cases hb : w.log.logbuf with
    | none => exact hsame hb ▸ hc.shut hb
    | some index => exact hzero (hb ▸ nofun)
  rw [← hpos2, ← htop2] at hempty
  refine ⟨⟨hsize2.trans (hsize.trans hc.size), hbase2.trans (hbase.trans hc.logbase),
    hnext2.trans (hnext.trans hc.lognext),
    fun _ => hempty, hc.last⟩, ?_⟩
  change log2.logpos + 0 = log2.logtop
  omega

theorem session_counted (hc : Counted blocksize w) {deltas : List (List Entry)}
    (hv : ∀ delta ∈ deltas, ∀ e ∈ delta, e.Valid) (h : w.session alloc deltas = some w') :
    Counted blocksize w' := by
  induction deltas generalizing w with
  | nil =>
      cases h
      exact hc
  | cons delta deltas ih =>
      simp only [Written.session, Option.bind_eq_bind, Option.bind_eq_some_iff] at h
      obtain ⟨w1, h1, w2, h2, h⟩ := h
      exact ih (commit_counted (entries_counted hc (hv delta List.mem_cons_self) h1) h2).1
        (fun d hd => hv d (List.mem_cons_of_mem _ hd)) h

/-- The number of log blocks of a session is `blockCount`. -/
theorem session_opened (hbs : 42 ≤ blocksize) (hc : Counted blocksize w) (hf : Fits w.log 0)
    {deltas : List (List Entry)} (hv : ∀ delta ∈ deltas, ∀ e ∈ delta, e.Valid)
    (hk : ∀ delta ∈ deltas, ∀ e ∈ delta, ¬ e.Unread) (h : w.session alloc deltas = some w') :
    w'.opened = deltas.foldl (fun blocks delta => (delta.foldl (fill blocksize) (blocks, 0)).1)
      w.opened := by
  induction deltas generalizing w with
  | nil =>
      cases h
      rfl
  | cons delta deltas ih =>
      simp only [Written.session, Option.bind_eq_bind, Option.bind_eq_some_iff] at h
      obtain ⟨w1, h1, w2, h2, h⟩ := h
      have hvd := hv delta List.mem_cons_self
      obtain ⟨w1', h1', hopened, -⟩ := entries_total hbs hc hf hvd (hk delta List.mem_cons_self)
      obtain rfl : w1 = w1' := Option.some.inj (h1.symm.trans h1')
      obtain ⟨hc2, hf2⟩ := commit_counted (entries_counted hc hvd h1) h2
      rw [ih hc2 hf2 (fun d hd => hv d (List.mem_cons_of_mem _ hd))
        (fun d hd => hk d (List.mem_cons_of_mem _ hd)) h, (commit_opened h2).1, hopened,
        List.foldl_cons]

theorem fill_le (blocksize : ℕ) (x : ℕ × ℕ) (e : Entry) : x.1 ≤ (fill blocksize x e).1 := by
  obtain ⟨blocks, room⟩ := x
  simp only [fill]
  split
  · exact Nat.le_succ _
  · exact Nat.le_refl _

theorem foldl_fill_le (blocksize : ℕ) (x : ℕ × ℕ) (es : List Entry) :
    x.1 ≤ (es.foldl (fill blocksize) x).1 := by
  induction es generalizing x with
  | nil => exact Nat.le_refl _
  | cons e es ih => exact Nat.le_trans (fill_le blocksize x e) (ih _)

theorem foldl_count_le (blocksize n : ℕ) (deltas : List (List Entry)) :
    n ≤ deltas.foldl (fun blocks delta => (delta.foldl (fill blocksize) (blocks, 0)).1) n := by
  induction deltas generalizing n with
  | nil => exact Nat.le_refl _
  | cons delta deltas ih => exact Nat.le_trans (foldl_fill_le blocksize (n, 0) delta) (ih _)

/-- A short session of entries that `replay` knows meets no failed assertion. -/
theorem session_total (hbs : 42 ≤ blocksize) (hbs' : blocksize ≤ 2 ^ 16)
    (halloc : Function.Injective alloc) {groups : List (List Entry)}
    {chain : List (ℕ × LogBlock)} (hdone : Done blocksize alloc w groups chain)
    (hc : Counted blocksize w) (hf : Fits w.log 0) {deltas : List (List Entry)}
    (hv : ∀ delta ∈ deltas, ∀ e ∈ delta, e.Valid)
    (hk : ∀ delta ∈ deltas, ∀ e ∈ delta, ¬ e.Unread)
    (hlt : deltas.foldl (fun blocks delta => (delta.foldl (fill blocksize) (blocks, 0)).1)
      w.opened < 2 ^ 32) : ∃ w', w.session alloc deltas = some w' := by
  induction deltas generalizing w groups chain with
  | nil => exact ⟨w, rfl⟩
  | cons delta deltas ih =>
      have hvd := hv delta List.mem_cons_self
      obtain ⟨w1, h1, hopened, hroom⟩ := entries_total hbs hc hf hvd (hk delta List.mem_cons_self)
      rw [List.foldl_cons, ← hopened] at hlt
      have hlt1 := Nat.lt_of_le_of_lt (foldl_count_le blocksize w1.opened deltas) hlt
      obtain ⟨groups1, inv1⟩ := entries_inv hdone.toInv hbs' hvd h1 hlt1
      obtain ⟨log, hfin⟩ := logFinish_total hroom
      obtain ⟨w2, chain2, h2, hdone2⟩ := writeLog_done inv1 hbs' halloc hfin
      obtain ⟨hc2, hf2⟩ := commit_counted (entries_counted hc hvd h1) h2
      obtain ⟨w3, h3⟩ := ih hdone2 hc2 hf2 (fun d hd => hv d (List.mem_cons_of_mem _ hd))
        (fun d hd => hk d (List.mem_cons_of_mem _ hd)) ((commit_opened h2).1.symm ▸ hlt)
      exact ⟨w3, by rw [Written.session, h1, Option.bind_eq_bind, Option.bind_some, h2,
        Option.bind_some, h3]⟩

end Counting

theorem mount_counted (blocksize logchain : ℕ) (logmap : ℕ → LogBlock) (disk : Disk) :
    Counted blocksize (mount blocksize logchain logmap disk) :=
  ⟨rfl, rfl, rfl, fun _ => ⟨rfl, rfl⟩, fun h => absurd h (Nat.lt_irrefl 0)⟩

/-- The session runs and every replay of its chain is exact. -/
def ReplaysSession (start : Written) (alloc : ℕ → ℕ) (deltas : List (List Entry)) : Prop :=
  ∃ w, start.session alloc deltas = some w ∧
    ∀ cached sb, ReplaysExactly w deltas.flatten cached sb

section Session
variable {blocksize logchain : ℕ} {logmap : ℕ → LogBlock} {disk : Disk} {alloc : ℕ → ℕ}
  {deltas : List (List Entry)}

/-- A session that is read back logs nothing unread and is short. -/
theorem ReplaysSession.known (hbs : 42 ≤ blocksize) (hbs' : blocksize ≤ 2 ^ 16)
    (halloc : Function.Injective alloc) (hv : ∀ delta ∈ deltas, ∀ e ∈ delta, e.Valid)
    (h : ReplaysSession (mount blocksize logchain logmap disk) alloc deltas) :
    (∀ delta ∈ deltas, ∀ e ∈ delta, ¬ e.Unread) ∧ blockCount blocksize deltas < 2 ^ 31 := by
  obtain ⟨w, hw, hreplay⟩ := h
  have hcount := mount_counted blocksize logchain logmap disk
  have hwc := session_counted hcount hv hw
  obtain ⟨hret, -, hsecond, -⟩ :=
    hreplay (fun _ => junk) ⟨0, 0, 0, 0, fun _ _ => 0, fun _ => true⟩
  -- a wrapped index is smaller than the one the last entry was written at
  have hlt : w.opened < 2 ^ 32 := by
    by_contra hge
    obtain ⟨m, hm, hlast⟩ := hwc.last (by omega)
    have hblock := replay_block (hsecond ▸ List.mem_map_of_mem hm)
    rw [logcount, hwc.lognext, hwc.logbase] at hblock
    change m.block < _ at hblock
    unfold u32 at hblock
    omega
  obtain ⟨groups, chain, hd⟩ :=
    session_done (mount_done blocksize logchain alloc logmap disk) hbs' halloc hv hw hlt
  have hlen : groups.length = w.opened := hd.opened.symm
  have hshort : groups.length < 2 ^ 31 := by
    by_contra hge
    rw [hd.logcount_eq (by omega), replay_unloaded (by omega)] at hret
    exact absurd hret (by decide)
  have hknown : ∀ delta ∈ deltas, ∀ e ∈ delta, ¬ e.Unread := by
    intro delta hdelta e he hu
    have hmem : e ∈ w.marks.map Mark.entry := by
      rw [session_marks hw]
      exact List.mem_append_right _ (List.mem_flatten.mpr ⟨delta, hdelta, he⟩)
    obtain ⟨m, hm, hme⟩ := List.mem_map.mp hmem
    rw [hd.marks] at hm
    obtain ⟨g, hg, heg⟩ := mem_groupMarks.mp ⟨m, hm, hme⟩
    rw [replay_unread hd hshort ⟨g, hg, e, heg, hu⟩] at hret
    exact absurd hret (by decide)
  refine ⟨hknown, ?_⟩
  have hopened : w.opened = blockCount blocksize deltas := session_opened hbs hcount rfl hv hknown hw
  omega

theorem replaysSession_of_known (hbs : 42 ≤ blocksize) (hbs' : blocksize ≤ 2 ^ 16)
    (halloc : Function.Injective alloc) (hv : ∀ delta ∈ deltas, ∀ e ∈ delta, e.Valid)
    (hk : ∀ delta ∈ deltas, ∀ e ∈ delta, ¬ e.Unread) (hlt : blockCount blocksize deltas < 2 ^ 31) :
    ReplaysSession (mount blocksize logchain logmap disk) alloc deltas := by
  have hdone := mount_done blocksize logchain alloc logmap disk
  have hcount := mount_counted blocksize logchain logmap disk
  obtain ⟨w, hw⟩ := session_total hbs hbs' halloc hdone hcount rfl hv hk
    (Nat.lt_trans hlt (by decide))
  have hopened : w.opened = blockCount blocksize deltas := session_opened hbs hcount rfl hv hk hw
  obtain ⟨groups, chain, hd⟩ := session_done hdone hbs' halloc hv hw (by omega)
  have hentries : w.marks.map Mark.entry = deltas.flatten := session_marks hw
  have hknown : ∀ g ∈ groups, ∀ e ∈ g, ¬ e.Unread := by
    intro g hg e he
    obtain ⟨m, hm, hme⟩ := mem_groupMarks.mpr ⟨g, hg, he⟩
    rw [← hd.marks] at hm
    have hmem : e ∈ w.marks.map Mark.entry := List.mem_map.mpr ⟨m, hm, hme⟩
    rw [hentries] at hmem
    obtain ⟨delta, hdelta, hed⟩ := List.mem_flatten.mp hmem
    exact hk delta hdelta e hed
  refine ⟨w, hw, fun cached sb => ?_⟩
  have hshort : groups.length < 2 ^ 31 := by
    rw [← hd.opened, hopened]
    exact hlt
  exact hentries ▸ replay_known hd hshort hknown cached sb

/-- Replay reads back what the log writers wrote exactly when they wrote no redirect, root or
split and filled fewer than `2^31` log blocks. -/
theorem replays_session_iff (hbs : 42 ≤ blocksize) (hbs' : blocksize ≤ 2 ^ 16)
    (halloc : Function.Injective alloc) (hv : ∀ delta ∈ deltas, ∀ e ∈ delta, e.Valid) :
    ReplaysSession (mount blocksize logchain logmap disk) alloc deltas ↔
      (∀ delta ∈ deltas, ∀ e ∈ delta, ¬ e.Unread) ∧ blockCount blocksize deltas < 2 ^ 31 :=
  ⟨fun h => h.known hbs hbs' halloc hv,
    fun h => replaysSession_of_known hbs hbs' halloc hv h.1 h.2⟩

end Session

theorem replays_session_iff_two_deltas :
    ReplaysSession (mount 256 0 (fun _ => junk) fun _ => none) (fun n => n + 10)
        [[.balloc 5 1, .bnodeAdd 7 8 9], [.bfree 5 1]] ↔
      (∀ delta ∈ [[Entry.balloc 5 1, .bnodeAdd 7 8 9], [.bfree 5 1]], ∀ e ∈ delta, ¬ e.Unread) ∧
        blockCount 256 [[.balloc 5 1, .bnodeAdd 7 8 9], [.bfree 5 1]] < 2 ^ 31 :=
  replays_session_iff (by decide) (by decide) (fun _ _ => Nat.add_right_cancel) (by decide)

/-- What `alloc_empty_btree` logs is not replayed. -/
theorem empty_btree_not_replayed :
    ¬ ReplaysSession (mount 256 0 (fun _ => junk) fun _ => none) (fun n => n + 10)
      [[.bnodeRoot 2 1 3 0 0, .balloc 3 1]] := by
  intro h
  have hk := (h.known (by decide) (by decide) (fun _ _ => Nat.add_right_cancel) (by decide)).1
  exact hk _ List.mem_cons_self _ List.mem_cons_self trivial

end Tux3.Log
