import Tux3.LogReplay

/-!
# Replaying a session

A session mounts a log, logs entries delta by delta and writes the log blocks of each
delta. Replay of the chain it leaves reads the session back, entry by entry, exactly
when the session is short enough and logs nothing the first walk has no case for.
-/
namespace Tux3.Log

open Segment

/-! ## The chain on disk -/

/-- Following `->logchain` from a block, newest log block first. -/
inductive Chain (disk : Disk) : ℕ → List (ℕ × LogBlock) → Prop where
  | nil (c : ℕ) : Chain disk c []
  | cons {c : ℕ} {block : LogBlock} {older : List (ℕ × LogBlock)} (here : disk c = some block)
      (next : Chain disk block.logchain older) : Chain disk c ((c, block) :: older)

theorem Chain.write {disk : Disk} {c b : ℕ} {l : List (ℕ × LogBlock)} (h : Chain disk c l)
    (hb : ∀ x ∈ l, x.1 ≠ b) (block : LogBlock) : Chain (Function.update disk b (some block)) c l := by
  induction h with
  | nil c => exact .nil c
  | cons here next ih =>
      refine .cons ?_ (ih fun x hx => hb x (List.mem_cons_of_mem _ hx))
      rw [Function.update_of_ne (hb _ List.mem_cons_self), here]

/-- Equal up to the chain pointer, which `write_log` sets. -/
structure Same (a b : LogBlock) : Prop where
  magic : a.magic = b.magic
  bytes : a.bytes = b.bytes
  data : a.data = b.data

/-- Each block of a chain is the cached log block of its index. -/
def Cached (logmap : ℕ → LogBlock) : List (ℕ × LogBlock) → Prop
  | [] => True
  | (_, block) :: older => Same block (logmap older.length) ∧ Cached logmap older

theorem Cached.congr {logmap logmap' : ℕ → LogBlock} {l : List (ℕ × LogBlock)}
    (h : Cached logmap l) (hsame : ∀ i < l.length, logmap' i = logmap i) : Cached logmap' l := by
  induction l with
  | nil => trivial
  | cons x older ih =>
      refine ⟨?_, ih h.2 fun i hi => hsame i (Nat.lt_succ_of_lt hi)⟩
      rw [hsame _ (Nat.lt_succ_self _)]
      exact h.1

theorem Stored.congr {a b : LogBlock} {g : List Entry} (h : Stored b g) (hs : Same a b) :
    Stored a g :=
  ⟨hs.magic.trans h.magic, hs.bytes.trans h.bytes, hs.data ▸ h.data⟩

theorem AllStored.same {logmap logmap' : ℕ → LogBlock} {groups : List (List Entry)}
    (h : AllStored logmap groups) (hsame : ∀ i < groups.length, Same (logmap' i) (logmap i)) :
    AllStored logmap' groups := by
  induction groups with
  | nil => trivial
  | cons g older ih =>
      exact ⟨h.1.congr (hsame _ (Nat.lt_succ_self _)),
        ih h.2 fun i hi => hsame i (Nat.lt_succ_of_lt hi)⟩

theorem AllStored.congr {logmap logmap' : ℕ → LogBlock} {groups : List (List Entry)}
    (h : AllStored logmap groups) (hsame : ∀ i < groups.length, logmap' i = logmap i) :
    AllStored logmap' groups :=
  h.same fun i hi => hsame i hi ▸ ⟨rfl, rfl, rfl⟩

theorem AllStored.magic {logmap : ℕ → LogBlock} {groups : List (List Entry)}
    (h : AllStored logmap groups) {i : ℕ} (hi : i < groups.length) :
    (logmap i).magic = magicLog := by
  induction groups with
  | nil => cases hi
  | cons g older ih =>
      cases Nat.lt_succ_iff_lt_or_eq.mp hi with
      | inl hlt => exact ih h.2 hlt
      | inr heq => exact heq ▸ h.1.magic

/-- What the first loop of `replay` makes of a chain. -/
theorem loadLog_chain {disk : Disk} {c : ℕ} {chain : List (ℕ × LogBlock)}
    {logmap : ℕ → LogBlock} {groups : List (List Entry)} (h : Chain disk c chain)
    (hc : Cached logmap chain) (hs : AllStored logmap groups)
    (hlen : chain.length = groups.length) (cached : ℕ → LogBlock) :
    ∃ loaded, loadLog disk chain.length c cached = .ok loaded ∧ AllStored loaded groups ∧
      ∀ i, chain.length ≤ i → loaded i = cached i := by
  induction h generalizing groups cached with
  | nil c =>
      rw [List.eq_nil_of_length_eq_zero hlen.symm]
      exact ⟨cached, rfl, trivial, fun _ _ => rfl⟩
  | cons here next ih =>
      rename_i c block older
      cases groups with
      | nil => cases hlen
      | cons g gs =>
          have hlen' : older.length = gs.length := Nat.succ.inj hlen
          have hg : Stored block g := hs.1.congr (hlen' ▸ hc.1)
          obtain ⟨loaded, hload, hstored, hrest⟩ :=
            ih hc.2 hs.2 hlen' (Function.update cached older.length block)
          refine ⟨loaded, ?_, ⟨?_, hstored⟩, fun i hi => ?_⟩
          · rw [List.length_cons, loadLog, here]
            simp only [if_pos hg.magic, hload]
          · rw [← hlen', hrest _ (Nat.le_refl _), Function.update_self]
            exact hg
          · rw [hrest i (Nat.le_of_succ_le hi), Function.update_of_ne (Nat.ne_of_gt hi)]

/-! ## Sessions -/

/-- A log in use. `opened` counts the log blocks since mount, which `lognext` does modulo
`2^32`; `marks` are the places of the entries; `allocated` counts the calls of `balloc`. -/
structure Written where
  log : LogSb
  disk : Disk
  opened : ℕ
  marks : List Mark
  allocated : ℕ

def mount (blocksize logchain : ℕ) (logmap : ℕ → LogBlock) (disk : Disk) : Written where
  log :=
    { blocksize, logmap, logchain
      logbase := 0
      nextLogbase := 0
      logthis := 0
      lognext := 0
      logbuf := none
      logpos := 0
      logtop := 0 }
  disk := disk
  opened := 0
  marks := []
  allocated := 0

def Written.entry (w : Written) (e : Entry) : Option Written := do
  let log ← e.log w.log
  let opened := if log.lognext = w.log.lognext then w.opened else w.opened + 1
  return { w with
    log := log
    opened := opened
    marks := w.marks ++ [⟨opened - 1, log.logpos - e.encode.length, e⟩] }

def Written.entries : Written → List Entry → Option Written
  | w, [] => some w
  | w, e :: es => do (← w.entry e).entries es

/-- `write_log`, when the `n`-th call of `balloc` since mount returns `alloc n`. -/
def Written.commit (alloc : ℕ → ℕ) (w : Written) : Option Written := do
  let n := w.log.lognext - w.log.logthis
  let (log, disk) ← writeLog w.log w.disk ((List.range' w.allocated n).map alloc)
  return { w with log := log, disk := disk, allocated := w.allocated + n }

def Written.session (alloc : ℕ → ℕ) : Written → List (List Entry) → Option Written
  | w, [] => some w
  | w, delta :: deltas => do
      let w ← w.entries delta
      let w ← w.commit alloc
      w.session alloc deltas

/-- `super.logcount`, set by `commit_delta`. -/
def logcount (log : LogSb) : ℕ := u32 (2 ^ 32 + log.lognext - log.logbase)

/-- Replay returns 0, both walks find every entry where it was written, and `update_bitmap`
is called for the logged allocations and frees, in order. -/
def ReplaysExactly (w : Written) (entries : List Entry) (cached : ℕ → LogBlock)
    (sb : Balloc.Sb) : Prop :=
  let out := replay w.disk w.log.logchain (logcount w.log) cached sb
  out.ret = 0 ∧ out.first = w.marks.map (Mark.seen Entry.firstFields) ∧
    out.second = w.marks.map (Mark.seen Entry.secondFields) ∧
    out.updates = entries.filterMap Entry.update

/-- The log blocks in use and the room in the last one, after one more entry. -/
def fill (blocksize : ℕ) : ℕ × ℕ → Entry → ℕ × ℕ
  | (blocks, room), e =>
      if room < logsize e.code then (blocks + 1, blocksize - headerSize - logsize e.code)
      else (blocks, room - logsize e.code)

/-- The log blocks that the deltas of a session fill. -/
def blockCount (blocksize : ℕ) (deltas : List (List Entry)) : ℕ :=
  deltas.foldl (fun blocks delta => (delta.foldl (fill blocksize) (blocks, 0)).1) 0

/-! ## The invariant -/

/-- No log block is open. -/
structure Shut (log : LogSb) (groups : List (List Entry)) : Prop where
  logbuf : log.logbuf = none
  logpos : log.logpos = 0
  logtop : log.logtop = 0
  stored : AllStored log.logmap groups
  this : log.logthis ≤ groups.length

/-- The newest log block is open and holds the entries `g` so far. -/
structure Open (log : LogSb) (g : List Entry) (older : List (List Entry)) : Prop where
  logbuf : log.logbuf = some older.length
  logpos : log.logpos = (encodeAll g).length
  logtop : log.logtop = log.blocksize - headerSize
  magic : (log.logmap older.length).magic = magicLog
  data : Holds (log.logmap older.length).data 0 (encodeAll g)
  stored : AllStored log.logmap older
  this : log.logthis ≤ older.length

def Filled (log : LogSb) (groups : List (List Entry)) : Prop :=
  Shut log groups ∨ ∃ g older, groups = g :: older ∧ Open log g older

/-- What logging leaves alone: the bases, the chain and the log blocks of earlier deltas. -/
structure Frame (log log' : LogSb) : Prop where
  blocksize : log'.blocksize = log.blocksize
  logchain : log'.logchain = log.logchain
  logbase : log'.logbase = log.logbase
  nextLogbase : log'.nextLogbase = log.nextLogbase
  logthis : log'.logthis = log.logthis
  kept : ∀ i < log.logthis, log'.logmap i = log.logmap i

theorem Frame.refl (log : LogSb) : Frame log log := ⟨rfl, rfl, rfl, rfl, rfl, fun _ _ => rfl⟩

theorem Frame.trans {a b c : LogSb} (h : Frame a b) (h' : Frame b c) : Frame a c :=
  ⟨h'.blocksize.trans h.blocksize, h'.logchain.trans h.logchain, h'.logbase.trans h.logbase,
    h'.nextLogbase.trans h.nextLogbase, h'.logthis.trans h.logthis, fun i hi =>
      (h'.kept i (h.logthis.symm ▸ hi)).trans (h.kept i hi)⟩

section Steps
variable {log log' : LogSb} {groups older : List (List Entry)} {g : List Entry}

theorem memset_holds {data : Bytes} {es : List Byte} (n : ℕ) (h : Holds data 0 es) :
    Holds (memset data es.length 0#8 n) 0 es := by
  refine h.frame fun i _ hi => if_neg ?_
  omega

theorem logFinish_filled (hbs : log.blocksize ≤ 2 ^ 16) (hf : Filled log groups)
    (h : logFinish log = some log') :
    Shut log' groups ∧ Frame log log' ∧ log'.lognext = log.lognext := by
  rw [logFinish] at h
  rcases hf with hs | ⟨g, older, rfl, ho⟩
  · simp only [hs.logbuf, Option.some.injEq] at h
    exact h ▸ ⟨hs, Frame.refl log, rfl⟩
  · simp only [ho.logbuf] at h
    split at h
    · cases h
    · rename_i hle
      rw [Option.some.injEq] at h
      subst h
      have hthis := ho.this
      have hpos := ho.logpos
      have htop := ho.logtop
      have hlt : log.logpos < 2 ^ 16 := by
        unfold headerSize at htop
        omega
      have hold : ∀ i < older.length, Function.update log.logmap older.length
          { log.logmap older.length with
            bytes := log.logpos % 2 ^ 16
            data := memset (log.logmap older.length).data log.logpos 0#8
              (log.logtop - log.logpos) } i = log.logmap i :=
        fun i hi => Function.update_of_ne (Nat.ne_of_lt hi) _ _
      refine ⟨⟨rfl, rfl, rfl, ⟨?_, ho.stored.congr hold⟩, Nat.le_succ_of_le hthis⟩,
        ⟨rfl, rfl, rfl, rfl, rfl, fun i hi => hold i (Nat.lt_of_lt_of_le hi hthis)⟩, rfl⟩
      simp only [logDrop, Function.update_self]
      refine ⟨ho.magic, ?_, ?_⟩
      · rw [Nat.mod_eq_of_lt hlt, hpos]
      · rw [hpos]
        exact memset_holds _ ho.data

/-- `log_begin` leaves an open block that has the room, or opens the next one. -/
theorem logBegin_filled {n : ℕ} (hn : 0 < n) (hbs : log.blocksize ≤ 2 ^ 16)
    (hf : Filled log groups) (hnext : log.lognext = groups.length)
    (h : logBegin log n = some log') :
    (log' = log ∧ ∃ g older, groups = g :: older ∧ Open log g older) ∨
      (Open log' [] groups ∧ Frame log log' ∧ log'.lognext = u32 (groups.length + 1)) := by
  rw [logBegin] at h
  split at h
  · right
    simp only [Option.bind_eq_bind, Option.bind_eq_some_iff, Option.pure_def,
      Option.some.injEq] at h
    obtain ⟨log1, hfin, rfl⟩ := h
    obtain ⟨hs, hframe, hnext1⟩ := logFinish_filled hbs hf hfin
    have hidx : log1.lognext = groups.length := hnext1.trans hnext
    have hold : ∀ i < groups.length, Function.update log1.logmap groups.length
        { log1.logmap groups.length with magic := magicLog, bytes := 0, logchain := 0 } i =
          log1.logmap i := fun i hi => Function.update_of_ne (Nat.ne_of_lt hi) _ _
    simp only [logNext, hidx]
    refine ⟨⟨rfl, rfl, rfl, ?_, ?_, hs.stored.congr hold, hs.this⟩,
      hframe.trans ⟨rfl, rfl, rfl, rfl, rfl, fun i hi => hold i (Nat.lt_of_lt_of_le hi hs.this)⟩, trivial⟩
    · simp only [Function.update_self]
    · exact holds_nil
  · rename_i hroom
    left
    cases h
    refine ⟨rfl, ?_⟩
    rcases hf with hs | ho
    · have h1 := hs.logpos
      have h2 := hs.logtop
      omega
    · exact ho

theorem encodeAll_concat (g : List Entry) (e : Entry) :
    encodeAll (g ++ [e]) = encodeAll g ++ e.encode := by
  rw [encodeAll, List.flatMap_append, List.flatMap_singleton, encodeAll]

theorem logEnd_eq {index : ℕ} (h : log.logbuf = some index) (entry : List Byte) :
    logEnd log entry = some { log with
      logmap := Function.update log.logmap index
        { log.logmap index with data := put (log.logmap index).data log.logpos entry }
      logpos := log.logpos + entry.length } := by
  simp only [logEnd, Option.bind_eq_bind, Option.bind_eq_some_iff]
  exact ⟨index, h, rfl⟩

theorem logEnd_open (ho : Open log g older) (e : Entry) :
    ∃ log', logEnd log e.encode = some log' ∧ Open log' (g ++ [e]) older ∧ Frame log log' ∧
      log'.lognext = log.lognext ∧ log'.logpos = (encodeAll g).length + e.encode.length := by
  have hold : ∀ i < older.length, Function.update log.logmap older.length
      { log.logmap older.length with
        data := put (log.logmap older.length).data log.logpos e.encode } i = log.logmap i :=
    fun i hi => Function.update_of_ne (Nat.ne_of_lt hi) _ _
  refine ⟨_, logEnd_eq ho.logbuf _, ⟨ho.logbuf, ?_, ho.logtop, ?_, ?_,
    ho.stored.congr hold, ho.this⟩,
    ⟨rfl, rfl, rfl, rfl, rfl, fun i hi => hold i (Nat.lt_of_lt_of_le hi ho.this)⟩, rfl, ?_⟩
  · rw [encodeAll_concat, List.length_append, ← ho.logpos]
  · simp only [Function.update_self]
    exact ho.magic
  · simp only [Function.update_self, ho.logpos]
    rw [encodeAll_concat]
    exact ho.data.put_after e.encode
  · rw [← ho.logpos]

end Steps

end Tux3.Log
