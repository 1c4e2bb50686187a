import Tux3.Readdir
import Tux3.Lib.Segment

/-!
# The bytes of a directory

Creation and deletion of entries as writes to the bytes of a block. A record is read from the bytes
at any offset, also inside of another record. Both operations keep the blocks well formed.
-/
namespace Tux3.Dir

open Segment

/-- A big-endian number of some bytes. -/
def readBe (data : ℕ → UInt8) (at' len : ℕ) : ℕ :=
  (List.range len).foldl (fun val i => val * 256 + (data (at' + i)).toNat) 0

def be16 (val : ℕ) : List UInt8 := [UInt8.ofNat (val / 256), UInt8.ofNat val]

def be64 (val : ℕ) : List UInt8 := (List.range 8).map fun i => UInt8.ofNat (val / 2 ^ (56 - 8 * i))

/-- The `tux_dirent` that one reads at an offset, with as much behind its head as a name can have. -/
def direntAt (data : ℕ → UInt8) (offset : ℕ) : Dirent where
  inum := readBe data offset 8
  recLen := readBe data (offset + 8) 2
  nameLen := (data (offset + 10)).toNat
  type := (data (offset + 11)).toNat
  name := (List.range 255).map fun i => data (offset + 12 + i)

/-- The bytes of the blocks of a directory, with what lies behind each, and its `i_size`. -/
structure RawDirectory where
  data : ℕ → ℕ → UInt8
  size : ℕ

def RawDirectory.view (raw : RawDirectory) : Directory :=
  ⟨fun block => direntAt (raw.data block), raw.size⟩

def setRecLen (data : ℕ → UInt8) (offset recLen : ℕ) : ℕ → UInt8 := put data (offset + 8) (be16 recLen)

/-- The end of `tux_create_entry`: `name_len`, the name, `inum` and the type of a record. -/
def updateEntry (data : ℕ → UInt8) (offset : ℕ) (name : List UInt8) (inum mode : ℕ) : ℕ → UInt8 :=
  putAll data [(offset + 10, [UInt8.ofNat name.length]), (offset + 12, name), (offset, be64 inum),
    (offset + 11, [UInt8.ofNat (tuxTypeByMode mode)])]

/-- From the label `create` on. -/
def createBytes (data : ℕ → UInt8) (offset : ℕ) (name : List UInt8) (inum mode : ℕ) :
    Except Failure ((ℕ → UInt8) × ℕ) :=
  let entry := direntAt data offset
  if isDeleted entry then .ok (updateEntry data offset name inum mode, offset)
  else do
    let nameLen := tuxRecLen entry.nameLen
    let newRecLen ← tuxRecLenToDisk (tuxRecLenFromDisk entry.recLen - nameLen)
    let oldRecLen ← tuxRecLenToDisk nameLen
    let data := setRecLen (setRecLen data (offset + nameLen) newRecLen) offset oldRecLen
    .ok (updateEntry data (offset + nameLen) name inum mode, offset + nameLen)

/-- `memset` of a block and a first record with its length. -/
def freshBytes (data : ℕ → UInt8) (blocksize recLen : ℕ) : ℕ → UInt8 :=
  putAll data [(0, List.replicate blocksize 0), (0, List.replicate 12 0), (8, be16 recLen)]

/-- `tux_create_entry` on bytes. -/
def createRaw (blockbits : ℕ) (raw : RawDirectory) (name : List UInt8) (inum mode : ℕ) :
    Except Failure (RawDirectory × ℕ) := do
  let where' (block offset : ℕ) := (block * 2 ^ blockbits % 2 ^ 32 + offset) % 2 ^ 32
  match ← findRoom blockbits raw.view name.length with
  | some (block, offset) =>
      let (data, offset) ← createBytes (raw.data block) offset name inum mode
      .ok (⟨Function.update raw.data block data, raw.size⟩, where' block offset)
  | none =>
      let block := blocksOf blockbits raw.size
      let recLen ← tuxRecLenToDisk (2 ^ blockbits)
      let (data, offset) ← createBytes (freshBytes (raw.data block) (2 ^ blockbits) recLen) 0 name
        inum mode
      .ok (⟨Function.update raw.data block data, raw.size + 2 ^ blockbits⟩, where' block offset)

/-- `tux_delete_entry` on bytes. -/
def deleteBytes (data : ℕ → UInt8) (offset : ℕ) : Except Failure (ℕ → UInt8) := do
  let entry := direntAt data offset
  let data ← match ← findPrev (direntAt data) offset (offset + 1) none 0 with
    | some prev => do
        let recLen ← tuxRecLenToDisk (offset + tuxRecLenFromDisk entry.recLen - prev)
        .ok (setRecLen data prev recLen)
    | none => .ok data
  .ok (putAll data [(offset + 12, List.replicate entry.nameLen 0), (offset + 11, [0]),
    (offset + 10, [0]), (offset, List.replicate 8 0)])

/-! ## The records of a block -/

/-- The offsets that one comes to by `rec_len` from an offset on. -/
def records (b : Block) (stop : ℕ) : ℕ → ℕ → List ℕ
  | 0, _ => []
  | fuel + 1, o => if o < stop then o :: records b stop fuel (o + (b o).len) else []

section
variable (blockbits : ℕ)

/-- The records of the blocks of a directory. -/
def chainOf (dir : Directory) (block : ℕ) : List ℕ :=
  records (dir.block block) (2 ^ blockbits) (2 ^ blockbits + 1) 0

/-- A directory in well-formed blocks: `rec_len` leads from the start of each block to its end, and
each record fits its name. -/
def WellFormed (dir : Directory) : Prop :=
  Blocks blockbits dir (chainOf blockbits dir) (dir.size / 2 ^ blockbits)

/-- The sequences of creations and deletions from a directory on. -/
inductive Changes (raw : RawDirectory) : RawDirectory → Prop where
  | start : Changes raw raw
  | create {raw' raw'' : RawDirectory} {offset : ℕ} (h : Changes raw raw') (name : List UInt8)
      (inum mode : ℕ) (hpos : 0 < name.length) (hlen : name.length ≤ 255)
      (hfit : tuxRecLen name.length ≤ 2 ^ blockbits)
      (hcreate : createRaw blockbits raw' name inum mode = .ok (raw'', offset)) :
      Changes raw raw''
  | delete {raw' : RawDirectory} {block offset : ℕ} {data : ℕ → UInt8} (h : Changes raw raw')
      (hblock : block < raw'.size / 2 ^ blockbits)
      (hrecord : offset ∈ chainOf blockbits raw'.view block)
      (hdelete : deleteBytes (raw'.data block) offset = .ok data) :
      Changes raw ⟨Function.update raw'.data block data, raw'.size⟩

end

section
variable {bits n start stop o x off fuel inum mode : ℕ} {data data' : ℕ → UInt8} {b b' : Block}
  {l l₁ l₂ : List ℕ} {name : List UInt8} {dir : Directory} {chain : ℕ → List ℕ}
  {raw raw' : RawDirectory}

theorem Tiled.records (h : Tiled b start l stop) (hfuel : stop < fuel + start) :
    records b stop fuel start = l := by
  induction fuel generalizing start l with
  | zero =>
      have hle := h.le
      omega
  | succ fuel ih =>
      rw [Dir.records]
      cases l with
      | nil =>
          have heq : start = stop := h
          rw [if_neg (by omega)]
      | cons x l =>
          obtain ⟨rfl, hfits, h⟩ := h
          have hpos := hfits.pos
          have hle := h.le
          rw [if_pos (by omega), ih h (by omega)]

theorem Blocks.wellFormed (hw : Blocks bits dir chain n) :
    WellFormed bits dir ∧ dir.size / 2 ^ bits = n ∧ ∀ i < n, chainOf bits dir i = chain i := by
  have hn : dir.size / 2 ^ bits = n := by
    rw [hw.size, Nat.mul_div_cancel _ (Nat.two_pow_pos bits)]
  have hchain (i : ℕ) (hi : i < n) : chainOf bits dir i = chain i :=
    (hw.tiled i hi).records (by omega)
  refine ⟨⟨by rw [hn]; exact hw.size, fun i hi => ?_⟩, hn, hchain⟩
  rw [hn] at hi
  rw [hchain i hi]
  exact hw.tiled i hi

/-! ## Heads of records -/

theorem direntAt_recLen (data : ℕ → UInt8) (o : ℕ) :
    (direntAt data o).recLen = (data (o + 8)).toNat * 256 + (data (o + 9)).toNat := by
  have hread : (direntAt data o).recLen =
      (0 * 256 + (data (o + 8)).toNat) * 256 + (data (o + 9)).toNat := rfl
  rw [hread, Nat.zero_mul, Nat.zero_add]

theorem head_same (h : ∀ i, x + 8 ≤ i → i < x + 11 → data' i = data i) :
    (direntAt data' x).recLen = (direntAt data x).recLen ∧
      (direntAt data' x).nameLen = (direntAt data x).nameLen := by
  refine ⟨?_, ?_⟩
  · rw [direntAt_recLen, direntAt_recLen, h (x + 8) (by omega) (by omega),
      h (x + 9) (by omega) (by omega)]
  · rw [direntAt, direntAt, h (x + 10) (by omega) (by omega)]

theorem Tiled.same (h : Tiled b start l stop)
    (heq : ∀ x ∈ l, (b' x).recLen = (b x).recLen ∧ (b' x).nameLen = (b x).nameLen) :
    Tiled b' start l stop := by
  induction l generalizing start with
  | nil => exact h
  | cons o l ih =>
      obtain ⟨rfl, hfits, h⟩ := h
      obtain ⟨hrec, hname⟩ := heq o List.mem_cons_self
      have hlen : (b' o).len = (b o).len := congrArg tuxRecLenFromDisk hrec
      refine ⟨rfl, ⟨hlen ▸ hfits.1, ?_⟩, ?_⟩
      · rw [hlen, hname]
        exact hfits.2
      · rw [hlen]
        exact ih h fun x hx => heq x (List.mem_cons_of_mem _ hx)

theorem Tiled.before (h : Tiled (direntAt data) start l stop)
    (heq : ∀ i < stop, data' i = data i) : Tiled (direntAt data') start l stop := by
  refine h.same fun x hx => head_same fun i _ hi => heq i ?_
  obtain ⟨-, hle, hfits⟩ := h.bounds hx
  have h16 := Nat.le_trans (tuxRecLen_pos _) hfits.2
  omega

theorem Tiled.behind (h : Tiled (direntAt data) start l stop)
    (heq : ∀ i, start ≤ i → data' i = data i) : Tiled (direntAt data') start l stop :=
  h.same fun x hx => head_same fun i hi _ =>
    heq i (Nat.le_trans (h.bounds hx).1 (Nat.le_trans (Nat.le_add_right x 8) hi))

theorem toDisk_disk {len d : ℕ} (h8 : 8 ∣ len) (h : tuxRecLenToDisk len = .ok d) :
    tuxRecLenFromDisk d = len ∧ d < 65536 := by
  unfold tuxRecLenToDisk at h
  unfold tuxRecLenFromDisk
  split at h
  · next heq =>
      cases h
      exact ⟨by rw [if_pos rfl, heq], by decide⟩
  · split at h
    · cases h
    · cases h
      exact ⟨by rw [if_neg (by omega)], by omega⟩

theorem setRecLen_recLen {d : ℕ} (hd : d < 65536) : (direntAt (setRecLen data o d) o).recLen = d := by
  have hholds : Holds (setRecLen data o d) (o + 8) (be16 d) := holds_put
  rw [direntAt_recLen, hholds.head, hholds.tail.head, UInt8.toNat_ofNat', UInt8.toNat_ofNat']
  omega

theorem setRecLen_other {d i : ℕ} (h : i < o + 8 ∨ o + 10 ≤ i) : setRecLen data o d i = data i :=
  h.elim put_of_lt fun hge => @put_of_ge _ data (o + 8) (be16 d) i hge

theorem updateEntry_other {i : ℕ}
    (h : i < o ∨ o + 12 + name.length ≤ i ∨ o + 8 ≤ i ∧ i < o + 10) :
    updateEntry data o name inum mode i = data i := by
  have hlen : (be64 inum).length = 8 := rfl
  refine putAll_outside ?_
  simp only [List.forall_mem_cons, List.length_singleton, hlen]
  exact ⟨by omega, by omega, by omega, by omega, fun f hf => nomatch hf⟩

theorem updateEntry_nameLen (hlen : name.length ≤ 255) :
    (direntAt (updateEntry data o name inum mode) o).nameLen = name.length := by
  have hbe : (be64 inum).length = 8 := rfl
  have hapart : [(o + 10, [UInt8.ofNat name.length]), (o + 12, name), (o, be64 inum),
      (o + 11, [UInt8.ofNat (tuxTypeByMode mode)])].Pairwise Apart := by
    simp [Apart, hbe]
  have hholds : Holds (updateEntry data o name inum mode) (o + 10) [UInt8.ofNat name.length] :=
    holds_putAll hapart List.mem_cons_self
  have hbyte : updateEntry data o name inum mode (o + 10) = UInt8.ofNat name.length := hholds.head
  rw [direntAt, hbyte]
  dsimp only
  rw [UInt8.toNat_ofNat']
  omega

theorem updateEntry_recLen :
    (direntAt (updateEntry data o name inum mode) o).recLen = (direntAt data o).recLen := by
  rw [direntAt_recLen, direntAt_recLen, updateEntry_other (by omega), updateEntry_other (by omega)]

theorem le_tuxRecLen (n : ℕ) : n + 12 ≤ tuxRecLen n := by
  unfold tuxRecLen
  omega

/-! ## Creation -/

theorem updateEntry_tiled (hlen : name.length ≤ 255)
    (hfits : 8 ∣ (direntAt data o).len) (hroom : tuxRecLen name.length ≤ (direntAt data o).len)
    (h : Tiled (direntAt data) (o + (direntAt data o).len) l stop) :
    Tiled (direntAt (updateEntry data o name inum mode)) o (o :: l) stop := by
  have hsame : (direntAt (updateEntry data o name inum mode) o).len = (direntAt data o).len :=
    congrArg tuxRecLenFromDisk updateEntry_recLen
  have hname := le_tuxRecLen name.length
  refine ⟨rfl, ⟨?_, ?_⟩, ?_⟩
  · rw [hsame]
    exact hfits
  · rw [hsame, updateEntry_nameLen hlen]
    exact hroom
  · rw [hsame]
    exact h.behind fun i hi => updateEntry_other (by omega)

theorem setRecLen_setRecLen {nl dnew dold : ℕ} (hnl : 16 ≤ nl) (hnew : dnew < 65536)
    (hold : dold < 65536) (hsplit : data' = setRecLen (setRecLen data (o + nl) dnew) o dold) :
    ((direntAt data' o).recLen = dold ∧
      (direntAt data' o).nameLen = (direntAt data o).nameLen) ∧
      (direntAt data' (o + nl)).recLen = dnew ∧
      ∀ i, i < o ∨ o + nl + 10 ≤ i → data' i = data i := by
  subst hsplit
  refine ⟨⟨setRecLen_recLen hold, ?_⟩, ?_, fun i hi => ?_⟩
  · have hbyte : setRecLen (setRecLen data (o + nl) dnew) o dold (o + 10) = data (o + 10) := by
      rw [setRecLen_other (by omega), setRecLen_other (by omega)]
    rw [direntAt, hbyte, direntAt]
  · rw [(head_same fun i hi _ => setRecLen_other (by omega)).1, setRecLen_recLen hnew]
  · rw [setRecLen_other (by omega), setRecLen_other (by omega)]

/-- Creation splits a record or reuses a deleted one. -/
theorem createBytes_tiled (h : Tiled (direntAt data) start l stop) (ho : o ∈ l)
    (hlen : name.length ≤ 255)
    (hroom : hasRoom (tuxRecLen name.length) (direntAt data o) = true)
    (hcreate : createBytes data o name inum mode = .ok (data', off)) :
    ∃ l', Tiled (direntAt data') start l' stop := by
  obtain ⟨l₁, l₂, rfl, h₁, hfits, h₂⟩ := h.split ho
  unfold createBytes at hcreate
  dsimp only at hcreate
  cases hdel : isDeleted (direntAt data o) with
  | true =>
      rw [hdel, if_pos rfl] at hcreate
      cases hcreate
      have hle : tuxRecLen name.length ≤ (direntAt data o).len := by
        simp only [hasRoom, hdel, Bool.true_and, Bool.or_eq_true, decide_eq_true_eq] at hroom
        exact hroom.elim id (Nat.le_trans (Nat.le_add_left _ _))
      exact ⟨l₁ ++ o :: l₂, tiled_append.mpr ⟨o,
        h₁.before fun i hi => updateEntry_other (Or.inl hi),
        updateEntry_tiled hlen hfits.1 hle h₂⟩⟩
  | false =>
      rw [hdel, if_neg Bool.false_ne_true] at hcreate
      simp only [hasRoom, hdel, Bool.false_and, Bool.false_or, decide_eq_true_eq] at hroom
      obtain ⟨nl, hnl⟩ : ∃ nl, nl = tuxRecLen (direntAt data o).nameLen := ⟨_, rfl⟩
      change _ ≤ (direntAt data o).len at hroom
      change (tuxRecLenToDisk ((direntAt data o).len - _)).bind _ = _ at hcreate
      rw [← hnl] at hroom hcreate
      have hnl8 : 8 ∣ nl := hnl ▸ tuxRecLen_dvd _
      have hnl16 : 16 ≤ nl := hnl ▸ tuxRecLen_pos _
      cases hnew : tuxRecLenToDisk ((direntAt data o).len - nl) with
      | error err =>
          rw [hnew] at hcreate
          cases hcreate
      | ok dnew =>
          cases hold : tuxRecLenToDisk nl with
          | error err =>
              rw [hnew, hold] at hcreate
              cases hcreate
          | ok dold =>
              rw [hnew, hold] at hcreate
              cases hcreate
              obtain ⟨hnewlen, hnewlt⟩ := toDisk_disk (Nat.dvd_sub hfits.1 hnl8) hnew
              obtain ⟨holdlen, holdlt⟩ := toDisk_disk hnl8 hold
              obtain ⟨split, hsplit⟩ : ∃ split, split =
                  setRecLen (setRecLen data (o + nl) dnew) o dold := ⟨_, rfl⟩
              obtain ⟨⟨hself, hname⟩, hat, hother⟩ :=
                setRecLen_setRecLen hnl16 hnewlt holdlt hsplit
              rw [← hsplit]
              have hatlen : (direntAt split (o + nl)).len = (direntAt data o).len - nl := by
                rw [Dirent.len, hat, hnewlen]
              have hend : o + nl + (direntAt split (o + nl)).len = o + (direntAt data o).len := by
                omega
              have hhead := @head_same o split (updateEntry split (o + nl) name inum mode)
                fun i _ hi => updateEntry_other (Or.inl (by omega))
              have hselflen : (direntAt (updateEntry split (o + nl) name inum mode) o).len = nl := by
                rw [Dirent.len, hhead.1, hself, holdlen]
              have hnamelen := le_tuxRecLen name.length
              have hreclen := tuxRecLen_pos name.length
              refine ⟨l₁ ++ o :: (o + nl) :: l₂, tiled_append.mpr ⟨o, h₁.before fun i hi => ?_, rfl,
                ⟨?_, ?_⟩, ?_⟩⟩
              · rw [updateEntry_other (Or.inl (by omega)), hother i (Or.inl hi)]
              · rw [hselflen]
                exact hnl8
              · rw [hselflen, hhead.2, hname, hnl]
              · rw [hselflen]
                refine updateEntry_tiled hlen ?_ ?_ ?_
                · rw [hatlen]
                  exact Nat.dvd_sub hfits.1 hnl8
                · omega
                · rw [hend]
                  exact h₂.behind fun i hi => hother i (Or.inr (by omega))

/-! ## Deletion -/

theorem clear_other {k i : ℕ} (h : i < o ∨ o + 12 + k ≤ i ∨ o + 8 ≤ i ∧ i < o + 10) :
    putAll data [(o + 12, List.replicate k 0), (o + 11, [0]), (o + 10, [0]),
      (o, List.replicate 8 0)] i = data i := by
  refine putAll_outside ?_
  simp only [List.forall_mem_cons, List.length_singleton, List.length_replicate]
  exact ⟨by omega, by omega, by omega, by omega, fun f hf => nomatch hf⟩

theorem clear_nameLen {k : ℕ} :
    (direntAt (putAll data [(o + 12, List.replicate k 0), (o + 11, [0]), (o + 10, [0]),
      (o, List.replicate 8 0)]) o).nameLen = 0 := by
  have hapart : [(o + 12, List.replicate k (0 : UInt8)), (o + 11, [0]), (o + 10, [0]),
      (o, List.replicate 8 0)].Pairwise Apart := by
    simp [Apart]
  have hholds := @holds_putAll _ data _ (o + 10, [0]) hapart (by simp)
  have hbyte := hholds.head
  dsimp only at hbyte
  rw [direntAt, hbyte]
  rfl

/-- Deletion gives a record to the one before it; the first of the block stays. -/
theorem deleteBytes_tiled (h : Tiled (direntAt data) 0 l stop) (ho : o ∈ l)
    (hdelete : deleteBytes data o = .ok data') : ∃ l', Tiled (direntAt data') 0 l' stop := by
  obtain ⟨l₁, l₂, rfl, h₁, hfits, h₂⟩ := h.split ho
  have hname := Nat.le_trans (le_tuxRecLen _) hfits.2
  have hprev := findPrev_spec (o + 1) none h₁ (by omega)
  unfold deleteBytes at hdelete
  dsimp only at hdelete
  rw [hprev] at hdelete
  rcases List.eq_nil_or_concat l₁ with rfl | ⟨l₀, p, rfl⟩
  · obtain rfl : 0 = o := h₁
    cases hdelete
    refine ⟨0 :: l₂, ?_⟩
    have hlen : (direntAt (putAll data [(0 + 12, List.replicate (direntAt data 0).nameLen 0),
        (0 + 11, [0]), (0 + 10, [0]), (0, List.replicate 8 0)]) 0).len = (direntAt data 0).len := by
      rw [Dirent.len, Dirent.len, direntAt_recLen, direntAt_recLen, clear_other (by omega),
        clear_other (by omega)]
    refine ⟨rfl, ⟨?_, ?_⟩, ?_⟩
    · rw [hlen]
      exact hfits.1
    · rw [hlen, clear_nameLen]
      exact Nat.le_trans (tuxRecLen_mono (Nat.zero_le _)) hfits.2
    · rw [hlen]
      exact h₂.behind fun i hi => clear_other (Or.inr (Or.inl (by omega)))
  · rw [List.concat_eq_append] at *
    obtain ⟨mid, h₀, rfl, hfitsp, hpo⟩ := tiled_append.mp h₁
    have hpo : p + (direntAt data p).len = o := hpo
    have hp16 := Nat.le_trans (tuxRecLen_pos _) hfitsp.2
    rw [List.getLast?_append, List.getLast?_singleton] at hdelete
    cases hd : tuxRecLenToDisk (o + tuxRecLenFromDisk (direntAt data o).recLen - p) with
    | error err =>
        simp only [bind, Except.bind, Option.some_or, hd] at hdelete
        cases hdelete
    | ok d =>
        simp only [bind, Except.bind, Option.some_or, hd] at hdelete
        cases hdelete
        have hsum : o + (direntAt data o).len - p = (direntAt data p).len + (direntAt data o).len := by
          omega
        have hd : tuxRecLenToDisk (o + (direntAt data o).len - p) = .ok d := hd
        obtain ⟨hdlen, hdlt⟩ := toDisk_disk (hsum ▸ Nat.dvd_add hfitsp.1 hfits.1) hd
        rw [hsum] at hdlen
        have hother (i : ℕ) (hi : i < p + 8 ∨ p + 10 ≤ i ∧ i < o ∨
            o + 12 + (direntAt data o).nameLen ≤ i) :
            putAll (setRecLen data p d) [(o + 12, List.replicate (direntAt data o).nameLen 0),
              (o + 11, [0]), (o + 10, [0]), (o, List.replicate 8 0)] i = data i := by
          rw [clear_other (by omega), setRecLen_other (by omega)]
        refine ⟨l₀ ++ p :: l₂, tiled_append.mpr ⟨p, h₀.before fun i hi => hother i (by omega), ?_⟩⟩
        generalize hnew : putAll (setRecLen data p d) [(o + 12, List.replicate
          (direntAt data o).nameLen 0), (o + 11, [0]), (o + 10, [0]), (o, List.replicate 8 0)] =
            new at hother ⊢
        have hrec : (direntAt new p).recLen = d := by
          rw [← hnew, (head_same fun i _ hi => clear_other (by omega)).1, setRecLen_recLen hdlt]
        have hlen : (direntAt new p).len = (direntAt data p).len + (direntAt data o).len := by
          rw [Dirent.len, hrec, hdlen]
        have hnamelen : (direntAt new p).nameLen = (direntAt data p).nameLen := by
          rw [direntAt, direntAt, hother (p + 10) (by omega)]
        refine ⟨rfl, ⟨?_, ?_⟩, ?_⟩
        · rw [hlen]
          exact Nat.dvd_add hfitsp.1 hfits.1
        · rw [hlen, hnamelen]
          exact Nat.le_trans hfitsp.2 (Nat.le_add_right _ _)
        · rw [hlen, ← Nat.add_assoc, hpo]
          exact h₂.behind fun i hi => hother i (by omega)

/-! ## Runs -/

theorem WellFormed.write (hw : WellFormed bits raw.view) {block : ℕ}
    (h : Tiled (direntAt data) 0 l (2 ^ bits)) :
    WellFormed bits (RawDirectory.view ⟨Function.update raw.data block data, raw.size⟩) := by
  have hblocks : Blocks bits (RawDirectory.view ⟨Function.update raw.data block data, raw.size⟩)
      (Function.update (chainOf bits raw.view) block l) (raw.size / 2 ^ bits) := by
    refine ⟨hw.size, fun i hi => ?_⟩
    dsimp only [RawDirectory.view]
    by_cases hb : i = block
    · subst hb
      rw [Function.update_self, Function.update_self]
      exact h
    · rw [Function.update_of_ne hb, Function.update_of_ne hb]
      exact hw.tiled i hi
  exact hblocks.wellFormed.1

/-- A new block behind the others. -/
theorem WellFormed.extend (hw : WellFormed bits raw.view)
    (h : Tiled (direntAt data) 0 l (2 ^ bits)) :
    WellFormed bits (RawDirectory.view
      ⟨Function.update raw.data (raw.size / 2 ^ bits) data, raw.size + 2 ^ bits⟩) := by
  have hsize : raw.size = raw.size / 2 ^ bits * 2 ^ bits := hw.size
  obtain ⟨n, hn⟩ : ∃ n, n = raw.size / 2 ^ bits := ⟨_, rfl⟩
  rw [← hn] at hsize ⊢
  have hblocks : Blocks bits
      (RawDirectory.view ⟨Function.update raw.data n data, raw.size + 2 ^ bits⟩)
      (Function.update (chainOf bits raw.view) n l) (n + 1) := by
    refine ⟨?_, fun i hi => ?_⟩
    · rw [Nat.succ_mul, ← hsize]
      rfl
    · dsimp only [RawDirectory.view]
      by_cases hb : i = n
      · subst hb
        rw [Function.update_self, Function.update_self]
        exact h
      · rw [Function.update_of_ne hb, Function.update_of_ne hb]
        exact hw.tiled i (show i < raw.size / 2 ^ bits by omega)
  exact hblocks.wellFormed.1

theorem freshBytes_head {d : ℕ} (hd : d < 65536) :
    (direntAt (freshBytes data (2 ^ bits) d) 0).recLen = d ∧
      (direntAt (freshBytes data (2 ^ bits) d) 0).nameLen = 0 := by
  have hrec : (direntAt (freshBytes data (2 ^ bits) d) 0).recLen = d := by
    have hholds : Holds (freshBytes data (2 ^ bits) d) 8 (be16 d) := holds_put
    rw [direntAt_recLen, hholds.head, hholds.tail.head, UInt8.toNat_ofNat', UInt8.toNat_ofNat']
    omega
  refine ⟨hrec, ?_⟩
  have hbyte : freshBytes data (2 ^ bits) d 10 = 0 := by
    have hzero : Holds (put (put data 0 (List.replicate (2 ^ bits) 0)) 0 (List.replicate 12 0)) 0
      (List.replicate 12 0) := holds_put
    have hother : freshBytes data (2 ^ bits) d 10 =
        put (put data 0 (List.replicate (2 ^ bits) 0)) 0 (List.replicate 12 0) 10 :=
      @put_of_ge _ _ 8 (be16 d) 10 (Nat.le_refl 10)
    rw [hother]
    exact hzero 10 0 rfl
  rw [direntAt, hbyte]
  rfl

theorem createRaw_size (hcreate : createRaw bits raw name inum mode = .ok (raw', off)) :
    raw.size ≤ raw'.size := by
  unfold createRaw at hcreate
  simp only [bind, Except.bind] at hcreate
  split at hcreate
  · cases hcreate
  · split at hcreate
    · split at hcreate
      · cases hcreate
      · cases hcreate
        exact Nat.le_refl _
    · split at hcreate
      · cases hcreate
      · split at hcreate
        · cases hcreate
        · cases hcreate
          exact Nat.le_add_right _ _

theorem createRaw_wellFormed (hw : WellFormed bits raw.view) (hlen : name.length ≤ 255)
    (hfit : tuxRecLen name.length ≤ 2 ^ bits)
    (hcreate : createRaw bits raw name inum mode = .ok (raw', off)) (hsize : raw'.size < 2 ^ 32) :
    WellFormed bits raw'.view := by
  unfold createRaw at hcreate
  simp only [bind, Except.bind] at hcreate
  split at hcreate
  · cases hcreate
  · next place hplace =>
      split at hcreate
      · next block offset =>
          -- a record of some block has room
          split at hcreate
          · cases hcreate
          · next new hnew =>
              cases hcreate
              have hn : blocksOf bits raw.view.size = raw.view.size / 2 ^ bits :=
                hw.blocksOf_eq hsize
              rw [findRoom, hn] at hplace
              rcases scanBlocks_spec raw.view (hasRoom (tuxRecLen name.length))
                (chainOf bits raw.view) (raw.view.size / 2 ^ bits) 0
                (fun i hi => hw.tiled i (by omega))
                (Nat.lt_of_lt_of_le (by decide) (tuxRecLen_pos _)) with
                ⟨i, o, hscan, hi, ho, hroom⟩ | ⟨hscan, -⟩
              · rw [hscan] at hplace
                cases hplace
                obtain ⟨l, hl⟩ := createBytes_tiled (hw.tiled block (by omega)) ho hlen hroom hnew
                exact hw.write hl
              · rw [hscan] at hplace
                cases hplace
      · -- a new block
        split at hcreate
        · cases hcreate
        · next d hd =>
            split at hcreate
            · cases hcreate
            · next new hnew =>
                cases hcreate
                have hle : raw.size ≤ raw.size + 2 ^ bits := Nat.le_add_right _ _
                have h16 := Nat.le_trans (tuxRecLen_pos _) hfit
                have h8 : 8 ∣ 2 ^ bits := by
                  have hbits : 4 ≤ bits := (Nat.pow_le_pow_iff_right (Nat.lt_succ_self 1)).mp h16
                  exact Nat.pow_dvd_pow 2 (show 3 ≤ bits by omega)
                obtain ⟨hdlen, hdlt⟩ := toDisk_disk h8 hd
                have hn : blocksOf bits raw.size = raw.size / 2 ^ bits :=
                  hw.blocksOf_eq (Nat.lt_of_le_of_lt hle hsize)
                obtain ⟨hrec, hzero⟩ :=
                  @freshBytes_head bits (raw.data (blocksOf bits raw.size)) d hdlt
                have hfresh := Dirent.len.eq_def
                  (direntAt (freshBytes (raw.data (blocksOf bits raw.size)) (2 ^ bits) d) 0)
                rw [hrec, hdlen] at hfresh
                have htiled : Tiled (direntAt (freshBytes (raw.data (blocksOf bits raw.size))
                    (2 ^ bits) d)) 0 [0] (2 ^ bits) := by
                  refine ⟨rfl, ⟨hfresh ▸ h8, ?_⟩, ?_⟩
                  · rw [hfresh, hzero]
                    exact Nat.le_trans (tuxRecLen_mono (Nat.zero_le _)) hfit
                  · rw [hfresh]
                    exact Nat.zero_add _
                have hroom : hasRoom (tuxRecLen name.length) (direntAt (freshBytes
                    (raw.data (blocksOf bits raw.size)) (2 ^ bits) d) 0) = true := by
                  have hlen' : tuxRecLen name.length ≤ tuxRecLenFromDisk (direntAt (freshBytes
                    (raw.data (blocksOf bits raw.size)) (2 ^ bits) d) 0).recLen := by
                    rw [hrec, hdlen]
                    exact hfit
                  simp only [hasRoom, isDeleted, hzero, hlen', decide_true, Bool.true_and,
                    Bool.true_or]
                obtain ⟨l, hl⟩ := createBytes_tiled htiled List.mem_cons_self hlen hroom hnew
                rw [hn]
                exact hw.extend hl

theorem Changes.wellFormed (h : Changes bits raw raw') (hw : WellFormed bits raw.view)
    (hsize : raw'.size < 2 ^ 32) : WellFormed bits raw'.view := by
  induction h with
  | start => exact hw
  | create h name inum mode hpos hlen hfit hcreate ih =>
      have hw' := ih (Nat.lt_of_le_of_lt (createRaw_size hcreate) hsize)
      exact createRaw_wellFormed hw' hlen hfit hcreate hsize
  | delete h hblock hrecord hdelete ih =>
      have hw' := ih hsize
      obtain ⟨l, hl⟩ := deleteBytes_tiled (hw'.tiled _ hblock) hrecord hdelete
      exact hw'.write hl

end

end Tux3.Dir
