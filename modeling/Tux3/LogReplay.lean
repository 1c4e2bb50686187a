import Tux3.Replay

/-!
# What the log writers write

A mounted log is a list of groups of entries, one group per log block, newest block
first. The invariant ties the bytes, the marks of the entries and the chain on
disk to that list.
-/
namespace Tux3.Log

open Segment

/-! ## Entries -/

/-- A call of one of the nine writers. -/
inductive Entry where
  | balloc (block count : ℕ)
  | bfree (block count : ℕ)
  | bfreeOnRollup (block count : ℕ)
  | leafRedirect (oldblock newblock : ℕ)
  | bnodeRedirect (oldblock newblock : ℕ)
  | bnodeRoot (root count left right rkey : ℕ)
  | bnodeSplit (src pos dest : ℕ)
  | bnodeAdd (parent child key : ℕ)
  | bnodeUpdate (parent child key : ℕ)
  deriving DecidableEq, Repr

def Entry.log (log : LogSb) : Entry → Option LogSb
  | .balloc block count => logBalloc log block count
  | .bfree block count => logBfree log block count
  | .bfreeOnRollup block count => logBfreeOnRollup log block count
  | .leafRedirect oldblock newblock => logLeafRedirect log oldblock newblock
  | .bnodeRedirect oldblock newblock => logBnodeRedirect log oldblock newblock
  | .bnodeRoot root count left right rkey => logBnodeRoot log root count left right rkey
  | .bnodeSplit src pos dest => logBnodeSplit log src pos dest
  | .bnodeAdd parent child key => logBnodeAdd log parent child key
  | .bnodeUpdate parent child key => logBnodeUpdate log parent child key

def Entry.code : Entry → Code
  | .balloc .. => .balloc
  | .bfree .. => .bfree
  | .bfreeOnRollup .. => .bfreeOnRollup
  | .leafRedirect .. => .leafRedirect
  | .bnodeRedirect .. => .bnodeRedirect
  | .bnodeRoot .. => .bnodeRoot
  | .bnodeSplit .. => .bnodeSplit
  | .bnodeAdd .. => .bnodeAdd
  | .bnodeUpdate .. => .bnodeUpdate

/-- The bytes an entry leaves in the log. -/
def Entry.encode : Entry → List Byte
  | .balloc block count => Code.balloc.byte :: BitVec.ofNat 8 count :: encode48 block
  | .bfree block count => Code.bfree.byte :: BitVec.ofNat 8 count :: encode48 block
  | .bfreeOnRollup block count => Code.bfreeOnRollup.byte :: BitVec.ofNat 8 count :: encode48 block
  | .leafRedirect oldblock newblock =>
      Code.leafRedirect.byte :: encode48 oldblock ++ encode48 newblock
  | .bnodeRedirect oldblock newblock =>
      Code.bnodeRedirect.byte :: encode48 oldblock ++ encode48 newblock
  | .bnodeRoot root count left right rkey =>
      Code.bnodeRoot.byte :: BitVec.ofNat 8 count ::
        encode48 root ++ encode48 left ++ encode48 right ++ encode48 rkey
  | .bnodeSplit src pos dest =>
      Code.bnodeSplit.byte :: encode32 pos ++ encode48 src ++ encode48 dest
  | .bnodeAdd parent child key =>
      Code.bnodeAdd.byte :: encode48 parent ++ encode48 child ++ encode48 key
  | .bnodeUpdate parent child key =>
      Code.bnodeUpdate.byte :: encode48 parent ++ encode48 child ++ encode48 key

/-- Blocks and keys below `2^48`, counts in a byte, and a root of one or two children. -/
def Entry.Valid : Entry → Prop
  | .balloc block count | .bfree block count | .bfreeOnRollup block count =>
      block < 2 ^ 48 ∧ count < 256
  | .leafRedirect oldblock newblock | .bnodeRedirect oldblock newblock =>
      oldblock < 2 ^ 48 ∧ newblock < 2 ^ 48
  | .bnodeRoot root count left right rkey =>
      root < 2 ^ 48 ∧ (count = 1 ∨ count = 2) ∧ left < 2 ^ 48 ∧ right < 2 ^ 48 ∧ rkey < 2 ^ 48
  | .bnodeSplit src pos dest => src < 2 ^ 48 ∧ pos < 2 ^ 32 ∧ dest < 2 ^ 48
  | .bnodeAdd parent child key | .bnodeUpdate parent child key =>
      parent < 2 ^ 48 ∧ child < 2 ^ 48 ∧ key < 2 ^ 48

/-- The fields the first walk is to decode. -/
def Entry.firstFields : Entry → List ℕ
  | .bnodeAdd parent child key | .bnodeUpdate parent child key => [parent, child, key]
  | _ => []

/-- The fields the second walk is to decode. -/
def Entry.secondFields : Entry → List ℕ
  | .balloc block count | .bfree block count | .bfreeOnRollup block count => [count, block]
  | _ => []

/-- The call of `update_bitmap` an entry stands for. -/
def Entry.update : Entry → Option Update
  | .balloc block count => some ⟨block, count, true⟩
  | .bfree block count | .bfreeOnRollup block count => some ⟨block, count, false⟩
  | _ => none

/-- The entries the first walk has no case for. -/
def Entry.Unread : Entry → Prop
  | .leafRedirect .. | .bnodeRedirect .. | .bnodeRoot .. | .bnodeSplit .. => True
  | _ => False

instance : DecidablePred Entry.Valid
  | .balloc block count | .bfree block count | .bfreeOnRollup block count =>
      inferInstanceAs (Decidable (block < 2 ^ 48 ∧ count < 256))
  | .leafRedirect oldblock newblock | .bnodeRedirect oldblock newblock =>
      inferInstanceAs (Decidable (oldblock < 2 ^ 48 ∧ newblock < 2 ^ 48))
  | .bnodeRoot root count left right rkey =>
      inferInstanceAs (Decidable (root < 2 ^ 48 ∧ (count = 1 ∨ count = 2) ∧ left < 2 ^ 48 ∧
        right < 2 ^ 48 ∧ rkey < 2 ^ 48))
  | .bnodeSplit src pos dest =>
      inferInstanceAs (Decidable (src < 2 ^ 48 ∧ pos < 2 ^ 32 ∧ dest < 2 ^ 48))
  | .bnodeAdd parent child key | .bnodeUpdate parent child key =>
      inferInstanceAs (Decidable (parent < 2 ^ 48 ∧ child < 2 ^ 48 ∧ key < 2 ^ 48))

theorem encode_length {e : Entry} (h : ¬ e.Unread) : e.encode.length = logsize e.code := by
  cases e <;> first | rfl | exact absurd trivial h

theorem encode_length_pos (e : Entry) : 0 < e.encode.length := by
  cases e <;> exact Nat.succ_pos _

theorem logsize_le (code : Code) : logsize code ≤ 26 := by
  cases code <;> decide

/-- What the writers assert of their arguments. -/
def Entry.Asserted : Entry → Prop
  | .balloc _ count | .bfree _ count | .bfreeOnRollup _ count => count < 256
  | .bnodeRoot _ count _ _ _ => count = 1 ∨ count = 2
  | _ => True

theorem Entry.Valid.asserted {e : Entry} (hv : e.Valid) : e.Asserted := by
  cases e with
  | balloc block count => exact hv.2
  | bfree block count => exact hv.2
  | bfreeOnRollup block count => exact hv.2
  | bnodeRoot root count left right rkey => exact hv.2.1
  | leafRedirect oldblock newblock => trivial
  | bnodeRedirect oldblock newblock => trivial
  | bnodeSplit src pos dest => trivial
  | bnodeAdd parent child key => trivial
  | bnodeUpdate parent child key => trivial

theorem log_eq {e : Entry} (ha : e.Asserted) (log : LogSb) :
    e.log log = (logBegin log (logsize e.code)).bind fun log => logEnd log e.encode := by
  cases e with
  | balloc block count => exact if_pos ha
  | bfree block count => exact if_pos ha
  | bfreeOnRollup block count => exact if_pos ha
  | leafRedirect oldblock newblock => rfl
  | bnodeRedirect oldblock newblock => rfl
  | bnodeRoot root count left right rkey =>
      simp only [Entry.log, logBnodeRoot, if_pos (show count = 1 ∨ count = 2 from ha)]
      rfl
  | bnodeSplit src pos dest => rfl
  | bnodeAdd parent child key => rfl
  | bnodeUpdate parent child key => rfl

theorem ofByte_byte (code : Code) : Code.ofByte code.byte = some code := by
  cases code <;> rfl

theorem encode_head (e : Entry) : ∃ rest, e.encode = e.code.byte :: rest := by
  cases e <;> exact ⟨_, rfl⟩

/-! ## Walking what was written -/

/-- A switch reads `fields e` from the bytes of every entry that `replay` knows. -/
def Reads (switch : Switch) (fields : Entry → List ℕ) : Prop :=
  ∀ e data pos, ¬ e.Unread → e.Valid → Holds data pos e.encode →
    switch e.code data (pos + 1) = some (fields e, pos + logsize e.code)

theorem extent_fields {data : Bytes} {pos block count : ℕ} {code : Byte} (hb : block < 2 ^ 48)
    (hc : count < 256)
    (h : Holds data pos (code :: BitVec.ofNat 8 count :: encode48 block)) :
    (data (pos + 1)).toNat = count ∧ decode48 data (pos + 1 + 1) = block := by
  refine ⟨?_, decode48_encode48 h.tail.tail hb⟩
  rw [h.tail.head, BitVec.toNat_ofNat, Nat.mod_eq_of_lt hc]

theorem bnode_fields {data : Bytes} {pos parent child key : ℕ} {code : Byte}
    (hp : parent < 2 ^ 48) (hc : child < 2 ^ 48) (hk : key < 2 ^ 48)
    (h : Holds data pos (code :: encode48 parent ++ encode48 child ++ encode48 key)) :
    decode48 data (pos + 1) = parent ∧ decode48 data (pos + 1 + 6) = child ∧
      decode48 data (pos + 1 + 12) = key := by
  obtain ⟨hpc, hkey⟩ := holds_append.mp h
  obtain ⟨hcode, hchild⟩ := holds_append.mp hpc
  exact ⟨decode48_encode48 hcode.tail hp, decode48_encode48 hchild hc, decode48_encode48 hkey hk⟩

theorem first_reads : Reads firstSwitch Entry.firstFields := by
  intro e data pos h hv hd
  cases e with
  | bnodeAdd parent child key | bnodeUpdate parent child key =>
      obtain ⟨hp, hc, hk⟩ := bnode_fields hv.1 hv.2.1 hv.2.2 hd
      simp only [Entry.code, firstSwitch, hp, hc, hk]
      rfl
  | balloc block count | bfree block count | bfreeOnRollup block count => rfl
  | leafRedirect oldblock newblock | bnodeRedirect oldblock newblock
  | bnodeRoot root count left right rkey | bnodeSplit src pos dest => exact absurd trivial h

theorem first_unread {e : Entry} (h : e.Unread) (data : Bytes) (pos : ℕ) :
    firstSwitch e.code data pos = none := by
  cases e <;> first | rfl | exact False.elim h

theorem second_reads : Reads secondSwitch Entry.secondFields := by
  intro e data pos h hv hd
  cases e with
  | balloc block count | bfree block count | bfreeOnRollup block count =>
      obtain ⟨hc, hb⟩ := extent_fields hv.1 hv.2 hd
      simp only [Entry.code, secondSwitch, hb, hc]
      rfl
  | bnodeAdd parent child key | bnodeUpdate parent child key => rfl
  | leafRedirect oldblock newblock | bnodeRedirect oldblock newblock
  | bnodeRoot root count left right rkey | bnodeSplit src pos dest => exact absurd trivial h

/-- Where an entry was written. -/
structure Mark where
  block : ℕ
  pos : ℕ
  entry : Entry
  deriving DecidableEq, Repr

/-- What a walk has to find at a mark. -/
def Mark.seen (fields : Entry → List ℕ) (m : Mark) : Seen :=
  ⟨m.block, m.pos, m.entry.code, fields m.entry⟩

def encodeAll (es : List Entry) : List Byte := es.flatMap Entry.encode

def blockMarks (block : ℕ) : ℕ → List Entry → List Mark
  | _, [] => []
  | pos, e :: es => ⟨block, pos, e⟩ :: blockMarks block (pos + e.encode.length) es

/-- The marks of the log blocks, newest block first in the list of groups. -/
def groupMarks : List (List Entry) → List Mark
  | [] => []
  | g :: older => groupMarks older ++ blockMarks older.length 0 g

/-- A finished log block that holds the entries `g`. -/
structure Stored (block : LogBlock) (g : List Entry) : Prop where
  magic : block.magic = magicLog
  bytes : block.bytes = (encodeAll g).length
  data : Holds block.data 0 (encodeAll g)

def AllStored (logmap : ℕ → LogBlock) : List (List Entry) → Prop
  | [] => True
  | g :: older => Stored (logmap older.length) g ∧ AllStored logmap older

section Walk
variable {switch : Switch} {fields : Entry → List ℕ} {log : LogBlock} {logmap : ℕ → LogBlock}

theorem walkBlock_step {e : Entry} {pos fuel block : ℕ} (hd : Holds log.data pos e.encode)
    (hlt : pos < log.bytes) :
    walkBlock switch log block (fuel + 1) pos =
      match switch e.code log.data (pos + 1) with
      | some (fields, next) =>
          (⟨block, pos, e.code, fields⟩ :: (walkBlock switch log block fuel next).1,
            (walkBlock switch log block fuel next).2)
      | none => ([], false) := by
  obtain ⟨rest, he⟩ := encode_head e
  rw [he] at hd
  rw [walkBlock, if_pos hlt, hd.head, ofByte_byte]
  cases h : switch e.code log.data (pos + 1) <;> simp only [h, bind, Option.bind, pure]

/-- A walk over entries it knows finds each at its mark. -/
theorem walkBlock_known (hr : Reads switch fields) (block : ℕ) {es : List Entry}
    (hv : ∀ e ∈ es, e.Valid) (hk : ∀ e ∈ es, ¬ e.Unread) {pos fuel : ℕ}
    (hd : Holds log.data pos (encodeAll es)) (hb : log.bytes = pos + (encodeAll es).length)
    (hf : (encodeAll es).length ≤ fuel) :
    walkBlock switch log block fuel pos =
      ((blockMarks block pos es).map (Mark.seen fields), true) := by
  induction es generalizing pos fuel with
  | nil =>
      cases fuel with
      | zero => rfl
      | succ fuel =>
          rw [walkBlock, if_neg (by rw [hb]; exact Nat.lt_irrefl _)]
          rfl
  | cons e es ih =>
      have hpos := encode_length_pos e
      rw [encodeAll, List.flatMap_cons] at hd hb hf
      rw [List.length_append] at hb hf
      obtain ⟨hde, hds⟩ := holds_append.mp hd
      obtain ⟨f, rfl⟩ := Nat.exists_eq_succ_of_ne_zero (show fuel ≠ 0 by omega)
      have hke := hk e List.mem_cons_self
      rw [walkBlock_step hde (by omega), hr e _ _ hke (hv e List.mem_cons_self) hde,
        ← encode_length hke]
      simp only
      rw [ih (fun x hx => hv x (List.mem_cons_of_mem _ hx))
        (fun x hx => hk x (List.mem_cons_of_mem _ hx)) hds
        (by rw [hb, encodeAll, Nat.add_assoc]) (by rw [encodeAll]; omega)]
      rfl

/-- The first walk stops at an entry it has no case for. -/
theorem walkBlock_unread (block : ℕ) {es : List Entry} (hv : ∀ e ∈ es, e.Valid)
    (hu : ∃ e ∈ es, e.Unread) {pos fuel : ℕ} (hd : Holds log.data pos (encodeAll es))
    (hb : log.bytes = pos + (encodeAll es).length) (hf : (encodeAll es).length ≤ fuel) :
    (walkBlock firstSwitch log block fuel pos).2 = false := by
  induction es generalizing pos fuel with
  | nil =>
      obtain ⟨e, he, -⟩ := hu
      cases he
  | cons e es ih =>
      have hpos := encode_length_pos e
      rw [encodeAll, List.flatMap_cons] at hd hb hf
      rw [List.length_append] at hb hf
      obtain ⟨hde, hds⟩ := holds_append.mp hd
      obtain ⟨f, rfl⟩ := Nat.exists_eq_succ_of_ne_zero (show fuel ≠ 0 by omega)
      rw [walkBlock_step hde (by omega)]
      by_cases he : e.Unread
      · rw [first_unread he]
      · rw [first_reads e _ _ he (hv e List.mem_cons_self) hde, ← encode_length he]
        refine ih (fun x hx => hv x (List.mem_cons_of_mem _ hx)) ?_ hds
          (by rw [hb, encodeAll, Nat.add_assoc]) (by rw [encodeAll]; omega)
        obtain ⟨x, hx, hxu⟩ := hu
        cases List.mem_cons.mp hx with
        | inl h => exact absurd (h ▸ hxu) he
        | inr h => exact ⟨x, h, hxu⟩

/-- The walk over the log blocks, with the last block taken off. -/
theorem walk_succ (n k : ℕ) :
    walk switch logmap (n + 1) k =
      match walk switch logmap n k with
      | (seen, false) => (seen, false)
      | (seen, true) =>
          (seen ++ (walkBlock switch (logmap (k + n)) (k + n) (logmap (k + n)).bytes 0).1,
            (walkBlock switch (logmap (k + n)) (k + n) (logmap (k + n)).bytes 0).2) := by
  induction n generalizing k with
  | zero =>
      rw [walk]
      simp only [walk, Nat.add_zero, List.nil_append]
      cases h : walkBlock switch (logmap k) k (logmap k).bytes 0 with
      | mk seen ok => cases ok <;> simp only [List.append_nil]
  | succ n ih =>
      conv_lhs => rw [walk]
      conv_rhs => rw [walk]
      cases h : walkBlock switch (logmap k) k (logmap k).bytes 0 with
      | mk seen ok =>
          cases ok with
          | false => simp only
          | true =>
              simp only [ih, Nat.add_assoc, Nat.add_comm 1 n]
              cases hn : walk switch logmap n (k + 1) with
              | mk rest ok => cases ok <;> simp only [List.append_assoc]

theorem walk_known (hr : Reads switch fields) {groups : List (List Entry)}
    (hs : AllStored logmap groups) (hv : ∀ g ∈ groups, ∀ e ∈ g, e.Valid)
    (hk : ∀ g ∈ groups, ∀ e ∈ g, ¬ e.Unread) :
    walk switch logmap groups.length 0 = ((groupMarks groups).map (Mark.seen fields), true) := by
  induction groups with
  | nil => rfl
  | cons g older ih =>
      obtain ⟨hg, ho⟩ := hs
      rw [List.length_cons, walk_succ, ih ho (fun x hx => hv x (List.mem_cons_of_mem _ hx))
        (fun x hx => hk x (List.mem_cons_of_mem _ hx))]
      simp only [Nat.zero_add]
      rw [walkBlock_known hr _ (hv g List.mem_cons_self) (hk g List.mem_cons_self) hg.data
        (by rw [hg.bytes, Nat.zero_add]) (Nat.le_of_eq hg.bytes.symm), groupMarks,
        List.map_append]

theorem walk_unread {groups : List (List Entry)} (hs : AllStored logmap groups)
    (hv : ∀ g ∈ groups, ∀ e ∈ g, e.Valid) (hu : ∃ g ∈ groups, ∃ e ∈ g, e.Unread) :
    (walk firstSwitch logmap groups.length 0).2 = false := by
  induction groups with
  | nil =>
      obtain ⟨g, hg, -⟩ := hu
      cases hg
  | cons g older ih =>
      obtain ⟨hg, ho⟩ := hs
      rw [List.length_cons, walk_succ]
      cases h : walk firstSwitch logmap older.length 0 with
      | mk seen ok =>
          cases ok with
          | false => rfl
          | true =>
              simp only [Nat.zero_add]
              refine walkBlock_unread _ (hv g List.mem_cons_self) ?_ hg.data
                (by rw [hg.bytes, Nat.zero_add]) (Nat.le_of_eq hg.bytes.symm)
              obtain ⟨x, hx, hxu⟩ := hu
              cases List.mem_cons.mp hx with
              | inl hxg => exact hxg ▸ hxu
              | inr hxo =>
                  have := ih ho (fun x hx => hv x (List.mem_cons_of_mem _ hx)) ⟨x, hxo, hxu⟩
                  rw [h] at this
                  cases this

theorem walkBlock_block {block fuel pos : ℕ} {s : Seen}
    (h : s ∈ (walkBlock switch log block fuel pos).1) : s.block = block := by
  induction fuel generalizing pos with
  | zero => cases h
  | succ fuel ih =>
      rw [walkBlock] at h
      split at h
      · split at h
        · cases List.mem_cons.mp h with
          | inl hs => rw [hs]
          | inr hs => exact ih hs
        · cases h
      · cases h

theorem walk_block {n k : ℕ} {s : Seen} (h : s ∈ (walk switch logmap n k).1) :
    s.block < k + n := by
  induction n generalizing k with
  | zero => cases h
  | succ n ih =>
      rw [walk] at h
      simp only at h
      cases hb : walkBlock switch (logmap k) k (logmap k).bytes 0 with
      | mk seen ok =>
          have hblock : ∀ s ∈ seen, s.block = k := by
            intro s hs
            have hin : s ∈ (walkBlock switch (logmap k) k (logmap k).bytes 0).1 := by
              rw [hb]
              exact hs
            exact walkBlock_block hin
          rw [hb] at h
          cases ok with
          | false =>
              have := hblock s h
              omega
          | true =>
              cases List.mem_append.mp h with
              | inl hs =>
                  have := hblock s hs
                  omega
              | inr hs =>
                  have := ih hs
                  omega

end Walk

end Tux3.Log
