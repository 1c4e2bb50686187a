import Tux3.Dir
import Mathlib.Data.List.Basic

/-!
# The records of a directory block

The offsets of the records of a block are a list: each record begins where the one before it ends,
and the last ends with the block. Creation and deletion are local changes of this list.
-/
namespace Tux3.Dir

/-- The length of a record in the block. -/
def Dirent.len (entry : Dirent) : ℕ := tuxRecLenFromDisk entry.recLen

/-- A record fits its name and keeps the alignment. -/
def Dirent.Fits (entry : Dirent) : Prop :=
  8 ∣ entry.len ∧ tuxRecLen entry.nameLen ≤ entry.len

/-- The records at a list of offsets tile a block from one offset to another. -/
def Tiled (b : Block) : ℕ → List ℕ → ℕ → Prop
  | start, [], stop => start = stop
  | start, o :: l, stop => o = start ∧ (b o).Fits ∧ Tiled b (o + (b o).len) l stop

/-- A live record: its name, offset, inode number and type. -/
def Live (b : Block) (l : List ℕ) (name : List UInt8) (o inum type : ℕ) : Prop :=
  o ∈ l ∧ tuxMatch name (b o) = true ∧ (b o).inum = inum ∧ (b o).type = type

/-- Every record has a name, the first of the block apart. -/
def Packed (b : Block) (l : List ℕ) : Prop :=
  ∀ x ∈ l, (∃ name, tuxMatch name (b x) = true) ∨ x = 0 ∧ isDeleted (b x) = true

section
variable {b b' : Block} {start stop mid o x : ℕ} {l l₁ l₂ : List ℕ} {name : List UInt8}

/-! ## Lengths -/

theorem tuxRecLen_dvd (n : ℕ) : 8 ∣ tuxRecLen n := ⟨(n + 12 + 7) / 8, Nat.mul_comm _ _⟩

theorem tuxRecLen_pos (n : ℕ) : 16 ≤ tuxRecLen n := by
  unfold tuxRecLen
  omega

theorem tuxRecLen_mono {m n : ℕ} (h : m ≤ n) : tuxRecLen m ≤ tuxRecLen n := by
  unfold tuxRecLen
  omega

theorem Dirent.Fits.pos {entry : Dirent} (h : entry.Fits) : 0 < entry.len :=
  Nat.lt_of_lt_of_le (Nat.lt_of_lt_of_le (by decide) (tuxRecLen_pos _)) h.2

theorem Dirent.Fits.recLen_ne {entry : Dirent} (h : entry.Fits) : entry.recLen ≠ 0 := by
  intro h0
  have hpos := h.pos
  rw [Dirent.len, h0] at hpos
  exact absurd hpos (by decide)

theorem toDisk_ok {len : ℕ} (hle : len ≤ 65536) (h8 : 8 ∣ len) :
    ∃ d, tuxRecLenToDisk len = .ok d ∧ tuxRecLenFromDisk d = len := by
  unfold tuxRecLenToDisk tuxRecLenFromDisk
  split
  · next heq => exact ⟨65535, rfl, by rw [if_pos rfl, heq]⟩
  · next hne =>
      rw [if_neg (by omega)]
      exact ⟨len, rfl, by rw [if_neg (by omega)]⟩

/-! ## Tilings -/

theorem tiled_append : Tiled b start (l₁ ++ l₂) stop ↔
    ∃ mid, Tiled b start l₁ mid ∧ Tiled b mid l₂ stop := by
  induction l₁ generalizing start with
  | nil => exact ⟨fun h => ⟨start, rfl, h⟩, fun ⟨_, rfl, h⟩ => h⟩
  | cons o l₁ ih =>
      rw [List.cons_append, Tiled, ih]
      constructor
      · rintro ⟨rfl, hfits, mid, h₁, h₂⟩
        exact ⟨mid, ⟨rfl, hfits, h₁⟩, h₂⟩
      · rintro ⟨mid, ⟨rfl, hfits, h₁⟩, h₂⟩
        exact ⟨rfl, hfits, mid, h₁, h₂⟩

theorem Tiled.congr (h : Tiled b start l stop) (heq : ∀ x ∈ l, b' x = b x) :
    Tiled b' start l stop := by
  induction l generalizing start with
  | nil => exact h
  | cons o l ih =>
      obtain ⟨rfl, hfits, h⟩ := h
      have ho := heq o List.mem_cons_self
      refine ⟨rfl, ho ▸ hfits, ?_⟩
      rw [ho]
      exact ih h fun x hx => heq x (List.mem_cons_of_mem _ hx)

theorem Tiled.le (h : Tiled b start l stop) : start ≤ stop := by
  induction l generalizing start with
  | nil => exact Nat.le_of_eq h
  | cons o l ih =>
      obtain ⟨rfl, -, h⟩ := h
      exact Nat.le_trans (Nat.le_add_right _ _) (ih h)

theorem Tiled.bounds (h : Tiled b start l stop) (hx : x ∈ l) :
    start ≤ x ∧ x + (b x).len ≤ stop ∧ (b x).Fits := by
  induction l generalizing start with
  | nil => cases hx
  | cons o l ih =>
      obtain ⟨rfl, hfits, h⟩ := h
      rcases List.mem_cons.mp hx with rfl | hx
      · exact ⟨Nat.le_refl _, h.le, hfits⟩
      · obtain ⟨hle, hstop, hx⟩ := ih h hx
        exact ⟨by omega, hstop, hx⟩

theorem Tiled.split (h : Tiled b start l stop) (ho : o ∈ l) :
    ∃ l₁ l₂, l = l₁ ++ o :: l₂ ∧ Tiled b start l₁ o ∧ (b o).Fits ∧
      Tiled b (o + (b o).len) l₂ stop := by
  obtain ⟨l₁, l₂, rfl⟩ := List.append_of_mem ho
  obtain ⟨mid, h₁, rfl, hfits, h₂⟩ := tiled_append.mp h
  exact ⟨l₁, l₂, rfl, h₁, hfits, h₂⟩

/-! ## Scans -/

/-- The loop of a scan finds the first record it looks for where the length still fits. -/
theorem scan_eq {f : Dirent → Bool} {fuel reclen : ℕ} (h : Tiled b start l stop)
    (hreclen : 0 < reclen) (hfuel : stop < fuel + start) :
    scan b stop reclen f fuel start =
      match l.find? fun x => x + reclen ≤ stop && f (b x) with
      | some x => .found x
      | none => .past := by
  induction fuel generalizing start l with
  | zero =>
      have hle := h.le
      omega
  | succ fuel ih =>
      rw [scan]
      split
      · next hpast =>
          have hnone : l.find? (fun x => x + reclen ≤ stop && f (b x)) = none := by
            refine List.find?_eq_none.mpr fun x hx => ?_
            have hle := (h.bounds hx).1
            rw [decide_eq_false (by omega)]
            exact Bool.false_ne_true
          rw [hnone]
      · next hle =>
          cases l with
          | nil =>
              have heq : start = stop := h
              omega
          | cons o l =>
              obtain ⟨rfl, hfits, h⟩ := h
              rw [if_neg hfits.recLen_ne, List.find?_cons, decide_eq_true (Nat.not_lt.mp hle),
                Bool.true_and]
              cases f (b o) with
              | true => rfl
              | false =>
                  have hpos : 0 < tuxRecLenFromDisk (b o).recLen := hfits.pos
                  exact ih h (by omega)

/-- The loop over the blocks ends at the first place it looks for, and never at a record without
length. -/
theorem scanBlocks_spec (dir : Directory) (f : Dirent → Bool) (chain : ℕ → List ℕ)
    (left block : ℕ) {reclen : ℕ} (h : ∀ i, i < block + left → Tiled (dir.block i) 0 (chain i) stop)
    (hreclen : 0 < reclen) :
    (∃ i o, scanBlocks dir stop reclen f left block = .ok (some (i, o)) ∧ i < block + left ∧
        o ∈ chain i ∧ f (dir.block i o) = true) ∨
      scanBlocks dir stop reclen f left block = .ok none ∧
        ∀ i, block ≤ i → i < block + left → ∀ o ∈ chain i, o + reclen ≤ stop →
          f (dir.block i o) = false := by
  induction left generalizing block with
  | zero => exact Or.inr ⟨rfl, fun i hi hi' => by omega⟩
  | succ left ih =>
      rw [scanBlocks, scan_eq (h block (by omega)) hreclen (by omega)]
      cases hfind : (chain block).find? fun x => x + reclen ≤ stop && f (dir.block block x) with
      | some o =>
          have hstop := List.find?_some hfind
          rw [Bool.and_eq_true, decide_eq_true_eq] at hstop
          exact Or.inl ⟨block, o, rfl, by omega, List.mem_of_find?_eq_some hfind, hstop.2⟩
      | none =>
          dsimp only
          have hnone := List.find?_eq_none.mp hfind
          rcases ih (block + 1) (fun i hi => h i (by omega)) with
            ⟨i, o, hscan, hi, hrest⟩ | ⟨hscan, hall⟩
          · exact Or.inl ⟨i, o, hscan, by omega, hrest⟩
          · refine Or.inr ⟨hscan, fun i hi hi' o ho hle => ?_⟩
            rcases Nat.eq_or_lt_of_le hi with rfl | hlt
            · have hno := hnone o ho
              rw [decide_eq_true hle, Bool.true_and] at hno
              exact Bool.not_eq_true _ |>.mp hno
            · exact hall i hlt (by omega) o ho hle

/-! ## Creation -/

/-- A record written by `tux_create_entry` has the one name. -/
theorem tuxMatch_created {entry : Dirent} {nm : List UInt8} {recLen inum type : ℕ}
    (hname : 0 < name.length) :
    tuxMatch nm { entry.copyName name with
      recLen := recLen, nameLen := name.length, inum := inum, type := type } = true ↔ nm = name := by
  unfold tuxMatch isDeleted Dirent.copyName
  simp only [Bool.and_eq_true, decide_eq_true_eq, Bool.not_eq_true', decide_eq_false_iff_not]
  constructor
  · rintro ⟨⟨hlen, -⟩, heq⟩
    rwa [hlen, List.take_left] at heq
  · rintro rfl
    refine ⟨⟨rfl, by omega⟩, ?_⟩
    rw [List.take_left]

theorem not_match_deleted {entry : Dirent} {nm : List UInt8} (h : isDeleted entry = true) :
    tuxMatch nm entry = false := by
  rw [tuxMatch, h, Bool.not_true, Bool.and_false, Bool.false_and]

theorem Packed.kept {l' : List ℕ} (h : Packed b l) (hkept : ∀ x ∈ l',
    (∃ name, tuxMatch name (b' x) = true) ∨ (x = 0 ∧ isDeleted (b' x) = true) ∨
      x ∈ l ∧ (b' x).nameLen = (b x).nameLen ∧ (b' x).name = (b x).name) : Packed b' l' := by
  intro x hx
  rcases hkept x hx with hlive | hdead | ⟨hmem, hlen, hname⟩
  · exact Or.inl hlive
  · exact Or.inr hdead
  · refine (h x hmem).imp (fun ⟨name, hmatch⟩ => ⟨name, ?_⟩) (fun ⟨h0, hdel⟩ => ⟨h0, ?_⟩)
    · rw [← hmatch, tuxMatch, tuxMatch, isDeleted, isDeleted, hlen, hname]
    · rw [← hdel, isDeleted, isDeleted, hlen]

theorem Tiled.around (h : Tiled b start l stop) (ho : o ∈ l) :
    ∃ l₁ l₂, l = l₁ ++ o :: l₂ ∧ Tiled b start l₁ o ∧ (b o).Fits ∧
      Tiled b (o + (b o).len) l₂ stop ∧ (∀ x ∈ l₁, x < o) ∧ ∀ x ∈ l₂, o + (b o).len ≤ x := by
  obtain ⟨l₁, l₂, rfl, h₁, hfits, h₂⟩ := h.split ho
  refine ⟨l₁, l₂, rfl, h₁, hfits, h₂, fun x hx => ?_, fun x hx => (h₂.bounds hx).1⟩
  have hb := h₁.bounds hx
  have hx0 := hb.2.2.pos
  omega

/-- A record that is written over a deleted one of the same length. -/
theorem reuse_spec {new : Dirent} (h : Tiled b start l stop) (ho : o ∈ l)
    (hdel : isDeleted (b o) = true) (hlen : new.len = (b o).len) (hfits : new.Fits)
    (hmatch : ∀ nm, tuxMatch nm new = true ↔ nm = name) :
    Tiled (Function.update b o new) start l stop ∧
      (Packed b l → Packed (Function.update b o new) l) ∧
      ∀ nm x i t, Live (Function.update b o new) l nm x i t ↔ Live b l nm x i t ∨
        (nm = name ∧ x = o ∧ i = new.inum ∧ t = new.type) := by
  obtain ⟨l₁, l₂, rfl, h₁, -, h₂, hleft, hright⟩ := h.around ho
  have hsame : ∀ x, x ≠ o → Function.update b o new x = b x :=
    fun x hx => Function.update_of_ne hx _ _
  refine ⟨?_, fun hpacked => hpacked.kept fun x hx => ?_, fun nm x i t => ?_⟩
  · refine tiled_append.mpr ⟨o, h₁.congr fun x hx => hsame x (Nat.ne_of_lt (hleft x hx)), rfl, ?_, ?_⟩
    · rw [Function.update_self]
      exact hfits
    · rw [Function.update_self, hlen]
      have hpos : 0 < (b o).len := hlen ▸ hfits.pos
      exact h₂.congr fun x hx => hsame x (by have := hright x hx; omega)
  · by_cases hxo : x = o
    · subst hxo
      rw [Function.update_self]
      exact Or.inl ⟨name, (hmatch name).mpr rfl⟩
    · rw [hsame x hxo]
      exact Or.inr (Or.inr ⟨hx, rfl, rfl⟩)
  · by_cases hx : x = o
    · subst hx
      unfold Live
      rw [Function.update_self, not_match_deleted hdel, hmatch]
      simp [ho, eq_comm]
    · unfold Live
      rw [hsame x hx]
      simp [hx]

/-- A record whose slack is given to a new one behind it. -/
theorem slack_spec {self new : Dirent} {nl : ℕ} (h : Tiled b start l stop) (ho : o ∈ l)
    (hself : self.Fits) (hselflen : self.len = nl) (hkept : self.nameLen = (b o).nameLen ∧
      self.name = (b o).name ∧ self.inum = (b o).inum ∧ self.type = (b o).type)
    (hnew : new.Fits) (hsum : nl + new.len = (b o).len)
    (hmatch : ∀ nm, tuxMatch nm new = true ↔ nm = name) {b₂ : Block}
    (hb₂ : b₂ = Function.update (Function.update b o self) (o + nl) new) :
    ∃ l', Tiled b₂ start l' stop ∧ (Packed b l → Packed b₂ l') ∧
      ∀ nm x i t, Live b₂ l' nm x i t ↔ Live b l nm x i t ∨
        (nm = name ∧ x = o + nl ∧ i = new.inum ∧ t = new.type) := by
  obtain ⟨l₁, l₂, rfl, h₁, -, h₂, hleft, hright⟩ := h.around ho
  have hnlpos : 0 < nl := hselflen ▸ hself.pos
  have hnewpos := hnew.pos
  have hne : o ≠ o + nl := by omega
  have hatself : b₂ o = self := by
    rw [hb₂, Function.update_of_ne hne, Function.update_self]
  have hat : b₂ (o + nl) = new := by
    rw [hb₂, Function.update_self]
  have hother : ∀ x, x ≠ o → x ≠ o + nl → b₂ x = b x := by
    intro x hx hx'
    rw [hb₂, Function.update_of_ne hx', Function.update_of_ne hx]
  have hoff : o + nl ∉ l₁ ++ o :: l₂ := by
    intro hmem
    rcases List.mem_append.mp hmem with hmem | hmem
    · have hlt := hleft _ hmem
      omega
    · rcases List.mem_cons.mp hmem with hmem | hmem
      · omega
      · have hle := hright _ hmem
        omega
  refine ⟨l₁ ++ o :: (o + nl) :: l₂, ?_, fun hpacked => hpacked.kept fun x hx => ?_,
    fun nm x i t => ?_⟩
  · refine tiled_append.mpr ⟨o, h₁.congr fun x hx => ?_, rfl, hatself ▸ hself, ?_, ?_, ?_⟩
    · have hlt := hleft x hx
      exact hother x (by omega) (by omega)
    · rw [hatself, hselflen]
    · exact hat ▸ hnew
    · rw [hat, Nat.add_assoc, hsum]
      refine h₂.congr fun x hx => ?_
      have hle := hright x hx
      exact hother x (by omega) (by omega)
  · by_cases hxn : x = o + nl
    · subst hxn
      rw [hat]
      exact Or.inl ⟨name, (hmatch name).mpr rfl⟩
    · have hmem : x ∈ l₁ ++ o :: l₂ := by
        simpa [hxn] using hx
      refine Or.inr (Or.inr ⟨hmem, ?_⟩)
      by_cases hxo : x = o
      · rw [hxo, hatself]
        exact ⟨hkept.1, hkept.2.1⟩
      · rw [hother x hxo hxn]
        exact ⟨rfl, rfl⟩
  · unfold Live
    by_cases hx : x = o + nl
    · subst hx
      rw [hat, hmatch]
      constructor
      · rintro ⟨-, hn, hi, ht⟩
        exact Or.inr ⟨hn, rfl, hi.symm, ht.symm⟩
      · rintro (⟨hmem, -⟩ | ⟨hn, -, hi, ht⟩)
        · exact absurd hmem hoff
        · exact ⟨by simp, hn, hi.symm, ht.symm⟩
    · have hmem : x ∈ l₁ ++ o :: (o + nl) :: l₂ ↔ x ∈ l₁ ++ o :: l₂ := by
        simp [hx]
      rw [hmem]
      by_cases hxo : x = o
      · subst hxo
        have hm : tuxMatch nm self = tuxMatch nm (b x) := by
          rw [tuxMatch, tuxMatch, isDeleted, isDeleted, hkept.1, hkept.2.1]
        rw [hatself, hm, hkept.2.2.1, hkept.2.2.2]
        exact ⟨Or.inl, fun h => h.elim id fun h => absurd h.2.1 hne⟩
      · rw [hother x hxo hx]
        exact ⟨Or.inl, fun h => h.elim id fun h => absurd h.2.1 hx⟩

/-- `create` reuses a deleted record or takes the slack of a live one: one more live record, and
the others where they were. -/
theorem createAt_spec (inum mode : ℕ) (h : Tiled b start l stop) (ho : o ∈ l) (hstop : stop ≤ 65536)
    (hname : 0 < name.length) (hroom : hasRoom (tuxRecLen name.length) (b o) = true) :
    ∃ b' off l', createAt b o name inum mode = .ok (b', off) ∧ Tiled b' start l' stop ∧
      off < stop ∧ (Packed b l → Packed b' l') ∧
      ∀ nm x i t, Live b' l' nm x i t ↔ Live b l nm x i t ∨
        (nm = name ∧ x = off ∧ i = inum ∧ t = tuxTypeByMode mode) := by
  obtain ⟨-, hend, hfits⟩ := h.bounds ho
  have hpos := hfits.pos
  unfold createAt
  dsimp only
  cases hdel : isDeleted (b o) with
  | true =>
      have hlen : tuxRecLen name.length ≤ (b o).len := by
        simp only [hasRoom, hdel, Bool.true_and, Bool.or_eq_true, decide_eq_true_eq] at hroom
        rcases hroom with hroom | hroom
        · exact hroom
        · exact Nat.le_trans (Nat.le_add_left _ _) hroom
      obtain ⟨htiled, hpacked, hlive⟩ := @reuse_spec b start stop o l name { (b o).copyName name with
        nameLen := name.length, inum := inum, type := tuxTypeByMode mode } h ho hdel rfl
        ⟨hfits.1, hlen⟩ fun nm => tuxMatch_created hname
      exact ⟨_, o, l, rfl, htiled, by omega, hpacked, hlive⟩
  | false =>
      rw [if_neg Bool.false_ne_true]
      simp only [hasRoom, hdel, Bool.false_and, Bool.false_or, decide_eq_true_eq] at hroom
      obtain ⟨nl, hnl⟩ : ∃ nl, nl = tuxRecLen (b o).nameLen := ⟨_, rfl⟩
      rw [← hnl] at hroom ⊢
      change nl + tuxRecLen name.length ≤ (b o).len at hroom
      have hnl8 : 8 ∣ nl := hnl ▸ tuxRecLen_dvd _
      have hreclen := tuxRecLen_pos name.length
      have hnlpos := tuxRecLen_pos (b o).nameLen
      have hrest8 : 8 ∣ (b o).len - nl := Nat.dvd_sub hfits.1 hnl8
      obtain ⟨dnew, hdnew, hdnew'⟩ := toDisk_ok (show (b o).len - nl ≤ 65536 by omega) hrest8
      obtain ⟨dold, hdold, hdold'⟩ := toDisk_ok (show nl ≤ 65536 by omega) hnl8
      have hnew : ∀ entry : Dirent, entry.recLen = dnew → entry.nameLen = name.length →
          entry.Fits ∧ nl + entry.len = (b o).len := by
        intro entry hrec hlen
        have heq : entry.len = (b o).len - nl := (congrArg tuxRecLenFromDisk hrec).trans hdnew'
        refine ⟨⟨heq ▸ hrest8, ?_⟩, by omega⟩
        rw [heq, hlen]
        omega
      have hselflen : ({ b o with recLen := dold } : Dirent).len = nl := hdold'
      obtain ⟨l', htiled, hpacked, hlive⟩ := @slack_spec b start stop o l name _
        { (Function.update b o { b o with recLen := dold } (o + nl)).copyName name with
          recLen := dnew, nameLen := name.length, inum := inum, type := tuxTypeByMode mode } nl
        h ho ⟨hselflen ▸ hnl8, by rw [hselflen, hnl]⟩ hselflen ⟨rfl, rfl, rfl, rfl⟩
        (hnew _ rfl rfl).1 (hnew _ rfl rfl).2 (fun nm => tuxMatch_created hname) _ rfl
      refine ⟨_, o + nl, l', ?_, htiled, by omega, hpacked, hlive⟩
      rw [show tuxRecLenFromDisk (b o).recLen = (b o).len from rfl, hdnew, hdold]
      rfl

/-! ## Deletion -/

theorem findPrev_spec (fuel : ℕ) (prev : Option ℕ) (h : Tiled b start l o) (hfuel : o < fuel + start) :
    findPrev b o fuel prev start = .ok (match l.getLast? with | some x => some x | none => prev) := by
  induction fuel generalizing start l prev with
  | zero =>
      have hle := h.le
      omega
  | succ fuel ih =>
      cases l with
      | nil =>
          have heq : start = o := h
          rw [findPrev, if_neg (by omega)]
          rfl
      | cons x l =>
          obtain ⟨rfl, hfits, h⟩ := h
          have hpos : 0 < tuxRecLenFromDisk (b x).recLen := hfits.pos
          have hle : x + tuxRecLenFromDisk (b x).recLen ≤ o := h.le
          rw [findPrev, if_pos (by omega), if_neg hfits.recLen_ne]
          refine (ih _ h (by rw [Dirent.len]; omega)).trans ?_
          cases l with
          | nil => rfl
          | cons y l =>
              rw [List.getLast?_cons_cons, List.getLast?_cons]

/-- `tux_delete_entry` gives the record of a live entry to the one before it; the first record of
the block stays as a deleted one. -/
theorem tuxDeleteEntry_spec (h : Tiled b 0 l stop) (ho : o ∈ l) (hstop : stop ≤ 65536) :
    ∃ b' l', tuxDeleteEntry b o = .ok b' ∧ Tiled b' 0 l' stop ∧ (Packed b l → Packed b' l') ∧
      ∀ nm x i t, Live b' l' nm x i t ↔ Live b l nm x i t ∧ x ≠ o := by
  obtain ⟨l₁, l₂, rfl, h₁, hfits, h₂, hleft, hright⟩ := h.around ho
  have hpos := hfits.pos
  have hend := (h.bounds ho).2.1
  have hprev := findPrev_spec (o + 1) none h₁ (by omega)
  have hmatch : ∀ (entry : Dirent) nm, tuxMatch nm { entry.copyName
      (List.replicate (b o).nameLen 0) with nameLen := 0, type := 0, inum := 0 } = false :=
    fun entry nm => not_match_deleted rfl
  rcases List.eq_nil_or_concat l₁ with rfl | ⟨l₀, p, rfl⟩
  · obtain rfl : 0 = o := h₁
    set b' := Function.update b 0 { (b 0).copyName (List.replicate (b 0).nameLen 0) with
      nameLen := 0, type := 0, inum := 0 } with hb'
    have hself := Function.update_self 0 { (b 0).copyName (List.replicate (b 0).nameLen 0) with
      nameLen := 0, type := 0, inum := 0 } b
    rw [← hb'] at hself
    have hlen : (b' 0).len = (b 0).len := by
      rw [hself]
      rfl
    have hother : ∀ x, x ≠ 0 → b' x = b x := fun x hx => Function.update_of_ne hx _ _
    refine ⟨b', 0 :: l₂, ?_, ⟨rfl, ⟨hlen ▸ hfits.1, ?_⟩, ?_⟩,
      fun hpacked => hpacked.kept fun x hx => ?_, fun nm x i t => ?_⟩
    · rw [tuxDeleteEntry, hprev]
      rfl
    · rw [hlen, hself]
      exact Nat.le_trans (tuxRecLen_mono (Nat.zero_le _)) hfits.2
    · rw [hlen]
      exact h₂.congr fun x hx => hother x (by have := hright x hx; omega)
    · by_cases hx0 : x = 0
      · subst hx0
        rw [hself]
        exact Or.inr (Or.inl ⟨rfl, rfl⟩)
      · rw [hother x hx0]
        exact Or.inr (Or.inr ⟨hx, rfl, rfl⟩)
    · unfold Live
      by_cases hx : x = 0
      · subst hx
        rw [hself, hmatch]
        simp
      · rw [hother x hx]
        exact ⟨fun h => ⟨h, hx⟩, And.left⟩
  · rw [List.concat_eq_append] at *
    obtain ⟨mid, h₀, rfl, hfitsp, hpo⟩ := tiled_append.mp h₁
    have hpo : p + (b p).len = o := hpo
    have hppos := hfitsp.pos
    obtain ⟨d, hd, hd'⟩ := toDisk_ok (show o + (b o).len - p ≤ 65536 by omega)
      (by rw [show o + (b o).len - p = (b p).len + (b o).len by omega]
          exact Nat.dvd_add hfitsp.1 hfits.1)
    have hne : p ≠ o := by omega
    set b₁ := Function.update b p { b p with recLen := d } with hb₁
    set b' := Function.update b₁ o { (b₁ o).copyName (List.replicate (b o).nameLen 0) with
      nameLen := 0, type := 0, inum := 0 } with hb'
    have hself : b' p = { b p with recLen := d } := by
      rw [hb', Function.update_of_ne hne, hb₁, Function.update_self]
    have hother : ∀ x, x ≠ p → x ≠ o → b' x = b x := by
      intro x hx hx'
      rw [hb', Function.update_of_ne hx', hb₁, Function.update_of_ne hx]
    have hlen : (b' p).len = (b p).len + (b o).len := by
      rw [hself]
      change tuxRecLenFromDisk d = _
      omega
    have hleft₀ : ∀ x ∈ l₀, x < p := by
      intro x hx
      have hb := h₀.bounds hx
      have hx0 := hb.2.2.pos
      omega
    have hno : o ∉ l₀ ++ p :: l₂ := by
      intro hmem
      rcases List.mem_append.mp hmem with hmem | hmem
      · have hlt := hleft₀ o hmem
        omega
      · rcases List.mem_cons.mp hmem with hmem | hmem
        · exact hne hmem.symm
        · have hle := hright o hmem
          omega
    refine ⟨b', l₀ ++ p :: l₂, ?_, ?_, fun hpacked => hpacked.kept fun x hx => ?_, fun nm x i t => ?_⟩
    · have hdisk : tuxRecLenToDisk (o + tuxRecLenFromDisk (b o).recLen - p) = .ok d := hd
      rw [tuxDeleteEntry, hprev, List.getLast?_append, List.getLast?_singleton]
      simp only [bind, Except.bind, Option.some_or, hdisk]
      rfl
    · refine tiled_append.mpr ⟨p, h₀.congr fun x hx => ?_, rfl, ⟨?_, ?_⟩, ?_⟩
      · have hlt := hleft₀ x hx
        exact hother x (by omega) (by omega)
      · rw [hlen]
        exact Nat.dvd_add hfitsp.1 hfits.1
      · rw [hlen, hself]
        exact Nat.le_trans hfitsp.2 (Nat.le_add_right _ _)
      · rw [hlen, ← Nat.add_assoc, hpo]
        refine h₂.congr fun x hx => ?_
        have hle := hright x hx
        exact hother x (by omega) (by omega)
    · have hxo : x ≠ o := fun heq => hno (heq ▸ hx)
      have hmem : x ∈ l₀ ++ [p] ++ o :: l₂ := by
        simpa [hxo] using hx
      refine Or.inr (Or.inr ⟨hmem, ?_⟩)
      by_cases hxp : x = p
      · rw [hxp, hself]
        exact ⟨rfl, rfl⟩
      · rw [hother x hxp hxo]
        exact ⟨rfl, rfl⟩
    · unfold Live
      by_cases hx : x = o
      · subst hx
        exact ⟨fun h => absurd h.1 hno, fun h => absurd rfl h.2⟩
      · have hmem : x ∈ l₀ ++ p :: l₂ ↔ x ∈ l₀ ++ [p] ++ o :: l₂ := by
          simp [hx]
        rw [hmem]
        by_cases hxp : x = p
        · subst hxp
          rw [hself]
          exact ⟨fun h => ⟨h, hx⟩, And.left⟩
        · rw [hother x hxp hx]
          exact ⟨fun h => ⟨h, hx⟩, And.left⟩

end

end Tux3.Dir
