import Tux3.DirBlocks

/-!
# A directory is a map

The reference map has for each name the inode number and type it was created with and the offset
that `tux_create_entry` returned. After every sequence of creations and deletions the blocks list
exactly its names, as long as offsets fit in `unsigned`.
-/
namespace Tux3.Dir

/-- What the reference map has for a name. -/
structure Held where
  inum : ℕ
  type : ℕ
  offset : ℕ
  deriving DecidableEq, Repr

abbrev Ref := List UInt8 → Option Held

section
variable (blockbits : ℕ)

/-- A creation that takes no offset of 4 GiB or more: there is room below, or the file is shorter. -/
def BelowLimit (dir : Directory) (len : ℕ) : Prop :=
  dir.size < 2 ^ 32 ∨ ∃ place, findRoom blockbits dir len = .ok (some place)

/-- The sequences of creations and deletions, with a condition on each creation. -/
inductive Run (cond : Directory → ℕ → Prop) : Directory → Ref → Prop where
  | start (block : ℕ → Block) : Run cond ⟨block, 0⟩ fun _ => none
  | create {dir dir' : Directory} {ref : Ref} {offset : ℕ} (name : List UInt8) (inum mode : ℕ)
      (h : Run cond dir ref) (hlen : 0 < name.length) (hle : name.length ≤ 255)
      (hfit : tuxRecLen name.length ≤ 2 ^ blockbits) (hnew : ref name = none)
      (hcond : cond dir name.length)
      (hcreate : tuxCreateEntry blockbits dir name inum mode = .ok (dir', offset)) :
      Run cond dir' (Function.update ref name (some ⟨inum, tuxTypeByMode mode, offset⟩))
  | delete {dir : Directory} {ref : Ref} {block offset : ℕ} {b : Block} (name : List UInt8)
      (h : Run cond dir ref) (hfind : tuxFindEntry blockbits dir name = .ok (block, offset))
      (hdelete : tuxDeleteEntry (dir.block block) offset = .ok b) :
      Run cond { dir with block := Function.update dir.block block b }
        (Function.update ref name none)

/-- The names in the first blocks of a directory. -/
def Listed (dir : Directory) (chain : ℕ → List ℕ) (n : ℕ) (name : List UInt8) (v : Held) : Prop :=
  ∃ i < n, ∃ o, Live (dir.block i) (chain i) name o v.inum v.type ∧
    v.offset = i * 2 ^ blockbits + o

/-- The blocks are tiled by the records at the offsets of `chain`, and list the reference map. -/
structure Represents (dir : Directory) (ref : Ref) (chain : ℕ → List ℕ) (n : ℕ) : Prop where
  size : dir.size = n * 2 ^ blockbits
  limit : dir.size ≤ 2 ^ 32
  small : 0 < n → 2 ^ blockbits ≤ 65536
  aligned : 0 < n → 8 ∣ 2 ^ blockbits
  tiled : ∀ i < n, Tiled (dir.block i) 0 (chain i) (2 ^ blockbits)
  listed : ∀ name v, ref name = some v ↔ Listed blockbits dir chain n name v

end

section
variable {bits n k o : ℕ} {dir dir' : Directory} {ref : Ref} {chain : ℕ → List ℕ}
  {name : List UInt8} {v : Held}

theorem match_unique {a b : List UInt8} {entry : Dirent} (ha : tuxMatch a entry = true)
    (hb : tuxMatch b entry = true) : a = b := by
  simp only [tuxMatch, Bool.and_eq_true, decide_eq_true_eq] at ha hb
  rw [ha.2, hb.2, ha.1.1, hb.1.1]

theorem place_unique {s i j x y : ℕ} (hx : x < s) (hy : y < s) (h : i * s + x = j * s + y) :
    i = j ∧ x = y := by
  have hs : 0 < s := by omega
  have hi : (i * s + x) / s = i := by
    rw [Nat.add_comm, Nat.add_mul_div_right _ _ hs, Nat.div_eq_of_lt hx, Nat.zero_add]
  have hj : (j * s + y) / s = j := by
    rw [Nat.add_comm, Nat.add_mul_div_right _ _ hs, Nat.div_eq_of_lt hy, Nat.zero_add]
  rw [h, hj] at hi
  subst hi
  exact ⟨rfl, by omega⟩

theorem Represents.blocksOf_eq (h : Represents bits dir ref chain n) :
    blocksOf bits dir.size = n := by
  rw [blocksOf, h.size, Nat.mul_div_cancel _ (Nat.two_pow_pos bits)]
  refine Nat.mod_eq_of_lt ?_
  rcases Nat.eq_zero_or_pos n with rfl | hn
  · decide
  · have h8 := Nat.le_of_dvd (Nat.two_pow_pos bits) (h.aligned hn)
    have hlimit := h.limit
    rw [h.size] at hlimit
    have hmul := Nat.mul_le_mul_left n h8
    omega

theorem Represents.offset_lt (h : Represents bits dir ref chain n) {i inum type : ℕ} (hi : i < n)
    (hlive : Live (dir.block i) (chain i) name o inum type) : o < 2 ^ bits := by
  obtain ⟨-, hstop, hfits⟩ := (h.tiled i hi).bounds hlive.1
  have hpos := hfits.pos
  omega

/-! ## Finding -/

/-- `tux_find_entry` finds the record of a name of the map and no other. -/
theorem Represents.find (h : Represents bits dir ref chain n) (name : List UInt8) :
    match ref name with
    | some v => ∃ i o, tuxFindEntry bits dir name = .ok (i, o) ∧ i < n ∧
        Live (dir.block i) (chain i) name o v.inum v.type ∧ v.offset = i * 2 ^ bits + o
    | none => tuxFindEntry bits dir name = .error .enoent := by
  have hreclen : 0 < tuxRecLen name.length :=
    Nat.lt_of_lt_of_le (by decide) (tuxRecLen_pos name.length)
  rw [tuxFindEntry, h.blocksOf_eq]
  have hn : 0 + n = n := Nat.zero_add n
  rcases scanBlocks_spec dir (tuxMatch name) chain n 0
    (fun i hi => h.tiled i (hn ▸ hi)) hreclen with ⟨i, o, hscan, hi, ho, hmatch⟩ | ⟨hscan, hall⟩
  · rw [hn] at hi
    have hlisted := (h.listed name ⟨(dir.block i o).inum, (dir.block i o).type, i * 2 ^ bits + o⟩).mpr
      ⟨i, hi, o, ⟨ho, hmatch, rfl, rfl⟩, rfl⟩
    rw [hlisted, hscan]
    exact ⟨i, o, rfl, hi, ⟨ho, hmatch, rfl, rfl⟩, rfl⟩
  · rw [hscan]
    cases href : ref name with
    | none => rfl
    | some v =>
        obtain ⟨i, hi, o, ⟨ho, hmatch, -⟩, -⟩ := (h.listed name v).mp href
        obtain ⟨-, hstop, hfits⟩ := (h.tiled i hi).bounds ho
        have hlen : name.length = (dir.block i o).nameLen := by
          simp only [tuxMatch, Bool.and_eq_true, decide_eq_true_eq] at hmatch
          exact hmatch.1.1
        have hno := hall i (Nat.zero_le i) (hn.symm ▸ hi) o ho (by
          rw [hlen]
          have hle := hfits.2
          omega)
        rw [hmatch] at hno
        cases hno

/-! ## Creation -/

/-- Changing one block, or adding one, changes the listed names as it changes those of the block. -/
theorem listed_update {m : ℕ} {P : List UInt8 → Held → Prop} {b : Block} {l : List ℕ} {size : ℕ}
    (hk : k < m) (hm : ∀ i, i < m ↔ i < n ∨ i = k)
    (hsub : ∀ nm x i t, Live b l nm x i t → k < n ∧ Live (dir.block k) (chain k) nm x i t ∨
      P nm ⟨i, t, k * 2 ^ bits + x⟩)
    (hsup : ∀ nm v, P nm v → ∃ x, Live b l nm x v.inum v.type ∧ v.offset = k * 2 ^ bits + x)
    (hold : ∀ nm x i t, k < n → Live (dir.block k) (chain k) nm x i t → Live b l nm x i t)
    (nm : List UInt8) (v : Held) :
    Listed bits ⟨Function.update dir.block k b, size⟩ (Function.update chain k l) m nm v ↔
      Listed bits dir chain n nm v ∨ P nm v := by
  constructor
  · rintro ⟨i, hi, x, hlive, hoff⟩
    by_cases hik : i = k
    · subst hik
      dsimp only at hlive
      rw [Function.update_self, Function.update_self] at hlive
      rcases hsub nm x _ _ hlive with ⟨hn, hl⟩ | hP
      · exact Or.inl ⟨i, hn, x, hl, hoff⟩
      · refine Or.inr ?_
        rw [← hoff] at hP
        exact hP
    · dsimp only at hlive
      rw [Function.update_of_ne hik, Function.update_of_ne hik] at hlive
      exact Or.inl ⟨i, ((hm i).mp hi).resolve_right hik, x, hlive, hoff⟩
  · rintro (⟨i, hi, x, hlive, hoff⟩ | hP)
    · refine ⟨i, (hm i).mpr (Or.inl hi), x, ?_, hoff⟩
      by_cases hik : i = k
      · subst hik
        dsimp only
        rw [Function.update_self, Function.update_self]
        exact hold nm x _ _ hi hlive
      · dsimp only
        rw [Function.update_of_ne hik, Function.update_of_ne hik]
        exact hlive
    · obtain ⟨x, hlive, hoff⟩ := hsup nm v hP
      refine ⟨k, hk, x, ?_, hoff⟩
      dsimp only
      rw [Function.update_self, Function.update_self]
      exact hlive

theorem packed_update {m : ℕ} {b : Block} {l : List ℕ}
    (hm : ∀ i, i < m → i < n ∨ i = k) (h : ∀ i < n, Packed (dir.block i) (chain i))
    (hb : Packed b l) :
    ∀ i < m, Packed (Function.update dir.block k b i) (Function.update chain k l i) := by
  intro i hi
  by_cases hik : i = k
  · subst hik
    rw [Function.update_self, Function.update_self]
    exact hb
  · rw [Function.update_of_ne hik, Function.update_of_ne hik]
    exact h i ((hm i hi).resolve_right hik)

theorem listed_create {ref : Ref} {new : Held} (hnew : ref name = none)
    (h : ∀ nm v, ref nm = some v ↔ Listed bits dir chain n nm v) {m : ℕ} {chain' : ℕ → List ℕ}
    (h' : ∀ nm v, Listed bits dir' chain' m nm v ↔
      Listed bits dir chain n nm v ∨ (nm = name ∧ v = new)) (nm : List UInt8) (v : Held) :
    Function.update ref name (some new) nm = some v ↔ Listed bits dir' chain' m nm v := by
  rw [h']
  by_cases hnm : nm = name
  · subst hnm
    rw [Function.update_self, ← h, hnew]
    simp [eq_comm]
  · rw [Function.update_of_ne hnm, h]
    simp [hnm]

theorem offset_eq {i : ℕ} (hi : (i + 1) * 2 ^ bits ≤ 2 ^ 32) (ho : o < 2 ^ bits) :
    (i * 2 ^ bits % 2 ^ 32 + o) % 2 ^ 32 = i * 2 ^ bits + o := by
  have hsum : i * 2 ^ bits + o < 2 ^ 32 := by
    have hmul : (i + 1) * 2 ^ bits = i * 2 ^ bits + 2 ^ bits := Nat.succ_mul i _
    omega
  rw [Nat.mod_eq_of_lt (show i * 2 ^ bits < 2 ^ 32 by omega), Nat.mod_eq_of_lt hsum]

/-- `tux_create_entry` adds the name at the offset that it returns. -/
theorem Represents.create (h : Represents bits dir ref chain n) (hname : 0 < name.length)
    (hfit : tuxRecLen name.length ≤ 2 ^ bits) (hnew : ref name = none)
    (hbelow : BelowLimit bits dir name.length) (inum mode : ℕ) :
    tuxCreateEntry bits dir name inum mode = .error .die ∧ 65536 < 2 ^ bits ∨
      ∃ dir' offset, tuxCreateEntry bits dir name inum mode = .ok (dir', offset) ∧
        ∃ chain' n', Represents bits dir'
            (Function.update ref name (some ⟨inum, tuxTypeByMode mode, offset⟩)) chain' n' ∧
          ((∀ i < n, Packed (dir.block i) (chain i)) →
            ∀ i < n', Packed (dir'.block i) (chain' i)) := by
  have hreclen : 0 < tuxRecLen name.length :=
    Nat.lt_of_lt_of_le (by decide) (tuxRecLen_pos name.length)
  have hn : 0 + n = n := Nat.zero_add n
  rcases scanBlocks_spec dir (hasRoom (tuxRecLen name.length)) chain n 0
    (fun i hi => h.tiled i (hn ▸ hi)) hreclen with ⟨i, o, hscan, hi, ho, hroom⟩ | ⟨hscan, -⟩
  · -- a record with room
    rw [hn] at hi
    right
    obtain ⟨b, off, l, hcreate, htiled, hoff, hpacked, hlive⟩ := createAt_spec inum mode
      (h.tiled i hi) ho (h.small (by omega)) hname hroom
    have hroomAt : findRoom bits dir name.length = .ok (some (i, o)) := by
      rw [findRoom, h.blocksOf_eq]
      exact hscan
    have hret : (i * 2 ^ bits % 2 ^ 32 + off) % 2 ^ 32 = i * 2 ^ bits + off := by
      refine offset_eq (Nat.le_trans (Nat.mul_le_mul_right _ hi) ?_) hoff
      rw [← h.size]
      exact h.limit
    refine ⟨{ dir with block := Function.update dir.block i b }, i * 2 ^ bits + off, ?_,
      Function.update chain i l, n, ⟨h.size, h.limit, h.small, h.aligned, fun j hj => ?_, ?_⟩,
      fun hall => packed_update (fun j => ?_) hall (hpacked (hall i hi))⟩
    · rw [tuxCreateEntry, hroomAt]
      simp only [bind, Except.bind, hcreate, hret]
    · by_cases hji : j = i
      · subst hji
        dsimp only
        rw [Function.update_self, Function.update_self]
        exact htiled
      · dsimp only
        rw [Function.update_of_ne hji, Function.update_of_ne hji]
        exact h.tiled j hj
    · refine listed_create hnew h.listed (listed_update hi (fun j => ?_) (fun nm x t u hl => ?_)
        (fun nm v hP => ?_) fun nm x t u _ hl => (hlive nm x t u).mpr (Or.inl hl))
      · constructor
        · exact Or.inl
        · rintro (hj | rfl)
          · exact hj
          · exact hi
      · rcases (hlive nm x t u).mp hl with hl | ⟨rfl, rfl, rfl, rfl⟩
        · exact Or.inl ⟨hi, hl⟩
        · exact Or.inr ⟨rfl, rfl⟩
      · obtain ⟨rfl, rfl⟩ := hP
        exact ⟨off, (hlive _ _ _ _).mpr (Or.inr ⟨rfl, rfl, rfl, rfl⟩), rfl⟩
    · exact fun hj => Or.inl hj
  · -- a new block
    have hnone : findRoom bits dir name.length = .ok none := by
      rw [findRoom, h.blocksOf_eq]
      exact hscan
    have hsize : dir.size < 2 ^ 32 := by
      rcases hbelow with hlt | ⟨place, hplace⟩
      · exact hlt
      · rw [hnone] at hplace
        cases hplace
    rcases Nat.lt_or_ge 65536 (2 ^ bits) with hbig | hsmall
    · left
      refine ⟨?_, hbig⟩
      rw [tuxCreateEntry, hnone, tuxRecLenToDisk, if_neg (by omega), if_pos hbig]
      rfl
    · right
      have hbits : 4 ≤ bits := by
        by_contra hlt
        have hle : 2 ^ bits ≤ 2 ^ 3 := Nat.pow_le_pow_right (by decide) (by omega)
        have h16 := tuxRecLen_pos name.length
        omega
      have hbits' : bits ≤ 16 := by
        by_contra hlt
        have hle : 2 ^ 17 ≤ 2 ^ bits := Nat.pow_le_pow_right (by decide) (by omega)
        omega
      have h8 : 8 ∣ 2 ^ bits := Nat.pow_dvd_pow 2 (show 3 ≤ bits by omega)
      have hnext : (n + 1) * 2 ^ bits ≤ 2 ^ 32 := by
        rw [h.size, show 32 = (32 - bits) + bits by omega, Nat.pow_add] at hsize
        rw [show 32 = (32 - bits) + bits by omega, Nat.pow_add]
        exact Nat.mul_le_mul_right _ (Nat.lt_of_mul_lt_mul_right hsize)
      obtain ⟨d, hd, hd'⟩ := toDisk_ok hsmall h8
      set b₀ : Block := Function.update (fun _ => zeroDirent) 0 { zeroDirent with recLen := d }
        with hb₀
      have hself : b₀ 0 = { zeroDirent with recLen := d } := Function.update_self _ _ _
      have hlen : (b₀ 0).len = 2 ^ bits := by
        rw [hself]
        exact hd'
      have htiled₀ : Tiled b₀ 0 [0] (2 ^ bits) := by
        refine ⟨rfl, ⟨hlen ▸ h8, ?_⟩, by rw [hlen, Nat.zero_add]; rfl⟩
        rw [hlen, hself]
        exact Nat.le_trans (tuxRecLen_mono (Nat.zero_le _)) hfit
      have hroom : hasRoom (tuxRecLen name.length) (b₀ 0) = true := by
        unfold hasRoom
        rw [Bool.or_eq_true, Bool.and_eq_true]
        refine Or.inl ⟨by rw [hself]; rfl, ?_⟩
        exact decide_eq_true (Nat.le_trans hfit (Nat.le_of_eq hlen.symm))
      obtain ⟨b, off, l, hcreate, htiled, hoff, hpacked, hlive⟩ := createAt_spec inum mode
        htiled₀ List.mem_cons_self hsmall hname hroom
      have hdead : ∀ nm x t u, ¬ Live b₀ [0] nm x t u := by
        rintro nm x t u ⟨hx, hmatch, -⟩
        obtain rfl := List.mem_singleton.mp hx
        rw [not_match_deleted (by rw [hself]; rfl)] at hmatch
        cases hmatch
      have hpacked₀ : Packed b₀ [0] := by
        intro x hx
        obtain rfl := List.mem_singleton.mp hx
        exact Or.inr ⟨rfl, by rw [hself]; rfl⟩
      refine ⟨⟨Function.update dir.block n b, dir.size + 2 ^ bits⟩, n * 2 ^ bits + off, ?_,
        Function.update chain n l, n + 1, ⟨?_, ?_, fun _ => hsmall, fun _ => h8, fun j hj => ?_, ?_⟩,
        fun hall => packed_update (fun j hj => by omega) hall
          (hpacked hpacked₀)⟩
      · rw [tuxCreateEntry, hnone]
        simp only [bind, Except.bind, hd, ← hb₀, hcreate, h.blocksOf_eq, offset_eq hnext hoff]
      · rw [h.size, Nat.succ_mul]
      · rw [h.size, ← Nat.succ_mul]
        exact hnext
      · by_cases hjn : j = n
        · subst hjn
          dsimp only
          rw [Function.update_self, Function.update_self]
          exact htiled
        · dsimp only
          rw [Function.update_of_ne hjn, Function.update_of_ne hjn]
          exact h.tiled j (by omega)
      · refine listed_create hnew h.listed (listed_update (Nat.lt_succ_self n) (fun j => by omega)
          (fun nm x t u hl => ?_) (fun nm v hP => ?_) fun nm x t u hlt => absurd hlt (by omega))
        · rcases (hlive nm x t u).mp hl with hl | ⟨rfl, rfl, rfl, rfl⟩
          · exact absurd hl (hdead nm x t u)
          · exact Or.inr ⟨rfl, rfl⟩
        · obtain ⟨rfl, rfl⟩ := hP
          exact ⟨off, (hlive _ _ _ _).mpr (Or.inr ⟨rfl, rfl, rfl, rfl⟩), rfl⟩

/-- Without room for a name of a fitting length there is a name in every block. -/
theorem Represents.room (h : Represents bits dir ref chain n)
    (hpacked : ∀ i < n, Packed (dir.block i) (chain i)) {len : ℕ}
    (hfit : tuxRecLen len ≤ 2 ^ bits) :
    (∃ place, findRoom bits dir len = .ok (some place)) ∨
      ∀ i < n, ∃ nm v, ref nm = some v ∧ v.offset / 2 ^ bits = i := by
  have hn : 0 + n = n := Nat.zero_add n
  have hreclen : 0 < tuxRecLen len := Nat.lt_of_lt_of_le (by decide) (tuxRecLen_pos len)
  rcases scanBlocks_spec dir (hasRoom (tuxRecLen len)) chain n 0
    (fun i hi => h.tiled i (hn ▸ hi)) hreclen with ⟨i, o, hscan, -⟩ | ⟨-, hall⟩
  · left
    refine ⟨(i, o), ?_⟩
    rw [findRoom, h.blocksOf_eq]
    exact hscan
  · right
    intro i hi
    by_contra hnone
    have hdead : ∀ x ∈ chain i, x = 0 ∧ isDeleted (dir.block i x) = true := by
      intro x hx
      refine (hpacked i hi x hx).resolve_left fun ⟨nm, hmatch⟩ => hnone ?_
      have hlive : Live (dir.block i) (chain i) nm x _ _ := ⟨hx, hmatch, rfl, rfl⟩
      refine ⟨nm, ⟨(dir.block i x).inum, (dir.block i x).type, i * 2 ^ bits + x⟩,
        (h.listed nm _).mpr ⟨i, hi, x, hlive, rfl⟩, ?_⟩
      dsimp only
      rw [Nat.add_comm, Nat.add_mul_div_right _ _ (Nat.two_pow_pos bits),
        Nat.div_eq_of_lt (h.offset_lt hi hlive), Nat.zero_add]
    have htiled := h.tiled i hi
    have hno := hall i (Nat.zero_le i) (hn.symm ▸ hi)
    cases hchain : chain i with
    | nil =>
        rw [hchain] at htiled
        have hzero : 0 = 2 ^ bits := htiled
        have hpos := Nat.two_pow_pos bits
        omega
    | cons o l =>
        rw [hchain] at htiled hdead hno
        obtain ⟨rfl, hfits, hrest⟩ := htiled
        cases l with
        | nil =>
            have hlen : 0 + (dir.block i 0).len = 2 ^ bits := hrest
            have hroom : hasRoom (tuxRecLen len) (dir.block i 0) = true := by
              unfold hasRoom
              rw [Bool.or_eq_true, Bool.and_eq_true]
              refine Or.inl ⟨(hdead 0 List.mem_cons_self).2, decide_eq_true ?_⟩
              change tuxRecLen len ≤ (dir.block i 0).len
              omega
            rw [hno 0 List.mem_cons_self (by omega)] at hroom
            cases hroom
        | cons y l =>
            have hy := (hdead y (List.mem_cons_of_mem _ List.mem_cons_self)).1
            have hle := (hrest.bounds List.mem_cons_self).1
            have hpos := hfits.pos
            omega

/-! ## Deletion -/

/-- `tux_delete_entry` removes the one name. -/
theorem Represents.delete (h : Represents bits dir ref chain n) {i : ℕ}
    (hfind : tuxFindEntry bits dir name = .ok (i, o)) :
    ∃ b, tuxDeleteEntry (dir.block i) o = .ok b ∧
      ∃ chain', Represents bits { dir with block := Function.update dir.block i b }
          (Function.update ref name none) chain' n ∧
        ((∀ j < n, Packed (dir.block j) (chain j)) →
          ∀ j < n, Packed (Function.update dir.block i b j) (chain' j)) := by
  have hspec := h.find name
  cases href : ref name with
  | none =>
      rw [href, hfind] at hspec
      cases hspec
  | some v =>
      rw [href, hfind] at hspec
      obtain ⟨i', o', heq, hi, hlive, hoff⟩ := hspec
      cases heq
      obtain ⟨b, l, hdelete, htiled, hpacked, hlive'⟩ := tuxDeleteEntry_spec (h.tiled i hi) hlive.1
        (h.small (by omega))
      refine ⟨b, hdelete, Function.update chain i l, ⟨h.size, h.limit, h.small, h.aligned,
        fun j hj => ?_, fun nm w => ?_⟩,
        fun hall => packed_update (fun j hj => Or.inl hj) hall (hpacked (hall i hi))⟩
      · by_cases hji : j = i
        · subst hji
          dsimp only
          rw [Function.update_self, Function.update_self]
          exact htiled
        · dsimp only
          rw [Function.update_of_ne hji, Function.update_of_ne hji]
          exact h.tiled j hj
      · have hlisted : Listed bits { dir with block := Function.update dir.block i b }
            (Function.update chain i l) n nm w ↔
            Listed bits dir chain n nm w ∧ w.offset ≠ i * 2 ^ bits + o := by
          constructor
          · rintro ⟨j, hj, x, hl, hw⟩
            by_cases hji : j = i
            · subst hji
              dsimp only at hl
              rw [Function.update_self, Function.update_self, hlive'] at hl
              refine ⟨⟨j, hj, x, hl.1, hw⟩, ?_⟩
              rw [hw]
              intro heq
              exact hl.2 (by omega)
            · dsimp only at hl
              rw [Function.update_of_ne hji, Function.update_of_ne hji] at hl
              refine ⟨⟨j, hj, x, hl, hw⟩, ?_⟩
              rw [hw]
              intro heq
              exact hji (place_unique (h.offset_lt hj hl) (h.offset_lt hi hlive) heq).1
          · rintro ⟨⟨j, hj, x, hl, hw⟩, hne⟩
            refine ⟨j, hj, x, ?_, hw⟩
            by_cases hji : j = i
            · subst hji
              dsimp only
              rw [Function.update_self, Function.update_self, hlive']
              exact ⟨hl, fun heq => hne (by rw [hw, heq])⟩
            · dsimp only
              rw [Function.update_of_ne hji, Function.update_of_ne hji]
              exact hl
        rw [hlisted, ← h.listed]
        by_cases hnm : nm = name
        · subst hnm
          rw [Function.update_self, href]
          simp only [Option.some.injEq, reduceCtorEq, false_iff, not_and, not_not]
          rintro rfl
          exact hoff
        · rw [Function.update_of_ne hnm]
          refine ⟨fun hr => ⟨hr, fun heq => hnm ?_⟩, And.left⟩
          obtain ⟨j, hj, x, hl, hw⟩ := (h.listed nm w).mp hr
          obtain ⟨rfl, rfl⟩ := place_unique (h.offset_lt hj hl) (h.offset_lt hi hlive) (hw ▸ heq)
          exact match_unique hl.2.1 hlive.2.1

/-! ## Runs -/

theorem run_represents (h : Run bits (BelowLimit bits) dir ref) :
    ∃ chain n, Represents bits dir ref chain n := by
  induction h with
  | start block =>
      refine ⟨fun _ => [], 0, (Nat.zero_mul _).symm, Nat.zero_le _, fun h => by omega,
        fun h => by omega, fun i hi => by omega, fun nm v => ⟨(fun h => nomatch h), ?_⟩⟩
      rintro ⟨i, hi, -⟩
      omega
  | create name inum mode h hlen hle hfit hnew hbelow hcreate ih =>
      obtain ⟨chain, n, hR⟩ := ih
      rcases hR.create hlen hfit hnew hbelow inum mode with ⟨herr, -⟩ | ⟨_, _, hok, hR'⟩
      · rw [hcreate] at herr
        cases herr
      · rw [hcreate] at hok
        cases hok
        obtain ⟨chain', n', hR', -⟩ := hR'
        exact ⟨chain', n', hR'⟩
  | delete name h hfind hdelete ih =>
      obtain ⟨chain, n, hR⟩ := ih
      obtain ⟨b, hok, chain', hR', -⟩ := hR.delete hfind
      rw [hdelete] at hok
      cases hok
      exact ⟨chain', n, hR'⟩

/-- A directory whose offsets stay below 4 GiB is the map of its creations and deletions, in
well-formed blocks. -/
theorem directory_map (h : Run bits (BelowLimit bits) dir ref) :
    (∀ i < dir.size / 2 ^ bits, ∃ l, Tiled (dir.block i) 0 l (2 ^ bits)) ∧
      (∀ name, match ref name with
        | some v => ∃ i o, tuxFindEntry bits dir name = .ok (i, o) ∧
            tuxMatch name (dir.block i o) = true ∧ (dir.block i o).inum = v.inum ∧
            (dir.block i o).type = v.type ∧ i * 2 ^ bits + o = v.offset
        | none => tuxFindEntry bits dir name = .error .enoent) ∧
      (∀ name inum mode, 0 < name.length → tuxRecLen name.length ≤ 2 ^ bits → ref name = none →
        BelowLimit bits dir name.length →
          tuxCreateEntry bits dir name inum mode ≠ .error .eio) ∧
      ∀ name i o, tuxFindEntry bits dir name = .ok (i, o) →
        ∃ b, tuxDeleteEntry (dir.block i) o = .ok b := by
  obtain ⟨chain, n, hR⟩ := run_represents h
  refine ⟨fun i hi => ⟨chain i, hR.tiled i ?_⟩, fun name => ?_,
    fun name inum mode hname hfit hnew hbelow herr => ?_, fun name i o hfind => ?_⟩
  · rwa [hR.size, Nat.mul_div_cancel _ (Nat.two_pow_pos bits)] at hi
  · have hspec := hR.find name
    cases href : ref name with
    | none =>
        rw [href] at hspec
        exact hspec
    | some v =>
        rw [href] at hspec
        obtain ⟨i, o, hfind, -, ⟨-, hmatch, hinum, htype⟩, hoff⟩ := hspec
        exact ⟨i, o, hfind, hmatch, hinum, htype, hoff.symm⟩
  · rcases hR.create hname hfit hnew hbelow inum mode with ⟨hdie, -⟩ | ⟨_, _, hok, -⟩
    · rw [herr] at hdie
      cases hdie
    · rw [herr] at hok
      cases hok
  · obtain ⟨b, hdelete, -⟩ := hR.delete hfind
    exact ⟨b, hdelete⟩

end

/-- Three entries are created and the second is deleted. -/
theorem directory_map_three : ∃ dir ref, Run 8 (BelowLimit 8) dir ref ∧
    (∃ i o, tuxFindEntry 8 dir [97] = .ok (i, o) ∧ i * 2 ^ 8 + o = 0) ∧
    tuxFindEntry 8 dir [98] = .error .enoent ∧
    ∃ i o, tuxFindEntry 8 dir [99] = .ok (i, o) ∧ (dir.block i o).inum = 7 := by
  have h₁ : Run 8 (BelowLimit 8) _ _ := Run.create [97] 5 0o100644 (Run.start fun _ _ => zeroDirent)
    (by decide) (by decide) (by decide) rfl (Or.inl (by decide)) rfl
  have h₂ := Run.create [98] 6 0o100644 h₁ (by decide) (by decide) (by decide) rfl
    (Or.inl (by decide)) rfl
  have h₃ := Run.create [99] 7 0o100644 h₂ (by decide) (by decide) (by decide) rfl
    (Or.inl (by decide)) rfl
  have h₄ := Run.delete [98] h₃ rfl rfl
  obtain ⟨-, hfind, -⟩ := directory_map h₄
  obtain ⟨i, o, ha, -, -, -, hoff⟩ := hfind [97]
  obtain ⟨j, q, hc, -, hinum, -⟩ := hfind [99]
  exact ⟨_, _, h₄, ⟨i, o, ha, hoff⟩, hfind [98], j, q, hc, hinum⟩

/-! ## A directory of 4 GiB -/

/-- A name that fills a block of 256 bytes. -/
def longName (k : ℕ) : List UInt8 :=
  [.ofNat (k / 2 ^ 24), .ofNat (k / 2 ^ 16), .ofNat (k / 2 ^ 8), .ofNat k] ++ List.replicate 236 0

theorem longName_inj {a b : ℕ} (ha : a < 2 ^ 32) (hb : b < 2 ^ 32) (h : longName a = longName b) :
    a = b := by
  simp only [longName, List.cons_append, List.cons.injEq] at h
  obtain ⟨h1, h2, h3, h4, -⟩ := h
  have h1 := congrArg UInt8.toNat h1
  have h2 := congrArg UInt8.toNat h2
  have h3 := congrArg UInt8.toNat h3
  have h4 := congrArg UInt8.toNat h4
  simp only [UInt8.toNat_ofNat'] at h1 h2 h3 h4
  omega

/-- The first blocks hold one long name each. -/
structure Full (dir : Directory) (k : ℕ) : Prop where
  size : dir.size = k * 256
  tiled : ∀ i < k, Tiled (dir.block i) 0 [0] 256
  name : ∀ i < k, (dir.block i 0).nameLen = 240 ∧ ∀ nm, tuxMatch nm (dir.block i 0) = true ↔
    nm = longName i

/-- The block of a long name. -/
def longBlock (k : ℕ) : Block :=
  Function.update (Function.update (fun _ => zeroDirent) 0 { zeroDirent with recLen := 256 }) 0
    { ({ zeroDirent with recLen := 256 } : Dirent).copyName (longName k) with
      nameLen := (longName k).length, inum := 1, type := tuxTypeByMode 0 }

theorem longName_length (k : ℕ) : (longName k).length = 240 := by
  rw [longName, List.length_append, List.length_replicate]
  rfl

theorem createAt_long (k : ℕ) :
    createAt (Function.update (fun _ => zeroDirent) 0 { zeroDirent with recLen := 256 }) 0
      (longName k) 1 0 = .ok (longBlock k, 0) := by
  rw [createAt]
  exact if_pos rfl

theorem Full.create {dir : Directory} {k : ℕ} (h : Full dir k) (hk : k < 2 ^ 32) :
    tuxCreateEntry 8 dir (longName k) 1 0 = .ok (⟨Function.update dir.block k (longBlock k),
        dir.size + 2 ^ 8⟩, (k * 2 ^ 8 % 2 ^ 32 + 0) % 2 ^ 32) ∧
      Full ⟨Function.update dir.block k (longBlock k), dir.size + 2 ^ 8⟩ (k + 1) := by
  have hblocks : blocksOf 8 dir.size = k := by
    rw [blocksOf, h.size]
    omega
  have hnone : findRoom 8 dir (longName k).length = .ok none := by
    rcases scanBlocks_spec dir (hasRoom (tuxRecLen 240)) (fun _ => [0]) k 0
      (fun i hi => h.tiled i (by omega)) (show 0 < tuxRecLen 240 by decide)
      with ⟨i, o, -, hi, ho, hroom⟩ | ⟨hscan, -⟩
    · obtain rfl := List.mem_singleton.mp ho
      obtain ⟨-, -, hlen⟩ := h.tiled i (by omega)
      have hlen : 0 + (dir.block i 0).len = 256 := hlen
      have hname := (h.name i (by omega)).1
      simp only [hasRoom, isDeleted, hname, Bool.or_eq_true, Bool.and_eq_true,
        decide_eq_true_eq] at hroom
      have hle := hroom.resolve_left (by omega)
      have hbound : tuxRecLen 240 + tuxRecLen 240 ≤ (dir.block i 0).len := hle
      have h256 : tuxRecLen 240 = 256 := by decide
      omega
    · rw [findRoom, hblocks]
      exact hscan
  refine ⟨?_, ?_, fun i hi => ?_, fun i hi => ?_⟩
  · rw [tuxCreateEntry, hnone, hblocks]
    simp only [bind, Except.bind, show tuxRecLenToDisk (2 ^ 8) = .ok 256 from rfl, createAt_long]
  · have hsize := h.size
    show dir.size + 2 ^ 8 = (k + 1) * 256
    omega
  · by_cases hik : i = k
    · subst hik
      dsimp only
      rw [Function.update_self]
      have hlen : (longBlock i 0).len = 256 := by
        rw [longBlock, Function.update_self]
        rfl
      refine ⟨rfl, ⟨hlen ▸ (by decide : 8 ∣ 256), ?_⟩, by rw [hlen]; rfl⟩
      rw [hlen, longBlock, Function.update_self]
      dsimp only
      rw [longName_length]
      decide
    · dsimp only
      rw [Function.update_of_ne hik]
      exact h.tiled i (by omega)
  · by_cases hik : i = k
    · subst hik
      dsimp only
      rw [Function.update_self, longBlock, Function.update_self]
      exact ⟨longName_length i, fun nm => tuxMatch_created (by rw [longName_length]; decide)⟩
    · dsimp only
      rw [Function.update_of_ne hik]
      exact h.name i (by omega)

theorem full_run {k : ℕ} (hk : k ≤ 2 ^ 24) : ∃ dir ref, Run 8 (fun _ _ => True) dir ref ∧
    Full dir k ∧ ∀ j, k ≤ j → j < 2 ^ 32 → ref (longName j) = none := by
  induction k with
  | zero =>
      exact ⟨_, _, Run.start fun _ _ => zeroDirent,
        ⟨rfl, fun i hi => by omega, fun i hi => by omega⟩, fun _ _ _ => rfl⟩
  | succ k ih =>
      obtain ⟨dir, ref, hrun, hfull, hfresh⟩ := ih (by omega)
      obtain ⟨hcreate, hfull'⟩ := hfull.create (by omega)
      refine ⟨_, _, hrun.create (longName k) 1 0 (Nat.succ_pos _)
        (by rw [longName_length]; decide) (by rw [longName_length]; decide)
        (hfresh k (Nat.le_refl k) (by omega)) trivial hcreate, hfull', fun j hj hlt => ?_⟩
      rw [Function.update_of_ne]
      · exact hfresh j (by omega) hlt
      · intro heq
        have hjk := longName_inj hlt (show k < 2 ^ 32 by omega) heq
        omega

/-- The first record at 4 GiB gets the offset 0. -/
theorem create_offset_wraps : ∃ dir ref name v i o, Run 8 (fun _ _ => True) dir ref ∧
    ref name = some v ∧ tuxFindEntry 8 dir name = .ok (i, o) ∧ i * 2 ^ 8 + o ≠ v.offset := by
  obtain ⟨k, hk⟩ : ∃ k, k = 2 ^ 24 := ⟨_, rfl⟩
  obtain ⟨dir, ref, hrun, hfull, hfresh⟩ := full_run (Nat.le_of_eq hk)
  obtain ⟨hcreate, hfull'⟩ := hfull.create (by omega)
  have hrun' := hrun.create (longName k) 1 0 (Nat.succ_pos _) (by rw [longName_length]; decide)
    (by rw [longName_length]; decide) (hfresh k (Nat.le_refl k) (by omega)) trivial hcreate
  refine ⟨_, _, longName k, _, k, 0, hrun', Function.update_self _ _ _, ?_, ?_⟩
  · have hblocks : blocksOf 8 (dir.size + 2 ^ 8) = k + 1 := by
      rw [blocksOf, hfull.size]
      omega
    rw [tuxFindEntry, hblocks]
    have htiled : ∀ i, i < 0 + (k + 1) → Tiled
        (({ block := Function.update dir.block k (longBlock k), size := dir.size + 2 ^ 8 } :
          Directory).block i) 0 [0] (2 ^ 8) := by
      intro i hi
      exact hfull'.tiled i (by omega)
    have hreclen : 0 < tuxRecLen (longName k).length := by
      rw [longName_length]
      decide
    rcases scanBlocks_spec _ (tuxMatch (longName k)) (fun _ => [0]) (k + 1) 0 htiled hreclen
      with ⟨i, o, hscan, hi, ho, hmatch⟩ | ⟨-, hall⟩
    · obtain rfl := List.mem_singleton.mp ho
      have heq := ((hfull'.name i (by omega)).2 _).mp hmatch
      obtain rfl := longName_inj (by omega) (by omega) heq
      rw [hscan]
    · have hno := hall k (Nat.zero_le k) (by omega) 0 (List.mem_singleton_self 0)
        (by rw [longName_length]; decide)
      rw [((hfull'.name k (by omega)).2 _).mpr rfl] at hno
      cases hno
  · dsimp only
    omega

end Tux3.Dir
