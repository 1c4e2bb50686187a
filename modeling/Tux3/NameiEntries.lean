import Tux3.NameiBlocks

/-!
# Directories as entries

The blocks of a directory list some of the entries of a volume, under the bytes of their names. Each
operation of `dir.c` on the blocks is one operation on the list of entries.
-/
namespace Tux3.NameiBlocks

open Dir (Represents Packed Live Ref Held)

/-- The bytes of a name. -/
def text (name : List UInt8) : List ℕ := name.map UInt8.toNat

/-- The blocks of a directory represent a map, whose names are the entries of the directory. -/
structure Listing (bits : ℕ) (dir : Dir.Directory) (d : ℕ) (entries : List Namei.Dirent) (ref : Ref)
    (chain : ℕ → List ℕ) (n : ℕ) : Prop where
  represents : Represents bits dir ref chain n
  packed : ∀ i < n, Packed (dir.block i) (chain i)
  mem : ∀ e : Namei.Dirent, e.dir = d →
    (e ∈ entries ↔ ∃ name v, ref name = some v ∧ e = ⟨d, text name, v.inum, v.type⟩)

/-- The blocks of a directory list its entries. -/
def Lists (bits : ℕ) (dir : Dir.Directory) (d : ℕ) (entries : List Namei.Dirent) : Prop :=
  ∃ ref chain n, Listing bits dir d entries ref chain n

theorem text_inj {a b : List UInt8} (h : text a = text b) : a = b :=
  List.map_injective_iff.mpr (fun _ _ => UInt8.toNat_inj.mp) h

theorem tuxTypeByMode_eq (mode : ℕ) : Dir.tuxTypeByMode mode = Namei.tuxTypeByMode mode := by
  have hshift : (mode &&& Namei.sIfmt) >>> 12 = mode / 2 ^ 12 % 16 := by
    rw [Nat.shiftRight_and_distrib, Nat.shiftRight_eq_div_pow]
    exact Nat.and_two_pow_sub_one_eq_mod _ 4
  rw [Namei.tuxTypeByMode, hshift]
  rfl

section
variable {bits d i o n : ℕ} {dir : Dir.Directory} {entries entries' : List Namei.Dirent} {ref : Ref}
  {chain : ℕ → List ℕ} {name : List UInt8} {v : Held} {e : Namei.Dirent}

/-! ## Changing a record -/

theorem tiled_of_lengths {b b' : Dir.Block} {start stop : ℕ} {l : List ℕ}
    (h : Dir.Tiled b start l stop)
    (heq : ∀ x ∈ l, (b' x).recLen = (b x).recLen ∧ (b' x).nameLen = (b x).nameLen) :
    Dir.Tiled b' start l stop := by
  induction l generalizing start with
  | nil => exact h
  | cons x l ih =>
      obtain ⟨rfl, hfits, h⟩ := h
      obtain ⟨hrec, hname⟩ := heq x List.mem_cons_self
      have hlen : (b' x).len = (b x).len := congrArg Dir.tuxRecLenFromDisk hrec
      refine ⟨rfl, ?_, ?_⟩
      · simpa only [Dir.Dirent.Fits, hlen, hname] using hfits
      · rw [hlen]
        exact ih h fun y hy => heq y (List.mem_cons_of_mem _ hy)

/-- The blocks with another inode number and type in one record. -/
def retarget (dir : Dir.Directory) (i o inum type : ℕ) : Dir.Directory :=
  ⟨Function.update dir.block i (Function.update (dir.block i) o
    { dir.block i o with inum := inum, type := type }), dir.size⟩

theorem retarget_same {inum type j x : ℕ} :
    ((retarget dir i o inum type).block j x).recLen = (dir.block j x).recLen ∧
      ((retarget dir i o inum type).block j x).nameLen = (dir.block j x).nameLen ∧
      ((retarget dir i o inum type).block j x).name = (dir.block j x).name := by
  unfold retarget
  by_cases hj : j = i
  · subst hj
    by_cases hx : x = o
    · subst hx
      simp
    · simp [hx]
  · simp [hj]

theorem retarget_self {inum type : ℕ} : (retarget dir i o inum type).block i o =
    { dir.block i o with inum := inum, type := type } := by
  simp [retarget]

theorem retarget_other {inum type j x : ℕ} (h : ¬ (j = i ∧ x = o)) :
    (retarget dir i o inum type).block j x = dir.block j x := by
  unfold retarget
  by_cases hj : j = i
  · subst hj
    simp [show x ≠ o from fun hx => h ⟨rfl, hx⟩]
  · simp [hj]

theorem retarget_match {inum type j x : ℕ} {nm : List UInt8} :
    Dir.tuxMatch nm ((retarget dir i o inum type).block j x) = Dir.tuxMatch nm (dir.block j x) := by
  obtain ⟨-, hlen, hname⟩ := @retarget_same i o dir inum type j x
  rw [Dir.tuxMatch, Dir.tuxMatch, Dir.isDeleted, Dir.isDeleted, hlen, hname]

/-- `tux_update_entry` gives the name another inode number and type, and keeps the place. -/
theorem represents_retarget (h : Represents bits dir ref chain n) (href : ref name = some v)
    (hi : i < n) (hlive : Live (dir.block i) (chain i) name o v.inum v.type)
    (hoff : v.offset = i * 2 ^ bits + o) (inum type : ℕ) :
    Represents bits (retarget dir i o inum type)
      (Function.update ref name (some ⟨inum, type, v.offset⟩)) chain n := by
  refine ⟨h.size, h.limit, h.small, h.aligned, fun j hj => ?_, fun nm w => ?_⟩
  · exact tiled_of_lengths (h.tiled j hj) fun x _ => ⟨retarget_same.1, retarget_same.2.1⟩
  · -- the record at the place has the name, and no other record has it
    have hplace : ∀ j < n, ∀ x, x ∈ chain j → Dir.tuxMatch name (dir.block j x) = true →
        j = i ∧ x = o := by
      intro j hj x hx hmatch
      have hother : Live (dir.block j) (chain j) name x _ _ := ⟨hx, hmatch, rfl, rfl⟩
      have hlisted := (h.listed name ⟨_, _, j * 2 ^ bits + x⟩).mpr ⟨j, hj, x, hother, rfl⟩
      have heq : j * 2 ^ bits + x = i * 2 ^ bits + o := by
        rw [href] at hlisted
        rw [← hoff, Option.some.inj hlisted]
      exact Dir.place_unique (h.offset_lt hj hother) (h.offset_lt hi hlive) heq
    by_cases hnm : nm = name
    · subst hnm
      rw [Function.update_self]
      constructor
      · intro hw
        obtain rfl := Option.some.inj hw
        refine ⟨i, hi, o, ⟨hlive.1, ?_, ?_, ?_⟩, hoff⟩
        · rw [retarget_match]
          exact hlive.2.1
        · rw [retarget_self]
        · rw [retarget_self]
      · rintro ⟨j, hj, x, ⟨hx, hmatch, hinum, htype⟩, hw⟩
        rw [retarget_match] at hmatch
        obtain ⟨rfl, rfl⟩ := hplace j hj x hx hmatch
        rw [retarget_self] at hinum htype
        have hinum : inum = w.inum := hinum
        have htype : type = w.type := htype
        rw [hoff, ← hw, hinum, htype]
    · rw [Function.update_of_ne hnm, h.listed]
      have hkeep : ∀ j x, Dir.tuxMatch nm (dir.block j x) = true →
          (retarget dir i o inum type).block j x = dir.block j x := by
        intro j x hmatch
        refine retarget_other ?_
        rintro ⟨rfl, rfl⟩
        exact hnm (Dir.match_unique hmatch hlive.2.1)
      constructor
      · rintro ⟨j, hj, x, ⟨hx, hmatch, hinum, htype⟩, hw⟩
        refine ⟨j, hj, x, ⟨hx, ?_, ?_, ?_⟩, hw⟩ <;> rwa [hkeep j x hmatch]
      · rintro ⟨j, hj, x, ⟨hx, hmatch, hinum, htype⟩, hw⟩
        rw [retarget_match] at hmatch
        rw [hkeep j x hmatch] at hinum htype
        exact ⟨j, hj, x, ⟨hx, hmatch, hinum, htype⟩, hw⟩

/-! ## Finding -/

theorem Listing.find (h : Listing bits dir d entries ref chain n) (name : List UInt8) :
    (∃ i o v, Dir.tuxFindEntry bits dir name = .ok (i, o) ∧ ref name = some v ∧ i < n ∧
      Live (dir.block i) (chain i) name o v.inum v.type ∧ v.offset = i * 2 ^ bits + o) ∨
      Dir.tuxFindEntry bits dir name = .error .enoent ∧ ref name = none := by
  have hspec := h.represents.find name
  cases href : ref name with
  | none =>
      rw [href] at hspec
      exact Or.inr ⟨hspec, rfl⟩
  | some v =>
      rw [href] at hspec
      obtain ⟨i, o, hfind, hi, hlive, hoff⟩ := hspec
      exact Or.inl ⟨i, o, v, hfind, rfl, hi, hlive, hoff⟩

theorem Listing.ref_of_mem (h : Listing bits dir d entries ref chain n) (he : e ∈ entries)
    (hd : e.dir = d) (hn : e.name = text name) :
    ∃ v, ref name = some v ∧ e = ⟨d, text name, v.inum, v.type⟩ := by
  obtain ⟨nm, v, href, rfl⟩ := (h.mem e hd).mp he
  obtain rfl := text_inj hn
  exact ⟨v, href, rfl⟩

theorem Listing.ref_none (h : Listing bits dir d entries ref chain n)
    (hnew : ∀ e ∈ entries, ¬ (e.dir = d ∧ e.name = text name)) : ref name = none := by
  cases href : ref name with
  | none => rfl
  | some v => exact absurd ⟨rfl, rfl⟩ (hnew _ ((h.mem _ rfl).mpr ⟨name, v, href, rfl⟩))

theorem Lists.find (h : Lists bits dir d entries) (name : List UInt8) :
    (∃ i o e, Dir.tuxFindEntry bits dir name = .ok (i, o) ∧ e ∈ entries ∧ e.dir = d ∧
      e.name = text name ∧ (dir.block i o).inum = e.inum) ∨
      Dir.tuxFindEntry bits dir name = .error .enoent ∧
        ∀ e ∈ entries, ¬ (e.dir = d ∧ e.name = text name) := by
  obtain ⟨ref, chain, n, h⟩ := h
  rcases h.find name with ⟨i, o, v, hfind, href, -, hlive, -⟩ | ⟨hfind, href⟩
  · exact Or.inl ⟨i, o, _, hfind, (h.mem _ rfl).mpr ⟨name, v, href, rfl⟩, rfl, rfl, hlive.2.2.1⟩
  · refine Or.inr ⟨hfind, fun e he hkey => ?_⟩
    obtain ⟨v, hv, -⟩ := h.ref_of_mem he hkey.1 hkey.2
    rw [href] at hv
    cases hv

theorem Lists.texts (h : Lists bits dir d entries) (he : e ∈ entries) (hd : e.dir = d) :
    ∃ name, e.name = text name := by
  obtain ⟨ref, chain, n, h⟩ := h
  obtain ⟨name, v, -, rfl⟩ := (h.mem e hd).mp he
  exact ⟨name, rfl⟩

theorem Lists.congr (h : Lists bits dir d entries)
    (hmem : ∀ e : Namei.Dirent, e.dir = d → (e ∈ entries' ↔ e ∈ entries)) :
    Lists bits dir d entries' := by
  obtain ⟨ref, chain, n, h⟩ := h
  exact ⟨ref, chain, n, h.represents, h.packed, fun e hd => (hmem e hd).trans (h.mem e hd)⟩

theorem lists_cleared (block : ℕ → Dir.Block) (h : ∀ e ∈ entries, e.dir ≠ d) :
    Lists bits ⟨block, 0⟩ d entries := by
  refine ⟨fun _ => none, fun _ => [], 0, ⟨?_, ?_, ?_, ?_, ?_, ?_⟩, ?_, fun e hd => ?_⟩
  · simp
  · simp
  · simp
  · simp
  · simp
  · simp [Dir.Listed]
  · simp
  · simpa using fun he => h e he hd

/-! ## Places -/

/-- The other names are found where they were. -/
def Stay (bits : ℕ) (dir dir' : Dir.Directory) (name : List UInt8) : Prop :=
  ∀ nm ≠ name, ∀ place, Dir.tuxFindEntry bits dir nm = .ok place →
    Dir.tuxFindEntry bits dir' nm = .ok place

theorem stay_of_refs {dir' : Dir.Directory} {ref' : Ref} {chain' : ℕ → List ℕ} {n' : ℕ}
    (h : Listing bits dir d entries ref chain n) (h' : Listing bits dir' d entries' ref' chain' n')
    (heq : ∀ nm ≠ name, ref' nm = ref nm) : Stay bits dir dir' name := by
  intro nm hnm place hplace
  rcases h.find nm with ⟨i, o, v, hfind, href, hi, hlive, hoff⟩ | ⟨hfind, -⟩
  · rcases h'.find nm with ⟨i', o', v', hfind', href', hi', hlive', hoff'⟩ | ⟨-, href'⟩
    · rw [heq nm hnm, href] at href'
      obtain rfl := Option.some.inj href'
      obtain ⟨rfl, rfl⟩ := Dir.place_unique (h.represents.offset_lt hi hlive)
        (h'.represents.offset_lt hi' hlive') (hoff.symm.trans hoff')
      rw [hfind', ← hplace, hfind]
    · rw [heq nm hnm, href] at href'
      cases href'
  · rw [hfind] at hplace
    cases hplace

/-! ## Changes -/

theorem Lists.create (h : Lists bits dir d entries) (hbits : bits ≤ 16) (hname : 0 < name.length)
    (hfit : Dir.tuxRecLen name.length ≤ 2 ^ bits)
    (hnew : ∀ e ∈ entries, ¬ (e.dir = d ∧ e.name = text name))
    (hbelow : Dir.BelowLimit bits dir name.length) (inum mode : ℕ) :
    ∃ dir' offset, Dir.tuxCreateEntry bits dir name inum mode = .ok (dir', offset) ∧
      Lists bits dir' d (entries ++ [⟨d, text name, inum, Namei.tuxTypeByMode mode⟩]) ∧
      Stay bits dir dir' name := by
  obtain ⟨ref, chain, n, h⟩ := h
  have hnone := h.ref_none hnew
  rcases h.represents.create hname hfit hnone hbelow inum mode with
    ⟨-, hbig⟩ | ⟨dir', offset, hcreate, chain', n', hrep, hpacked⟩
  · have hle : 2 ^ bits ≤ 2 ^ 16 := Nat.pow_le_pow_right (by decide) hbits
    omega
  · have hmem : ∀ e : Namei.Dirent, e.dir = d →
        (e ∈ entries ++ [⟨d, text name, inum, Namei.tuxTypeByMode mode⟩] ↔
          ∃ nm v, Function.update ref name (some ⟨inum, Dir.tuxTypeByMode mode, offset⟩) nm = some v ∧
            e = ⟨d, text nm, v.inum, v.type⟩) := by
      intro e hd
      rw [List.mem_append, List.mem_singleton, h.mem e hd]
      constructor
      · rintro (⟨nm, v, href, rfl⟩ | rfl)
        · have hnm : nm ≠ name := by
            rintro rfl
            rw [hnone] at href
            cases href
          exact ⟨nm, v, by rwa [Function.update_of_ne hnm], rfl⟩
        · exact ⟨name, _, Function.update_self _ _ _, by rw [tuxTypeByMode_eq]⟩
      · rintro ⟨nm, v, href, rfl⟩
        by_cases hnm : nm = name
        · subst hnm
          rw [Function.update_self] at href
          obtain rfl := Option.some.inj href
          exact Or.inr (by rw [tuxTypeByMode_eq])
        · rw [Function.update_of_ne hnm] at href
          exact Or.inl ⟨nm, v, href, rfl⟩
    have h' : Listing bits dir' d _ _ chain' n' := ⟨hrep, hpacked h.packed, hmem⟩
    exact ⟨dir', offset, hcreate, ⟨_, _, _, h'⟩,
      stay_of_refs h h' fun nm hnm => Function.update_of_ne hnm _ _⟩

theorem Lists.delete (h : Lists bits dir d entries) (hnodup : entries.Nodup) (he : e ∈ entries)
    (hd : e.dir = d) (hn : e.name = text name) (hfind : Dir.tuxFindEntry bits dir name = .ok (i, o)) :
    ∃ b, Dir.tuxDeleteEntry (dir.block i) o = .ok b ∧
      Lists bits ⟨Function.update dir.block i b, dir.size⟩ d (entries.erase e) := by
  obtain ⟨ref, chain, n, h⟩ := h
  obtain ⟨v, hv, rfl⟩ := h.ref_of_mem he hd hn
  obtain ⟨b, hdelete, chain', hrep, hpacked⟩ := h.represents.delete hfind
  refine ⟨b, hdelete, _, chain', n, hrep, hpacked h.packed, fun a ha => ?_⟩
  rw [hnodup.mem_erase_iff, h.mem a ha]
  constructor
  · rintro ⟨hne, nm, w, href, rfl⟩
    have hnm : nm ≠ name := by
      rintro rfl
      rw [hv] at href
      obtain rfl := Option.some.inj href
      exact hne rfl
    exact ⟨nm, w, by rwa [Function.update_of_ne hnm], rfl⟩
  · rintro ⟨nm, w, href, rfl⟩
    by_cases hnm : nm = name
    · subst hnm
      rw [Function.update_self] at href
      cases href
    · rw [Function.update_of_ne hnm] at href
      refine ⟨fun heq => hnm (text_inj (congrArg Namei.Dirent.name heq)), nm, w, href, rfl⟩

theorem Lists.retarget (h : Lists bits dir d entries) (hnodup : entries.Nodup) (he : e ∈ entries)
    (hd : e.dir = d) (hn : e.name = text name) (hfind : Dir.tuxFindEntry bits dir name = .ok (i, o))
    (inum mode : ℕ) :
    Lists bits (retarget dir i o inum (Dir.tuxTypeByMode mode)) d
        (entries.replace e { e with inum := inum, type := Namei.tuxTypeByMode mode }) ∧
      Stay bits dir (NameiBlocks.retarget dir i o inum (Dir.tuxTypeByMode mode)) name := by
  obtain ⟨ref, chain, n, h⟩ := h
  obtain ⟨v, hv, rfl⟩ := h.ref_of_mem he hd hn
  rcases h.find name with ⟨i', o', w, hfind', href, hi, hlive, hoff⟩ | ⟨hfind', -⟩
  · rw [hfind] at hfind'
    obtain ⟨rfl, rfl⟩ := Prod.mk.inj (Except.ok.inj hfind')
    rw [hv] at href
    obtain rfl := Option.some.inj href
    have hmem : ∀ a : Namei.Dirent, a.dir = d → (a ∈ entries.replace ⟨d, text name, v.inum, v.type⟩
          ⟨d, text name, inum, Namei.tuxTypeByMode mode⟩ ↔
        ∃ nm w, Function.update ref name (some ⟨inum, Dir.tuxTypeByMode mode, v.offset⟩) nm = some w ∧
          a = ⟨d, text nm, w.inum, w.type⟩) := by
      intro a ha
      rw [(Namei.replace_perm he).mem_iff, List.mem_cons, hnodup.mem_erase_iff, h.mem a ha]
      constructor
      · rintro (rfl | ⟨hne, nm, w, href, rfl⟩)
        · exact ⟨name, _, Function.update_self _ _ _, by rw [tuxTypeByMode_eq]⟩
        · have hnm : nm ≠ name := by
            rintro rfl
            rw [hv] at href
            obtain rfl := Option.some.inj href
            exact hne rfl
          exact ⟨nm, w, by rwa [Function.update_of_ne hnm], rfl⟩
      · rintro ⟨nm, w, href, rfl⟩
        by_cases hnm : nm = name
        · subst hnm
          rw [Function.update_self] at href
          obtain rfl := Option.some.inj href
          exact Or.inl (by rw [tuxTypeByMode_eq])
        · rw [Function.update_of_ne hnm] at href
          exact Or.inr ⟨fun heq => hnm (text_inj (congrArg Namei.Dirent.name heq)), nm, w, href, rfl⟩
    have h' : Listing bits (NameiBlocks.retarget dir i o inum (Dir.tuxTypeByMode mode)) d _ _ chain n :=
      ⟨represents_retarget h.represents hv hi hlive hoff inum _, fun j hj => (h.packed j hj).kept
        fun x hx => Or.inr (Or.inr ⟨hx, retarget_same.2.1, retarget_same.2.2⟩), hmem⟩
    exact ⟨⟨_, _, _, h'⟩, stay_of_refs h h' fun nm hnm => Function.update_of_ne hnm _ _⟩
  · rw [hfind] at hfind'
    cases hfind'

/-! ## Empty directories -/

/-- The record of a name that is not a dot entry stops the scan. -/
theorem notDot_of_valid {entry : Dir.Dirent} (hmatch : Dir.tuxMatch name entry = true)
    (hvalid : Namei.ValidName (text name)) : notDot d entry = true := by
  obtain ⟨hempty, hdot, hdots⟩ := hvalid
  simp only [Dir.tuxMatch, Bool.and_eq_true, Bool.not_eq_true', decide_eq_true_eq] at hmatch
  obtain ⟨⟨hlen, hlive⟩, hname⟩ := hmatch
  obtain ⟨rest, hrest⟩ : ∃ rest, entry.name = name ++ rest := by
    refine ⟨entry.name.drop name.length, ?_⟩
    nth_rewrite 1 [← List.take_append_drop name.length entry.name]
    rw [← hname]
  rw [notDot, hlive, Bool.not_false, Bool.true_and, ← hlen, hrest]
  rcases name with _ | ⟨a, _ | ⟨b, _ | ⟨c, l⟩⟩⟩
  · exact absurd rfl hempty
  · have ha : a ≠ 46 := by
      rintro rfl
      exact hdot rfl
    simp [ha]
  · by_cases ha : a = 46
    · have hb : b ≠ 46 := by
        rintro rfl
        subst ha
        exact hdots rfl
      simp [hb]
    · simp [ha]
  · simp

theorem Lists.isEmpty {vol : Volume} (h : Lists bits (vol.dir d) d entries)
    (hvalid : ∀ e ∈ entries, Namei.ValidName e.name) :
    tuxDirIsEmpty bits vol d = some 0 ∧ (∀ e ∈ entries, e.dir ≠ d) ∨
      tuxDirIsEmpty bits vol d = some (-Namei.enotempty) ∧ ∃ e ∈ entries, e.dir = d := by
  obtain ⟨ref, chain, n, h⟩ := h
  have hrep := h.represents
  rw [tuxDirIsEmpty, hrep.blocksOf_eq]
  rcases Dir.scanBlocks_spec (vol.dir d) (notDot d) chain n 0
    (fun i hi => hrep.tiled i (Nat.zero_add n ▸ hi)) (show 0 < Dir.tuxRecLen 1 by decide)
    with ⟨i, o, hscan, hi, ho, hstop⟩ | ⟨hscan, hall⟩
  · rw [Nat.zero_add] at hi
    right
    refine ⟨by rw [hscan], ?_⟩
    rcases h.packed i hi o ho with ⟨name, hmatch⟩ | ⟨-, hdead⟩
    · have href := (hrep.listed name ⟨_, _, i * 2 ^ bits + o⟩).mpr
        ⟨i, hi, o, ⟨ho, hmatch, rfl, rfl⟩, rfl⟩
      exact ⟨_, (h.mem _ rfl).mpr ⟨name, _, href, rfl⟩, rfl⟩
    · simp [notDot, hdead] at hstop
  · left
    refine ⟨by rw [hscan], fun e he hd => ?_⟩
    obtain ⟨name, v, href, rfl⟩ := (h.mem e hd).mp he
    obtain ⟨i, hi, o, ⟨ho, hmatch, -⟩, -⟩ := (hrep.listed name v).mp href
    have hlive := notDot_of_valid (d := d) hmatch (hvalid _ he)
    obtain ⟨-, hend, hfits⟩ := (hrep.tiled i hi).bounds ho
    have hlen : 1 ≤ ((vol.dir d).block i o).nameLen := by
      simp only [Dir.tuxMatch, Dir.isDeleted, Bool.and_eq_true, Bool.not_eq_true',
        decide_eq_false_iff_not] at hmatch
      omega
    have hle := Nat.le_trans (Dir.tuxRecLen_mono hlen) hfits.2
    rw [hall i (Nat.zero_le i) (by omega) o ho (by omega)] at hlive
    cases hlive

end

end Tux3.NameiBlocks
