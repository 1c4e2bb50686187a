import Tux3.Xattr
import Tux3.Lib.Count
import Mathlib.Data.Fintype.Card

/-!
# Names of atoms

The dictionary, the reverse map, the free list and the caches agree on which atoms have a name, and
the counts are the numbers of inodes that hold an atom.
-/
namespace Tux3.Xattr

open Tux3.Dir

/-- The list of free atoms from one atom on, linked through the reverse map. -/
def FreeList (unatom : ℕ → ℕ) : ℕ → List ℕ → Prop
  | atom, [] => atom = 0
  | atom, a :: l => atom = a ∧ a ≠ 0 ∧ unatom a / 2 ^ 48 = 0xdead ∧
      FreeList unatom (unatom a % 2 ^ 48 % 2 ^ 32) l

/-- An inode whose cache has an atom. -/
def Holds (xcache : ℕ → List Attr) (atom inode : ℕ) : Prop := ∃ x ∈ xcache inode, x.atom = atom

instance (xcache : ℕ → List Attr) (atom : ℕ) : DecidablePred (Holds xcache atom) :=
  fun inode => inferInstanceAs (Decidable (∃ x ∈ xcache inode, x.atom = atom))

/-- An atom of the dictionary. -/
def Named (ref : Ref) (atom : ℕ) : Prop := ∃ name v, ref name = some v ∧ v.inum = atom

abbrev Values := ℕ → List UInt8 → Option (List UInt8)

/-- The names, the reverse map, the free list and the caches agree; `val` is what the attributes
of each inode should be. -/
structure Names (blockbits N : ℕ) (s : Atable) (val : Values) (ref : Ref) (fl : List ℕ) : Prop where
  dict : ∃ chain n, Represents blockbits s.dict ref chain n ∧
    ∀ i < n, Packed (s.dict.block i) (chain i)
  inj : ∀ a b v w, ref a = some v → ref b = some w → v.inum = w.inum → a = b
  atoms : ∀ a v, ref a = some v → 0 < v.inum ∧ v.inum < s.atomgen
  rev : ∀ a v, ref a = some v → s.unatom v.inum = v.offset
  gen : 0 < s.atomgen ∧ s.atomgen ≤ 2 ^ 16
  links : FreeList s.unatom s.freeatom fl
  nodup : fl.Nodup
  mem : ∀ a, a ∈ fl ↔ (0 < a ∧ a < s.atomgen) ∧ ¬ Named ref a
  held : ∀ i x, x ∈ s.xcache i → Named ref x.atom
  distinct : ∀ i, ((s.xcache i).map Attr.atom).Nodup
  outside : ∀ i, N ≤ i → s.xcache i = []
  values : ∀ i name d, val i name = some d ↔
    ∃ v, ref name = some v ∧ ⟨v.inum, d⟩ ∈ s.xcache i

/-- The count of an atom. -/
def Atable.refs (s : Atable) (atom : ℕ) : ℕ := s.hirefs atom * 2 ^ 16 + s.lorefs atom

/-- The counts are the numbers of inodes that hold the atoms. -/
def Counts (N : ℕ) (s : Atable) : Prop :=
  ∀ a, s.lorefs a < 2 ^ 16 ∧ s.hirefs a < 2 ^ 16 ∧ s.refs a = Nat.count (Holds s.xcache a) N

section
variable {bits N : ℕ} {s s' : Atable} {val : Values} {ref : Ref} {fl : List ℕ} {atom inode : ℕ}
  {name : List UInt8} {v : Held}

/-! ## Counts -/

/-- The two halves are one counter, and the atom goes when it gets to zero. -/
theorem useAtom_spec {use : ℤ} (hlo : s.lorefs atom < 2 ^ 16) (hhi : s.hirefs atom < 2 ^ 16)
    (hdown : -2 ^ 15 ≤ use) (hup : use ≤ 2 ^ 15) (hzero : 0 ≤ s.refs atom + use)
    (hmax : s.refs atom + use < 2 ^ 32) :
    ∃ lo hi, useAtom bits s atom use =
        (if s.refs atom + use = 0 then killAtom bits { s with lorefs := lo, hirefs := hi } atom
          else { s with lorefs := lo, hirefs := hi }) ∧
      (∀ b, b ≠ atom → lo b = s.lorefs b ∧ hi b = s.hirefs b) ∧ lo atom < 2 ^ 16 ∧
      hi atom < 2 ^ 16 ∧ (hi atom : ℤ) * 2 ^ 16 + lo atom = s.refs atom + use := by
  have hrefs : (s.refs atom : ℤ) = s.hirefs atom * 2 ^ 16 + s.lorefs atom := by
    unfold Atable.refs
    omega
  rw [hrefs] at hzero hmax ⊢
  unfold useAtom
  dsimp only
  by_cases hcarry : (s.lorefs atom : ℤ) + use = 0 ∨ (s.lorefs atom : ℤ) + use < 0 ∨
      2 ^ 16 ≤ (s.lorefs atom : ℤ) + use
  · rw [if_pos hcarry]
    refine ⟨Function.update s.lorefs atom (((s.lorefs atom : ℤ) + use) % 2 ^ 16).toNat,
      Function.update s.hirefs atom
        (((s.hirefs atom : ℤ) + ((s.lorefs atom : ℤ) + use) / 2 ^ 16) % 2 ^ 16).toNat, ?_,
      fun b hb => ⟨Function.update_of_ne hb _ _, Function.update_of_ne hb _ _⟩, ?_, ?_, ?_⟩
    · by_cases hlast : (s.hirefs atom : ℤ) * 2 ^ 16 + s.lorefs atom + use = 0
      · rw [if_pos hlast, if_pos (by omega)]
      · rw [if_neg hlast, if_neg (by omega)]
    all_goals simp only [Function.update_self]; omega
  · -- the low half takes the use, and is not zero
    rw [if_neg hcarry]
    refine ⟨Function.update s.lorefs atom (((s.lorefs atom : ℤ) + use) % 2 ^ 16).toNat, s.hirefs,
      (if_neg (by omega)).symm, fun b hb => ⟨Function.update_of_ne hb _ _, rfl⟩, ?_, hhi, ?_⟩
    all_goals rw [Function.update_self]; omega

theorem useAtom_up (hlo : s.lorefs atom < 2 ^ 16) (hhi : s.hirefs atom < 2 ^ 16)
    (hmax : s.refs atom + 1 < 2 ^ 32) :
    ∃ lo hi, useAtom bits s atom 1 = { s with lorefs := lo, hirefs := hi } ∧
      (∀ b, b ≠ atom → lo b = s.lorefs b ∧ hi b = s.hirefs b) ∧ lo atom < 2 ^ 16 ∧
      hi atom < 2 ^ 16 ∧ hi atom * 2 ^ 16 + lo atom = s.refs atom + 1 := by
  obtain ⟨lo, hi, heq, hother, hlo', hhi', hsum⟩ := @useAtom_spec bits s atom 1 hlo hhi
    (by decide) (by decide) (by omega) (by omega)
  rw [if_neg (by omega)] at heq
  exact ⟨lo, hi, heq, hother, hlo', hhi', by omega⟩

theorem useAtom_down (hlo : s.lorefs atom < 2 ^ 16) (hhi : s.hirefs atom < 2 ^ 16)
    (hpos : 0 < s.refs atom) :
    ∃ lo hi, useAtom bits s atom (-1) =
        (if s.refs atom = 1 then killAtom bits { s with lorefs := lo, hirefs := hi } atom
          else { s with lorefs := lo, hirefs := hi }) ∧
      (∀ b, b ≠ atom → lo b = s.lorefs b ∧ hi b = s.hirefs b) ∧ lo atom < 2 ^ 16 ∧
      hi atom < 2 ^ 16 ∧ hi atom * 2 ^ 16 + lo atom + 1 = s.refs atom := by
  have hmax : s.refs atom < 2 ^ 32 := by
    rw [Atable.refs]
    omega
  obtain ⟨lo, hi, heq, hother, hlo', hhi', hsum⟩ := @useAtom_spec bits s atom (-1) hlo hhi
    (by decide) (by decide) (by omega) (by omega)
  have hlast : (s.refs atom : ℤ) + -1 = 0 ↔ s.refs atom = 1 := by omega
  simp only [hlast] at heq
  exact ⟨lo, hi, heq, hother, hlo', hhi', by omega⟩

theorem count_hold {p q : ℕ → Prop} [DecidablePred p] [DecidablePred q] (hi : inode < N)
    (hon : p inode) (hoff : ¬ q inode) (hother : ∀ j, j ≠ inode → (p j ↔ q j)) :
    Nat.count p N = Nat.count q N + 1 := by
  have hdiffer : Count.Differ p q inode 1 := by
    refine ⟨fun b hb => hother b (by omega), fun b h₁ h₂ => ?_, fun b h₁ h₂ => ?_⟩
    · obtain rfl : b = inode := by omega
      exact hon
    · obtain rfl : b = inode := by omega
      exact hoff
  have hcount := hdiffer.count_eq N
  have hone := (Count.overlap_eq_iff (by decide : 0 < 1)).mpr (show inode + 1 ≤ N from hi)
  rw [hcount, hone]

/-! ## Caches -/

/-- The attributes that stay when one is removed. -/
theorem mem_removeOld {xcache : List Attr} (h : (xcache.map Attr.atom).Nodup) (x : Attr) :
    x ∈ removeOld xcache atom ↔ x ∈ xcache ∧ x.atom ≠ atom := by
  unfold removeOld
  induction xcache with
  | nil => simp
  | cons y xcache ih =>
      rw [List.map_cons, List.nodup_cons] at h
      by_cases hy : y.atom = atom
      · rw [List.eraseP_cons_of_pos (by simpa using hy)]
        have hne : ∀ z ∈ xcache, z.atom ≠ atom := by
          intro z hz heq
          exact h.1 (List.mem_map.mpr ⟨z, hz, heq.trans hy.symm⟩)
        constructor
        · intro hx
          exact ⟨List.mem_cons_of_mem _ hx, hne x hx⟩
        · rintro ⟨hx, hxa⟩
          rcases List.mem_cons.mp hx with rfl | hx
          · exact absurd hy hxa
          · exact hx
      · rw [List.eraseP_cons_of_neg (by simpa using hy), List.mem_cons, List.mem_cons, ih h.2]
        constructor
        · rintro (rfl | ⟨hx, hxa⟩)
          · exact ⟨Or.inl rfl, hy⟩
          · exact ⟨Or.inr hx, hxa⟩
        · rintro ⟨rfl | hx, hxa⟩
          · exact Or.inl rfl
          · exact Or.inr ⟨hx, hxa⟩

/-- The cache with the value of one atom changed, or without the atom. -/
def put (xcache : List Attr) (atom : ℕ) (value : Option (List UInt8)) : List Attr :=
  removeOld xcache atom ++ (value.map fun d => (⟨atom, d⟩ : Attr)).toList

theorem mem_put {xcache : List Attr} (h : (xcache.map Attr.atom).Nodup)
    (value : Option (List UInt8)) (x : Attr) :
    x ∈ put xcache atom value ↔
      (x ∈ xcache ∧ x.atom ≠ atom) ∨ ∃ d, value = some d ∧ x = ⟨atom, d⟩ := by
  rw [put, List.mem_append, mem_removeOld h]
  cases value with
  | none => simp
  | some d => simp

theorem nodup_put {xcache : List Attr} (h : (xcache.map Attr.atom).Nodup)
    (value : Option (List UInt8)) : ((put xcache atom value).map Attr.atom).Nodup := by
  have hold : ((removeOld xcache atom).map Attr.atom).Nodup :=
    h.sublist (List.eraseP_sublist.map _)
  cases value with
  | none => simpa [put] using hold
  | some d =>
      have hne : atom ∉ (removeOld xcache atom).map Attr.atom := by
        intro hmem
        obtain ⟨x, hx, heq⟩ := List.mem_map.mp hmem
        exact ((mem_removeOld h x).mp hx).2 heq
      rw [put, List.map_append]
      refine List.nodup_append.mpr ⟨hold, List.nodup_singleton _, fun a ha b hb heq => ?_⟩
      obtain rfl : b = atom := List.mem_singleton.mp hb
      exact hne (heq ▸ ha)

/-! ## The dictionary and the free list -/

theorem FreeList.congr {unatom unatom' : ℕ → ℕ} {l : List ℕ} {a : ℕ} (h : FreeList unatom a l)
    (heq : ∀ x ∈ l, unatom' x = unatom x) : FreeList unatom' a l := by
  induction l generalizing a with
  | nil => exact h
  | cons b l ih =>
      obtain ⟨hab, hb, hdead, hnext⟩ := h
      refine ⟨hab, hb, ?_, ?_⟩
      · rw [heq b List.mem_cons_self]
        exact hdead
      · rw [heq b List.mem_cons_self]
        exact ih hnext fun x hx => heq x (List.mem_cons_of_mem _ hx)

theorem free_link {a : ℕ} (ha : a < 2 ^ 32) :
    (a ||| 0xdead <<< 48) / 2 ^ 48 = 0xdead ∧ (a ||| 0xdead <<< 48) % 2 ^ 48 % 2 ^ 32 = a := by
  have hlink : a ||| 0xdead <<< 48 = 0xdead * 2 ^ 48 + a := by
    rw [Nat.shiftLeft_eq, Nat.or_comm, Nat.mul_comm,
      Nat.two_pow_add_eq_or_of_lt (show a < 2 ^ 48 by omega)]
  rw [hlink]
  constructor <;> omega

/-- `find_atom` gives the atom of a name of the dictionary. -/
theorem Names.find (h : Names bits N s val ref fl) (name : List UInt8) :
    findAtom bits s name = ((ref name).map Held.inum).getD noAtom := by
  obtain ⟨chain, n, hR, -⟩ := h.dict
  have hspec := hR.find name
  cases href : ref name with
  | none =>
      rw [href] at hspec
      rw [findAtom, hspec]
      rfl
  | some v =>
      rw [href] at hspec
      obtain ⟨i, o, hfind, -, ⟨-, -, hinum, -⟩, -⟩ := hspec
      have hlt := (h.atoms name v href).2
      have hgen := h.gen.2
      rw [findAtom, hfind]
      dsimp only
      rw [hinum, Nat.mod_eq_of_lt (by omega)]
      rfl

theorem Names.ne_noAtom (h : Names bits N s val ref fl) (href : ref name = some v) :
    v.inum ≠ noAtom := by
  have hlt := (h.atoms name v href).2
  have hgen := h.gen.2
  unfold noAtom
  omega

theorem entry_at {chain : ℕ → List ℕ} {n : ℕ} (hR : Represents bits s.dict ref chain n)
    (href : ref name = some v) :
    ∃ i o, v.offset / 2 ^ bits = i ∧ v.offset % 2 ^ bits = o ∧
      tuxFindEntry bits s.dict name = .ok (i, o) ∧ tuxMatch name (s.dict.block i o) = true ∧
      (s.dict.block i o).inum = v.inum := by
  have hspec := hR.find name
  rw [href] at hspec
  obtain ⟨i, o, hfind, hi, hlive, hoff⟩ := hspec
  have ho := hR.offset_lt hi hlive
  obtain ⟨-, hmatch, hinum, -⟩ := hlive
  refine ⟨i, o, ?_, ?_, hfind, hmatch, hinum⟩
  · rw [hoff, Nat.add_comm, Nat.add_mul_div_right _ _ (Nat.two_pow_pos bits),
      Nat.div_eq_of_lt ho, Nat.zero_add]
  · rw [hoff, Nat.add_comm, Nat.add_mul_mod_self_right, Nat.mod_eq_of_lt ho]

theorem Names.entry (h : Names bits N s val ref fl) (href : ref name = some v) :
    ∃ i o, s.unatom v.inum / 2 ^ bits = i ∧ s.unatom v.inum % 2 ^ bits = o ∧
      tuxFindEntry bits s.dict name = .ok (i, o) ∧ tuxMatch name (s.dict.block i o) = true ∧
      (s.dict.block i o).inum % 2 ^ 32 = v.inum := by
  obtain ⟨chain, n, hR, -⟩ := h.dict
  obtain ⟨i, o, hi, ho, hfind, hmatch, hinum⟩ := entry_at hR href
  have hlt := (h.atoms name v href).2
  have hgen := h.gen.2
  refine ⟨i, o, ?_, ?_, hfind, hmatch, ?_⟩
  · rw [h.rev name v href, hi]
  · rw [h.rev name v href, ho]
  · rw [hinum]
    exact Nat.mod_eq_of_lt (by omega)

/-- An atom is on the free list, and the entry that the reverse map pointed at is gone. -/
structure Released (bits : ℕ) (s s' : Atable) (atom : ℕ) : Prop where
  head : s'.freeatom = atom
  link : s'.unatom atom = s.freeatom ||| 0xdead <<< 48
  other : ∀ a, a ≠ atom → s'.unatom a = s.unatom a
  entry : ∀ ref chain n name v, Represents bits s.dict ref chain n → ref name = some v →
    v.inum % 2 ^ 32 = atom → s.unatom atom = v.offset →
      ∃ chain', Represents bits s'.dict (Function.update ref name none) chain' n
  kept : s'.lorefs = s.lorefs ∧ s'.hirefs = s.hirefs ∧ s'.atomgen = s.atomgen ∧
    s'.xcache = s.xcache

theorem Released.push (h : Released bits s s' atom) (hfree : s.freeatom < 2 ^ 32)
    (hpos : atom ≠ 0) (hnot : atom ∉ fl) (hl : FreeList s.unatom s.freeatom fl) :
    FreeList s'.unatom s'.freeatom (atom :: fl) := by
  obtain ⟨hdead, hnext⟩ := free_link hfree
  refine ⟨h.head, hpos, ?_, ?_⟩
  · rw [h.link]
    exact hdead
  · rw [h.link, hnext]
    refine hl.congr fun x hx => h.other x ?_
    rintro rfl
    exact hnot hx

/-- `use_atom` from `if (kill)` on changes the dictionary, the reverse map and the free list. -/
theorem killAtom_eq (bits : ℕ) (s : Atable) (atom : ℕ) :
    ∃ dict, killAtom bits s atom = { s with
      dict := dict
      unatom := Function.update s.unatom atom (s.freeatom ||| 0xdead <<< 48)
      freeatom := atom } := by
  unfold killAtom
  dsimp only
  split
  · split
    · exact ⟨_, rfl⟩
    · exact ⟨s.dict, rfl⟩
  · exact ⟨s.dict, rfl⟩

theorem killAtom_entry {chain : ℕ → List ℕ} {n : ℕ} (hR : Represents bits s.dict ref chain n)
    (href : ref name = some v) (hinum : v.inum % 2 ^ 32 = atom)
    (hrev : s.unatom atom = v.offset) :
    ∃ chain', Represents bits (killAtom bits s atom).dict (Function.update ref name none) chain' n ∧
      ((∀ j < n, Packed (s.dict.block j) (chain j)) →
        ∀ j < n, Packed ((killAtom bits s atom).dict.block j) (chain' j)) := by
  obtain ⟨i, o, hi, ho, hfind, -, hentry⟩ := entry_at hR href
  obtain ⟨b, hdelete, hrest⟩ := hR.delete hfind
  have hdict : (killAtom bits s atom).dict =
      { s.dict with block := Function.update s.dict.block i b } := by
    unfold killAtom
    dsimp only
    rw [hrev, hi, ho, hentry, if_pos hinum, hdelete]
  rw [hdict]
  exact hrest

theorem killAtom_released (bits : ℕ) (s : Atable) (atom : ℕ) :
    Released bits s (killAtom bits s atom) atom := by
  obtain ⟨dict, heq⟩ := killAtom_eq bits s atom
  refine ⟨?_, ?_, fun a ha => ?_, fun ref chain n name v hR href hinum hrev => ?_, ?_⟩
  · rw [heq]
  · rw [heq]
    exact Function.update_self _ _ _
  · rw [heq]
    exact Function.update_of_ne ha _ _
  · obtain ⟨chain', hR', -⟩ := killAtom_entry hR href hinum hrev
    exact ⟨chain', hR'⟩
  · rw [heq]
    exact ⟨rfl, rfl, rfl, rfl⟩

theorem Names.unatom (h : Names bits N s val ref fl) (href : ref name = some v) :
    unatomName bits s v.inum = some name := by
  obtain ⟨i, o, hi, ho, -, hmatch, hinum⟩ := h.entry href
  rw [unatomName, hi, ho, if_neg (by rw [hinum]; exact fun hne => hne rfl)]
  simp only [tuxMatch, Bool.and_eq_true, decide_eq_true_eq] at hmatch
  rw [← hmatch.1.1, ← hmatch.2]

/-- `get_freeatom` takes an atom without name off the free list, or the next one. -/
theorem Names.fresh (h : Names bits N s val ref fl)
    (havail : s.freeatom ≠ 0 ∨ s.atomgen < 2 ^ 16) :
    ∃ atom free gen fl', getFreeatom s = (atom, { s with freeatom := free, atomgen := gen }) ∧
      s.atomgen ≤ gen ∧ gen ≤ 2 ^ 16 ∧ 0 < atom ∧ atom < gen ∧ ¬ Named ref atom ∧
      FreeList s.unatom free fl' ∧ fl'.Nodup ∧
      ∀ a, a ∈ fl' ↔ ((0 < a ∧ a < gen) ∧ ¬ Named ref a) ∧ a ≠ atom := by
  obtain ⟨hpos, hgen⟩ := h.gen
  by_cases hfree : s.freeatom = 0
  · have hlt := havail.resolve_left fun hne => hne hfree
    have hnil : fl = [] := by
      cases hfl : fl with
      | nil => rfl
      | cons a l =>
          have hlinks := h.links
          rw [hfl] at hlinks
          exact absurd (hlinks.1.symm.trans hfree) hlinks.2.1
    have hnew : ¬ Named ref s.atomgen := by
      rintro ⟨name, v, href, hv⟩
      have hv' := (h.atoms name v href).2
      omega
    refine ⟨s.atomgen, s.freeatom, s.atomgen + 1, fl, ?_, Nat.le_succ _, hlt, hpos,
      Nat.lt_succ_self _, hnew, h.links, h.nodup, fun a => ?_⟩
    · rw [getFreeatom]
      dsimp only
      rw [if_pos hfree, Nat.mod_eq_of_lt (by omega)]
    · rw [h.mem a]
      constructor
      · rintro ⟨⟨h₁, h₂⟩, h₃⟩
        exact ⟨⟨⟨h₁, by omega⟩, h₃⟩, by omega⟩
      · rintro ⟨⟨⟨h₁, h₂⟩, h₃⟩, h₄⟩
        exact ⟨⟨h₁, by omega⟩, h₃⟩
  · cases hfl : fl with
    | nil =>
        have hlinks := h.links
        rw [hfl] at hlinks
        exact absurd hlinks hfree
    | cons b l =>
        have hlinks := h.links
        rw [hfl] at hlinks
        obtain ⟨hb, hb0, hdead, hnext⟩ := hlinks
        have hnodup := h.nodup
        rw [hfl, List.nodup_cons] at hnodup
        have hmem := (h.mem b).mp (hfl ▸ List.mem_cons_self)
        refine ⟨b, s.unatom b % 2 ^ 48 % 2 ^ 32, s.atomgen, l, ?_, Nat.le_refl _, hgen, hmem.1.1,
          hmem.1.2, hmem.2, hnext, hnodup.2, fun a => ?_⟩
        · rw [getFreeatom]
          dsimp only
          rw [if_neg hfree, hb, if_neg (fun hne => hne hdead)]
        · rw [← h.mem a, hfl, List.mem_cons]
          constructor
          · intro ha
            exact ⟨Or.inr ha, fun heq => hnodup.1 (heq ▸ ha)⟩
          · rintro ⟨rfl | ha, hne⟩
            · exact absurd rfl hne
            · exact ha

/-- There are too few atoms for a dictionary of 4 GiB. -/
theorem Names.below (h : Names bits N s val ref fl) {len : ℕ} (hfit : tuxRecLen len ≤ 2 ^ bits) :
    BelowLimit bits s.dict len := by
  obtain ⟨chain, n, hR, hpacked⟩ := h.dict
  by_contra hnot
  obtain ⟨hsize, hroom⟩ := not_or.mp hnot
  have hall := (hR.room hpacked hfit).resolve_left hroom
  choose nm v hv hoff using hall
  have hn : 2 ^ 16 ≤ n := by
    have hfull : n * 2 ^ bits = 2 ^ 32 := by
      have hlimit := hR.limit
      rw [← hR.size]
      omega
    by_contra hlt
    have hpos : 0 < n := by
      rcases Nat.eq_zero_or_pos n with rfl | hpos
      · rw [Nat.zero_mul] at hfull
        omega
      · exact hpos
    have hle := Nat.mul_le_mul (show n ≤ 2 ^ 16 - 1 by omega) (hR.small hpos)
    omega
  have hatom : ∀ i : Fin n, (v i i.2).inum - 1 < s.atomgen - 1 := by
    intro i
    have hatom := h.atoms _ _ (hv i i.2)
    omega
  have hinj : Function.Injective fun i : Fin n =>
      (⟨(v i i.2).inum - 1, hatom i⟩ : Fin (s.atomgen - 1)) := by
    intro i j heq
    have hinum : (v i i.2).inum = (v j j.2).inum := by
      have hi := h.atoms _ _ (hv i i.2)
      have hj := h.atoms _ _ (hv j j.2)
      have heq := congrArg Fin.val heq
      dsimp only at heq
      omega
    have hname := h.inj _ _ _ _ (hv i i.2) (hv j j.2) hinum
    have hsame : v i i.2 = v j j.2 := by
      have hi := hv i i.2
      rw [hname, hv j j.2] at hi
      exact (Option.some.inj hi).symm
    refine Fin.ext ?_
    rw [← hoff i i.2, ← hoff j j.2, hsame]
  have hcard := Fintype.card_le_of_injective _ hinj
  rw [Fintype.card_fin, Fintype.card_fin] at hcard
  have hgen := h.gen
  omega

/-- `make_atom` returns the atom of the name, which it enters when there is none. -/
theorem Names.make (h : Names bits N s val ref fl) (hname : 0 < name.length)
    (hfit : tuxRecLen name.length ≤ 2 ^ bits)
    (havail : ref name ≠ none ∨ s.freeatom ≠ 0 ∨ s.atomgen < 2 ^ 16)
    (hmake : makeAtom bits s name = some (atom, s')) :
    ∃ ref' fl' v, Names bits N s' val ref' fl' ∧ ref' name = some v ∧ v.inum = atom ∧
      (findAtom bits s name = atom ∨ findAtom bits s name = noAtom ∧ ¬ Named ref atom) ∧
      s'.lorefs = s.lorefs ∧ s'.hirefs = s.hirefs ∧ s'.xcache = s.xcache := by
  have hfind := h.find name
  rw [makeAtom, hfind] at hmake
  rw [hfind]
  cases href : ref name with
  | some v =>
      rw [href] at hmake
      dsimp only [Option.map_some, Option.getD_some] at hmake
      rw [if_pos (h.ne_noAtom href)] at hmake
      cases hmake
      exact ⟨ref, fl, v, h, href, rfl, Or.inl rfl, rfl, rfl, rfl⟩
  | none =>
      obtain ⟨a, free, gen, fl', hfresh, hle, hgen, hpos, hlt, hnew, hlinks, hnodup, hmem⟩ :=
        h.fresh (havail.resolve_left fun hne => hne href)
      obtain ⟨chain, n, hR, hpacked⟩ := h.dict
      rw [href] at hmake
      dsimp only [Option.map_none, Option.getD_none] at hmake
      rw [if_neg (fun hne => hne rfl), hfresh] at hmake
      dsimp only at hmake
      rcases hR.create hname hfit href (h.below hfit) a 0 with
        ⟨hdie, -⟩ | ⟨dict, offset, hok, chain', n', hR', hpacked'⟩
      · rw [hdie] at hmake
        cases hmake
      · rw [hok] at hmake
        cases hmake
        have hold : ∀ nm w, ref nm = some w →
            Function.update ref name (some ⟨atom, tuxTypeByMode 0, offset⟩) nm = some w := by
          intro nm w hw
          rw [Function.update_of_ne (fun heq => by rw [heq, href] at hw; cases hw)]
          exact hw
        have hcases : ∀ nm w, Function.update ref name (some ⟨atom, tuxTypeByMode 0, offset⟩) nm =
            some w → nm = name ∧ w = ⟨atom, tuxTypeByMode 0, offset⟩ ∨ ref nm = some w := by
          intro nm w hw
          by_cases hnm : nm = name
          · subst hnm
            rw [Function.update_self] at hw
            exact Or.inl ⟨rfl, (Option.some.inj hw).symm⟩
          · rw [Function.update_of_ne hnm] at hw
            exact Or.inr hw
        have hnamed : ∀ b,
            Named (Function.update ref name (some ⟨atom, tuxTypeByMode 0, offset⟩)) b ↔
              Named ref b ∨ b = atom := by
          intro b
          constructor
          · rintro ⟨nm, w, hw, hb⟩
            rcases hcases nm w hw with ⟨-, rfl⟩ | hw
            · exact Or.inr hb.symm
            · exact Or.inl ⟨nm, w, hw, hb⟩
          · rintro (⟨nm, w, hw, hb⟩ | rfl)
            · exact ⟨nm, w, hold nm w hw, hb⟩
            · exact ⟨name, _, Function.update_self _ _ _, rfl⟩
        refine ⟨_, fl', _, ⟨⟨chain', n', hR', hpacked' hpacked⟩,
          fun x y w z hw hz heq => ?_, fun nm w hw => ?_, fun nm w hw => ?_,
          ⟨Nat.lt_of_lt_of_le h.gen.1 hle, hgen⟩, hlinks.congr fun x hx => ?_, hnodup, fun b => ?_,
          fun i x hx => (hnamed _).mpr (Or.inl (h.held i x hx)), h.distinct, h.outside,
          fun i nm d => ?_⟩, Function.update_self _ _ _, rfl, Or.inr ⟨rfl, hnew⟩, rfl, rfl, rfl⟩
        · rcases hcases x w hw with ⟨hx, rfl⟩ | hx <;> rcases hcases y z hz with ⟨hy, rfl⟩ | hy
          · exact hx.trans hy.symm
          · exact absurd ⟨y, z, hy, heq.symm⟩ hnew
          · exact absurd ⟨x, w, hx, heq⟩ hnew
          · exact h.inj x y w z hx hy heq
        · rcases hcases nm w hw with ⟨-, rfl⟩ | hw
          · exact ⟨hpos, hlt⟩
          · exact ⟨(h.atoms nm w hw).1, Nat.lt_of_lt_of_le (h.atoms nm w hw).2 hle⟩
        · rcases hcases nm w hw with ⟨-, rfl⟩ | hw
          · exact Function.update_self _ _ _
          · have hne : w.inum ≠ atom := fun heq => hnew ⟨nm, w, hw, heq⟩
            dsimp only
            rw [Function.update_of_ne hne]
            exact h.rev nm w hw
        · exact Function.update_of_ne ((hmem x).mp hx).2 _ _
        · rw [hmem b, hnamed b]
          constructor
          · rintro ⟨⟨hb, hnb⟩, hne⟩
            exact ⟨hb, fun hor => hor.elim hnb hne⟩
          · rintro ⟨hb, hnb⟩
            exact ⟨⟨hb, fun hn => hnb (Or.inl hn)⟩, fun heq => hnb (Or.inr heq)⟩
        · rw [h.values i nm d]
          constructor
          · rintro ⟨w, hw, hx⟩
            exact ⟨w, hold nm w hw, hx⟩
          · rintro ⟨w, hw, hx⟩
            rcases hcases nm w hw with ⟨-, rfl⟩ | hw
            · exact absurd (h.held i _ hx) hnew
            · exact ⟨w, hw, hx⟩

/-- The attributes of one inode change with its cache. -/
theorem Names.put (h : Names bits N s val ref fl) (href : ref name = some v) (hi : inode < N)
    (value : Option (List UInt8)) :
    Names bits N
      { s with xcache := Function.update s.xcache inode (put (s.xcache inode) v.inum value) }
      (Function.update val inode (Function.update (val inode) name value)) ref fl := by
  refine ⟨h.dict, h.inj, h.atoms, h.rev, h.gen, h.links, h.nodup, h.mem, fun i x hx => ?_,
    fun i => ?_, fun i hle => ?_, fun i nm d => ?_⟩
  · by_cases hii : i = inode
    · subst hii
      dsimp only at hx
      rw [Function.update_self] at hx
      rcases (mem_put (h.distinct i) value x).mp hx with ⟨hx, -⟩ | ⟨d, -, rfl⟩
      · exact h.held i x hx
      · exact ⟨name, v, href, rfl⟩
    · dsimp only at hx
      rw [Function.update_of_ne hii] at hx
      exact h.held i x hx
  · dsimp only
    by_cases hii : i = inode
    · subst hii
      rw [Function.update_self]
      exact nodup_put (h.distinct i) value
    · rw [Function.update_of_ne hii]
      exact h.distinct i
  · dsimp only
    rw [Function.update_of_ne (by omega)]
    exact h.outside i hle
  · dsimp only
    by_cases hii : i = inode
    · subst hii
      rw [Function.update_self, Function.update_self]
      by_cases hnm : nm = name
      · subst hnm
        rw [Function.update_self]
        constructor
        · rintro rfl
          exact ⟨v, href, (mem_put (h.distinct i) _ _).mpr (Or.inr ⟨d, rfl, rfl⟩)⟩
        · rintro ⟨w, hw, hx⟩
          rw [href] at hw
          cases hw
          rcases (mem_put (h.distinct i) _ _).mp hx with ⟨-, hne⟩ | ⟨d', hval, heq⟩
          · exact absurd rfl hne
          · cases heq
            exact hval
      · rw [Function.update_of_ne hnm, h.values i nm d]
        have hne : ∀ w, ref nm = some w → w.inum ≠ v.inum := fun w hw heq =>
          hnm (h.inj nm name w v hw href heq)
        constructor
        · rintro ⟨w, hw, hx⟩
          exact ⟨w, hw, (mem_put (h.distinct i) _ _).mpr (Or.inl ⟨hx, hne w hw⟩)⟩
        · rintro ⟨w, hw, hx⟩
          rcases (mem_put (h.distinct i) _ _).mp hx with ⟨hx, -⟩ | ⟨d', -, heq⟩
          · exact ⟨w, hw, hx⟩
          · exact absurd (congrArg Attr.atom heq) (hne w hw)
    · rw [Function.update_of_ne hii, Function.update_of_ne hii]
      exact h.values i nm d

theorem Names.recount (h : Names bits N s val ref fl) (lo hi : ℕ → ℕ) :
    Names bits N { s with lorefs := lo, hirefs := hi } val ref fl :=
  ⟨h.dict, h.inj, h.atoms, h.rev, h.gen, h.links, h.nodup, h.mem, h.held, h.distinct, h.outside,
    h.values⟩

/-- An atom that no inode holds goes from the dictionary to the free list. -/
theorem Names.kill (h : Names bits N s val ref fl) (href : ref name = some v)
    (hunheld : ∀ i, ∀ x ∈ s.xcache i, x.atom ≠ v.inum) :
    ∃ dict unatom, killAtom bits s v.inum =
        { s with dict := dict, unatom := unatom, freeatom := v.inum } ∧
      Names bits N { s with dict := dict, unatom := unatom, freeatom := v.inum } val
        (Function.update ref name none) (v.inum :: fl) := by
  obtain ⟨chain, n, hR, hpacked⟩ := h.dict
  obtain ⟨hpos, hlt⟩ := h.atoms name v href
  have hgen := h.gen.2
  obtain ⟨chain', hR', hpacked'⟩ := killAtom_entry hR href
    (Nat.mod_eq_of_lt (show v.inum < 2 ^ 32 by omega)) (h.rev name v href)
  obtain ⟨dict, heq⟩ := killAtom_eq bits s v.inum
  have hreleased := killAtom_released bits s v.inum
  rw [heq] at hR' hpacked' hreleased
  have hnot : v.inum ∉ fl := fun hmem => ((h.mem _).mp hmem).2 ⟨name, v, href, rfl⟩
  have hfree : s.freeatom < 2 ^ 16 := by
    cases hfl : fl with
    | nil =>
        have hlinks := h.links
        rw [hfl] at hlinks
        obtain heq : s.freeatom = 0 := hlinks
        omega
    | cons a l =>
        have hlinks := h.links
        rw [hfl] at hlinks
        obtain heq : s.freeatom = a := hlinks.1
        have ha := (h.mem a).mp (hfl ▸ List.mem_cons_self)
        omega
  have hnamed : ∀ a, Named (Function.update ref name none) a ↔ Named ref a ∧ a ≠ v.inum := by
    intro a
    constructor
    · rintro ⟨nm, w, hw, rfl⟩
      by_cases hnm : nm = name
      · subst hnm
        rw [Function.update_self] at hw
        cases hw
      · rw [Function.update_of_ne hnm] at hw
        exact ⟨⟨nm, w, hw, rfl⟩, fun heq => hnm (h.inj nm name w v hw href heq)⟩
    · rintro ⟨⟨nm, w, hw, rfl⟩, hne⟩
      refine ⟨nm, w, ?_, rfl⟩
      rw [Function.update_of_ne]
      · exact hw
      · rintro rfl
        rw [href] at hw
        cases hw
        exact hne rfl
  have hold : ∀ nm w, Function.update ref name none nm = some w → ref nm = some w ∧
      w.inum ≠ v.inum := by
    intro nm w hw
    by_cases hnm : nm = name
    · subst hnm
      rw [Function.update_self] at hw
      cases hw
    · rw [Function.update_of_ne hnm] at hw
      exact ⟨hw, fun heq => hnm (h.inj nm name w v hw href heq)⟩
  refine ⟨dict, Function.update s.unatom v.inum (s.freeatom ||| 0xdead <<< 48), heq,
    ⟨chain', n, hR', hpacked' hpacked⟩,
    fun x y w z hw hz heq => h.inj x y w z (hold x w hw).1 (hold y z hz).1 heq,
    fun nm w hw => h.atoms nm w (hold nm w hw).1, fun nm w hw => ?_, h.gen,
    hreleased.push (by omega) (Nat.ne_of_gt hpos) hnot h.links,
    List.nodup_cons.mpr ⟨hnot, h.nodup⟩, fun a => ?_, fun i x hx => ?_, h.distinct, h.outside,
    fun i nm d => ?_⟩
  · dsimp only
    rw [Function.update_of_ne (hold nm w hw).2]
    exact h.rev nm w (hold nm w hw).1
  · rw [List.mem_cons, h.mem a, hnamed a]
    constructor
    · rintro (rfl | ⟨ha, hna⟩)
      · exact ⟨⟨hpos, hlt⟩, fun hn => hn.2 rfl⟩
      · exact ⟨ha, fun hn => hna hn.1⟩
    · rintro ⟨ha, hna⟩
      by_cases hav : a = v.inum
      · exact Or.inl hav
      · exact Or.inr ⟨ha, fun hn => hna ⟨hn, hav⟩⟩
  · exact (hnamed _).mpr ⟨h.held i x hx, hunheld i x hx⟩
  · rw [h.values i nm d]
    constructor
    · rintro ⟨w, hw, hx⟩
      refine ⟨w, ?_, hx⟩
      rw [Function.update_of_ne]
      · exact hw
      · rintro rfl
        rw [href] at hw
        cases hw
        exact hunheld i _ hx rfl
    · rintro ⟨w, hw, hx⟩
      exact ⟨w, (hold nm w hw).1, hx⟩

end

end Tux3.Xattr
