import Tux3.XattrCache

/-!
# A failed `set_xattr`

`set_xattr` on the cache of one inode, with an allocation that can fail. The atom is made before the
flags are looked at, and the old attribute is removed before there is room for the new one.
-/
namespace Tux3.Xattr

open Tux3.Dir

section
variable (blockbits : ℕ)

/-- `set_xattr`; the cache of the inode is no part of the table. -/
def setXattrOn (alloc : Bool) (s : Atable) (xcache : Option Xcache) (name data : List UInt8)
    (create replace : Bool) : Option ((Atable × Option Xcache) × Option Errno) :=
  match makeAtom blockbits s name with
  | none => none
  | some (atom, s) =>
      if atom = noAtom then some ((s, xcache), some .einval)
      else
        match updateXcache alloc xcache atom data create replace with
        | none => none
        | some (xcache, .error err) => some ((s, xcache), some err)
        | some (xcache, .ok use) =>
            some ((if use = 0 then s else useAtom blockbits s atom use, xcache), none)

/-- A table and the cache of an inode that agree. -/
structure Consistent (s : Atable) (xcache : Option Xcache) (ref : Ref) (fl : List ℕ) : Prop where
  dict : ∃ chain n, Represents blockbits s.dict ref chain n
  small : 2 ^ blockbits ≤ 65536
  atoms : ∀ name v, ref name = some v → 0 < v.inum ∧ v.inum < s.atomgen
  gen : 0 < s.atomgen ∧ s.atomgen < 2 ^ 32
  links : FreeList s.unatom s.freeatom fl
  nodup : fl.Nodup
  mem : ∀ a, a ∈ fl ↔ (0 < a ∧ a < s.atomgen) ∧ ¬ Named ref a
  cache : ∀ c, xcache = some c → c.WellFormed
  held : ∀ x ∈ xattrsOf xcache, Named ref x.atom

/-- No more bytes than there are, or memory for them. -/
def Room (alloc : Bool) (xcache : Option Xcache) (data : List UInt8) : Prop :=
  alloc = true ∨ needsXcache xcache (u32 (sizeofXattr + data.length)) = none

instance (alloc : Bool) (xcache : Option Xcache) (data : List UInt8) :
    Decidable (Room alloc xcache data) := inferInstanceAs (Decidable (_ ∨ _))

/-- A call that leaves the table and the cache as they were if it fails. -/
def KeepsState (alloc : Bool) (s : Atable) (xcache : Option Xcache) (name data : List UInt8)
    (create replace : Bool) : Prop :=
  ∀ s' xcache' err, setXattrOn blockbits alloc s xcache name data create replace =
    some ((s', xcache'), some err) → s' = s ∧ xcache' = xcache

/-- A call that cannot fail after its first change: for a new name it cannot fail, and for an
attribute that is replaced there is room. -/
def FailsClean (alloc : Bool) (s : Atable) (xcache : Option Xcache) (name data : List UInt8)
    (create replace : Bool) : Prop :=
  let atom := findAtom blockbits s name
  if atom = noAtom then
    (s.freeatom ≠ 0 ∨ s.atomgen ≠ noAtom) ∧ replace = false ∧ Room alloc xcache data
  else ∀ c x, xcache = some c → xcacheLookup c.xattrs atom = some x → create = false →
    Room alloc (some (c.remove x atom)) data

end

section
variable {bits use atom N inode : ℕ} {s s' : Atable} {xcache xcache' : Option Xcache} {ref : Ref}
  {fl : List ℕ} {name data : List UInt8} {alloc create replace : Bool} {val : Values} {c : Xcache}

/-! ## Room in the cache -/

theorem insertXattr_room (h : Room alloc xcache data) :
    ∃ c, insertXattr alloc xcache atom data use = (some c, .ok use) := by
  obtain ⟨c, hc⟩ : ∃ c, growXcache alloc xcache (u32 (sizeofXattr + data.length)) = some c := by
    unfold growXcache
    cases hneeds : needsXcache xcache (u32 (sizeofXattr + data.length)) with
    | none =>
        cases xcache with
        | none => cases hneeds
        | some c => exact ⟨c, rfl⟩
    | some newsize =>
        have halloc : alloc = true := h.resolve_right fun hnone => nomatch hneeds.symm.trans hnone
        rw [halloc]
        cases xcache with
        | none => exact ⟨_, rfl⟩
        | some c => exact ⟨_, rfl⟩
  unfold insertXattr
  dsimp only
  rw [hc]
  exact ⟨_, rfl⟩

theorem insertXattr_full (h : ¬ Room alloc xcache data) :
    insertXattr alloc xcache atom data use = (xcache, .error .enomem) := by
  obtain ⟨halloc, hneeds⟩ := not_or.mp h
  have hnone : growXcache alloc xcache (u32 (sizeofXattr + data.length)) = none := by
    unfold growXcache
    cases hneeds' : needsXcache xcache (u32 (sizeofXattr + data.length)) with
    | none => exact absurd hneeds' hneeds
    | some newsize =>
        dsimp only
        rw [if_neg halloc]
  unfold insertXattr
  dsimp only
  rw [hnone]

/-! ## A new atom -/

theorem toDisk_small {len : ℕ} (h : len ≤ 65536) : ∃ d, tuxRecLenToDisk len = .ok d := by
  unfold tuxRecLenToDisk
  by_cases hmax : len = 65536
  · exact ⟨65535, if_pos hmax⟩
  · exact ⟨len, by rw [if_neg hmax, if_neg (by omega)]⟩

theorem createAt_small {b : Block} {o : ℕ} (hlen : tuxRecLenFromDisk (b o).recLen ≤ 65536)
    (hname : tuxRecLen (b o).nameLen ≤ 65536) (name : List UInt8) (inum mode : ℕ) :
    ∃ b' o', createAt b o name inum mode = .ok (b', o') := by
  unfold createAt
  dsimp only
  by_cases hdel : isDeleted (b o) = true
  · rw [if_pos hdel]
    exact ⟨_, _, rfl⟩
  · obtain ⟨d, hd⟩ := toDisk_small (Nat.le_trans (Nat.sub_le _ (tuxRecLen (b o).nameLen)) hlen)
    obtain ⟨d', hd'⟩ := toDisk_small hname
    rw [if_neg hdel, hd, hd']
    exact ⟨_, _, rfl⟩

/-- `tux_create_entry` finds or makes a place in every directory of small blocks. -/
theorem tuxCreateEntry_ok {dir : Directory} {chain : ℕ → List ℕ} {n : ℕ}
    (h : Represents bits dir ref chain n) (hsmall : 2 ^ bits ≤ 65536) (name : List UInt8)
    (inum mode : ℕ) :
    ∃ dir' offset, tuxCreateEntry bits dir name inum mode = .ok (dir', offset) := by
  have hreclen : 0 < tuxRecLen name.length :=
    Nat.lt_of_lt_of_le (by decide) (tuxRecLen_pos name.length)
  have hn : 0 + n = n := Nat.zero_add n
  rcases scanBlocks_spec dir (hasRoom (tuxRecLen name.length)) chain n 0
    (fun i hi => h.tiled i (hn ▸ hi)) hreclen with ⟨i, o, hscan, hi, ho, -⟩ | ⟨hscan, -⟩
  · have hfind : findRoom bits dir name.length = .ok (some (i, o)) := by
      rw [findRoom, h.blocksOf_eq]
      exact hscan
    obtain ⟨-, hstop, -, hname⟩ := (h.tiled i (hn ▸ hi)).bounds ho
    have hlen : (dir.block i o).len ≤ 65536 := by omega
    obtain ⟨b, o', hcreate⟩ :=
      createAt_small hlen (Nat.le_trans hname hlen) name inum mode
    rw [tuxCreateEntry, hfind]
    simp only [bind, Except.bind, hcreate]
    exact ⟨_, _, rfl⟩
  · have hfind : findRoom bits dir name.length = .ok none := by
      rw [findRoom, h.blocksOf_eq]
      exact hscan
    obtain ⟨d, hd⟩ := toDisk_small hsmall
    rw [tuxCreateEntry, hfind]
    simp only [bind, Except.bind, hd, createAt, Function.update_self, isDeleted, zeroDirent,
      decide_true, if_true]
    exact ⟨_, _, rfl⟩

/-- `get_freeatom` changes the free list or the next atom, and fails just when neither has one. -/
theorem Consistent.fresh (h : Consistent bits s xcache ref fl) :
    ∃ atom free gen, getFreeatom s = (atom, { s with freeatom := free, atomgen := gen }) ∧
      (free ≠ s.freeatom ∨ gen ≠ s.atomgen) ∧ (∀ x ∈ xattrsOf xcache, x.atom ≠ atom) ∧
      (atom = noAtom ↔ s.freeatom = 0 ∧ s.atomgen = noAtom) := by
  obtain ⟨hpos, hgen⟩ := h.gen
  have hlinks := h.links
  have hnamed : ∀ x ∈ xattrsOf xcache, x.atom < s.atomgen := fun x hx => by
    obtain ⟨name, v, hv, heq⟩ := h.held x hx
    exact heq ▸ (h.atoms name v hv).2
  cases fl with
  | nil =>
      have hfree : s.freeatom = 0 := hlinks
      refine ⟨s.atomgen, s.freeatom, (s.atomgen + 1) % 2 ^ 32, ?_, Or.inr (by omega),
        fun x hx => (hnamed x hx).ne, fun heq => ⟨hfree, heq⟩, fun hand => hand.2⟩
      rw [getFreeatom]
      dsimp only
      rw [if_pos hfree]
  | cons a rest =>
      obtain ⟨hfree, hne, hdead, hrest⟩ := hlinks
      obtain ⟨⟨-, hlt⟩, hnot⟩ := (h.mem a).mp List.mem_cons_self
      refine ⟨a, s.unatom a % 2 ^ 48 % 2 ^ 32, s.atomgen, ?_, Or.inl ?_, ?_, ?_, ?_⟩
      · rw [getFreeatom]
        dsimp only
        rw [if_neg (hfree ▸ hne), hfree, if_neg (not_not.mpr hdead)]
      · rw [hfree]
        cases rest with
        | nil =>
            have hnext : s.unatom a % 2 ^ 48 % 2 ^ 32 = 0 := hrest
            rw [hnext]
            exact Ne.symm hne
        | cons b rest =>
            rintro heq
            have hab : a = b := heq.symm.trans hrest.1
            exact (List.nodup_cons.mp h.nodup).1 (hab ▸ List.mem_cons_self)
      · rintro x hx rfl
        exact hnot (h.held x hx)
      · intro heq
        unfold noAtom at heq
        omega
      · rintro ⟨hzero, -⟩
        exact absurd (hfree ▸ hzero) hne

theorem Consistent.make (h : Consistent bits s xcache ref fl)
    (hnew : findAtom bits s name = noAtom) :
    ∃ atom s', makeAtom bits s name = some (atom, s') ∧ s' ≠ s ∧
      (∀ x ∈ xattrsOf xcache, x.atom ≠ atom) ∧
      (atom = noAtom ↔ s.freeatom = 0 ∧ s.atomgen = noAtom) := by
  obtain ⟨atom, free, gen, hfree, hchanged, hne, hnone⟩ := h.fresh
  obtain ⟨chain, n, hR⟩ := h.dict
  obtain ⟨dir, offset, hcreate⟩ := tuxCreateEntry_ok hR h.small name atom 0
  refine ⟨atom, { s with
    dict := dir, unatom := Function.update s.unatom atom offset, freeatom := free, atomgen := gen },
    ?_, fun heq => ?_, hne, hnone⟩
  · rw [makeAtom]
    dsimp only
    rw [if_neg (not_not.mpr hnew), hfree]
    dsimp only
    rw [hcreate]
  · rcases hchanged with hchanged | hchanged
    · exact hchanged (congrArg Atable.freeatom heq)
    · exact hchanged (congrArg Atable.atomgen heq)

theorem makeAtom_old (h : findAtom bits s name ≠ noAtom) :
    makeAtom bits s name = some (findAtom bits s name, s) := by
  rw [makeAtom]
  dsimp only
  rw [if_pos h]

/-! ## The failed call -/

theorem keepsState_new (h : Consistent bits s xcache ref fl)
    (hnew : findAtom bits s name = noAtom) :
    KeepsState bits alloc s xcache name data create replace ↔
      (s.freeatom ≠ 0 ∨ s.atomgen ≠ noAtom) ∧ replace = false ∧ Room alloc xcache data := by
  obtain ⟨atom, s₁, hmake, hchanged, hne, hnone⟩ := h.make hnew
  unfold KeepsState setXattrOn
  rw [hmake]
  dsimp only
  by_cases hno : atom = noAtom
  · rw [if_pos hno]
    constructor
    · intro hkeeps
      exact absurd (hkeeps _ _ _ rfl).1 hchanged
    · rintro ⟨havail, -⟩
      obtain ⟨hfree, hgen⟩ := hnone.mp hno
      exact absurd hgen (havail.resolve_left (not_not.mpr hfree))
  · have havail : s.freeatom ≠ 0 ∨ s.atomgen ≠ noAtom := by
      by_contra hand
      exact hno (hnone.mpr (by simpa [not_or] using hand))
    rw [if_neg hno, updateXcache_absent h.cache hne]
    by_cases hreplace : replace = true
    · rw [if_pos hreplace]
      constructor
      · intro hkeeps
        exact absurd (hkeeps _ _ _ rfl).1 hchanged
      · rintro ⟨-, hfalse, -⟩
        exact absurd (hreplace.symm.trans hfalse) Bool.noConfusion
    · rw [if_neg hreplace]
      by_cases hroom : Room alloc xcache data
      · obtain ⟨c, hinsert⟩ := @insertXattr_room 1 atom _ _ _ hroom
        rw [hinsert]
        refine ⟨fun _ => ⟨havail, Bool.eq_false_iff.mpr hreplace, hroom⟩, fun _ s' x' err heq => ?_⟩
        cases heq
      · rw [insertXattr_full hroom]
        constructor
        · intro hkeeps
          exact absurd (hkeeps _ _ _ rfl).1 hchanged
        · rintro ⟨-, -, hroom'⟩
          exact absurd hroom' hroom

theorem keepsState_held {x : Attr} (h : c.WellFormed) (hold : findAtom bits s name ≠ noAtom)
    (hx : xcacheLookup c.xattrs (findAtom bits s name) = some x) :
    KeepsState bits alloc s (some c) name data create replace ↔
      (create = false → Room alloc (some (c.remove x (findAtom bits s name))) data) := by
  unfold KeepsState setXattrOn
  rw [makeAtom_old hold]
  dsimp only
  rw [if_neg hold, updateXcache_held h hx]
  by_cases hcreate : create = true
  · rw [if_pos hcreate]
    constructor
    · intro _ hfalse
      exact absurd (hcreate.symm.trans hfalse) Bool.noConfusion
    · rintro - s' x' err heq
      cases heq
      exact ⟨rfl, rfl⟩
  · rw [if_neg hcreate]
    by_cases hroom : Room alloc (some (c.remove x (findAtom bits s name))) data
    · obtain ⟨c', hinsert⟩ := @insertXattr_room 0 (findAtom bits s name) _ _ _ hroom
      rw [hinsert]
      refine ⟨fun _ _ => hroom, fun _ s' x' err heq => ?_⟩
      cases heq
    · rw [insertXattr_full hroom]
      constructor
      · intro hkeeps
        -- the attribute is gone, and nothing stands for it
        have hsame := congrArg xattrsOf (hkeeps _ _ _ rfl).2
        rw [xattrsOf, xattrsOf, Option.elim_some, Option.elim_some, (h.remove hx).2] at hsame
        have hmem : x ∈ others c.xattrs (findAtom bits s name) := by
          rw [hsame]
          exact List.mem_of_find?_eq_some hx
        exact absurd (lookup_atom hx) (others_ne x hmem)
      · intro hall
        exact absurd (hall (Bool.eq_false_iff.mpr hcreate)) hroom

theorem keepsState_absent (h : ∀ c, xcache = some c → c.WellFormed)
    (hold : findAtom bits s name ≠ noAtom)
    (hne : ∀ x ∈ xattrsOf xcache, x.atom ≠ findAtom bits s name) :
    KeepsState bits alloc s xcache name data create replace := by
  intro s' xcache' err heq
  rw [setXattrOn, makeAtom_old hold] at heq
  dsimp only at heq
  rw [if_neg hold, updateXcache_absent h hne] at heq
  by_cases hreplace : replace = true
  · rw [if_pos hreplace] at heq
    cases heq
    exact ⟨rfl, rfl⟩
  · rw [if_neg hreplace] at heq
    by_cases hroom : Room alloc xcache data
    · obtain ⟨c, hinsert⟩ := @insertXattr_room 1 (findAtom bits s name) _ _ _ hroom
      rw [hinsert] at heq
      cases heq
    · rw [insertXattr_full hroom] at heq
      cases heq
      exact ⟨rfl, rfl⟩

/-- `set_xattr` leaves everything as it was when it fails, just when it cannot fail after its first
change. -/
theorem setXattrOn_keepsState (h : Consistent bits s xcache ref fl) (alloc : Bool)
    (name data : List UInt8) (create replace : Bool) :
    KeepsState bits alloc s xcache name data create replace ↔
      FailsClean bits alloc s xcache name data create replace := by
  unfold FailsClean
  dsimp only
  by_cases hnew : findAtom bits s name = noAtom
  · rw [if_pos hnew]
    exact keepsState_new h hnew
  · rw [if_neg hnew]
    by_cases hex : ∃ x ∈ xattrsOf xcache, x.atom = findAtom bits s name
    · obtain ⟨c, rfl⟩ : ∃ c, xcache = some c := by
        cases xcache with
        | none => exact (nomatch hex.choose_spec.1)
        | some c => exact ⟨c, rfl⟩
      obtain ⟨x, hx⟩ := Option.isSome_iff_exists.mp ((lookup_isSome c.xattrs _).mpr hex)
      rw [keepsState_held (h.cache c rfl) hnew hx]
      constructor
      · intro hroom c' x' hc hx'
        cases hc
        rw [hx] at hx'
        cases hx'
        exact hroom
      · exact fun hall => hall c x rfl hx
    · have hne : ∀ x ∈ xattrsOf xcache, x.atom ≠ findAtom bits s name :=
        fun x hx hxa => hex ⟨x, hx, hxa⟩
      refine iff_of_true (keepsState_absent h.cache hnew hne) ?_
      rintro c x rfl hx
      exact absurd (lookup_atom hx) (hne x (List.mem_of_find?_eq_some hx))

/-! ## The other models -/

theorem Names.consistent (h : Names bits N s val ref fl) (hsmall : 2 ^ bits ≤ 65536)
    (hcache : ∀ c, xcache = some c → c.WellFormed) (hx : xattrsOf xcache = s.xcache inode) :
    Consistent bits s xcache ref fl := by
  obtain ⟨chain, n, hR, -⟩ := h.dict
  obtain ⟨hpos, hgen⟩ := h.gen
  exact ⟨⟨chain, n, hR⟩, hsmall, h.atoms, ⟨hpos, by omega⟩, h.links, h.nodup, h.mem, hcache,
    fun x hmem => h.held inode x (hx ▸ hmem)⟩

theorem useAtom_xcache (xcaches : ℕ → List Attr) (u : ℤ) :
    useAtom bits { s with xcache := xcaches } atom u =
      { useAtom bits s atom u with xcache := xcaches } := by
  unfold useAtom killAtom
  dsimp only
  split
  · split
    · split
      · split <;> rfl
      · rfl
    · rfl
  · rfl

theorem makeAtom_xcache (h : makeAtom bits s name = some (atom, s')) : s'.xcache = s.xcache := by
  unfold makeAtom at h
  dsimp only at h
  split at h
  · cases h
    rfl
  · have hfree : (getFreeatom s).2.xcache = s.xcache := by
      unfold getFreeatom
      dsimp only
      split
      · rfl
      · split <;> rfl
    split at h
    · cases h
    · cases h
      exact hfree
    · cases h
      exact hfree

/-- `xcache_update` of the lists of attributes, when the bytes are a list again. -/
theorem updateXcache_eq (h : ∀ c, xcache = some c → c.WellFormed)
    (hx : s.xcache inode = xattrsOf xcache) {r : Except Errno Atable}
    (hupdate : xcacheUpdate bits s inode atom data create replace = some r) :
    match r with
    | .error err => updateXcache true xcache atom data create replace = some (xcache, .error err)
    | .ok s' => ∃ xcache' use,
        updateXcache true xcache atom data create replace = some (xcache', .ok use) ∧
        s' = { (if use = 0 then s else useAtom bits s atom use) with
          xcache := Function.update s.xcache inode (xattrsOf xcache') } := by
  unfold xcacheUpdate at hupdate
  dsimp only at hupdate
  rw [hx] at hupdate
  by_cases hex : ∃ x ∈ xattrsOf xcache, x.atom = atom
  · have hsome := (lookup_isSome (xattrsOf xcache) atom).mpr hex
    obtain ⟨c, rfl⟩ : ∃ c, xcache = some c := by
      cases xcache with
      | none => exact (nomatch hex.choose_spec.1)
      | some c => exact ⟨c, rfl⟩
    have hwf := h c rfl
    obtain ⟨x, hfind⟩ := Option.isSome_iff_exists.mp ((lookup_isSome c.xattrs atom).mpr hex)
    rw [updateXcache_held hwf hfind]
    rw [hsome, Bool.not_true, Bool.false_and, Bool.true_and, if_neg Bool.false_ne_true] at hupdate
    by_cases hcreate : create = true
    · rw [if_pos hcreate] at hupdate ⊢
      cases hupdate
      rfl
    · rw [if_neg hcreate] at hupdate ⊢
      split at hupdate
      · cases hupdate
      · cases hupdate
        obtain ⟨c', hinsert⟩ :=
          @insertXattr_room 0 atom (some (c.remove x atom)) data true (Or.inl rfl)
        obtain ⟨c'', hc, hxattrs, -⟩ := insertXattr_ok hinsert
        cases hc
        refine ⟨some c', 0, congrArg some hinsert, ?_⟩
        have heq : xattrsOf (some c') = removeOld c.xattrs atom ++ _ := hxattrs
        rw [heq]
        rfl
  · have hne : ∀ x ∈ xattrsOf xcache, x.atom ≠ atom := fun x hx hxa => hex ⟨x, hx, hxa⟩
    have hnone : (xcacheLookup (xattrsOf xcache) atom).isSome = false := by
      rw [Bool.eq_false_iff]
      exact fun hsome => hex ((lookup_isSome _ _).mp hsome)
    rw [updateXcache_absent h hne]
    rw [hnone, Bool.not_false, Bool.true_and, Bool.false_and] at hupdate
    by_cases hreplace : replace = true
    · rw [if_pos hreplace] at hupdate ⊢
      cases hupdate
      rfl
    · rw [if_neg hreplace, if_neg Bool.false_ne_true] at hupdate
      rw [if_neg hreplace]
      split at hupdate
      · cases hupdate
      · cases hupdate
        obtain ⟨c', hinsert⟩ := @insertXattr_room 1 atom xcache data true (Or.inl rfl)
        obtain ⟨c'', hc, hxattrs, -⟩ := insertXattr_ok hinsert
        cases hc
        refine ⟨some c', 1, congrArg some hinsert, ?_⟩
        have heq : xattrsOf (some c') = xattrsOf xcache ++ _ := hxattrs
        rw [if_neg Bool.false_ne_true, if_neg Nat.one_ne_zero, useAtom_xcache, removeOld_absent hne,
          heq]
        rfl

/-- `set_xattr` of the lists of attributes is this one with memory for the cache. -/
theorem setXattrOn_eq (h : ∀ c, xcache = some c → c.WellFormed)
    (hx : s.xcache inode = xattrsOf xcache) {err : Option Errno}
    (hset : setXattr bits s inode name data create replace = some (s', err)) :
    ∃ t xcache', setXattrOn bits true s xcache name data create replace = some ((t, xcache'), err) ∧
      s' = { t with xcache := Function.update s.xcache inode (xattrsOf xcache') } := by
  unfold setXattr at hset
  unfold setXattrOn
  cases hmake : makeAtom bits s name with
  | none =>
      rw [hmake] at hset
      cases hset
  | some made =>
      obtain ⟨atom, s₁⟩ := made
      have hsame := makeAtom_xcache hmake
      have hself : Function.update s.xcache inode (xattrsOf xcache) = s₁.xcache := by
        rw [← hx, Function.update_eq_self, hsame]
      rw [hmake] at hset
      dsimp only at hset ⊢
      split at hset
      · next hno =>
          cases hset
          rw [if_pos hno]
          exact ⟨_, xcache, rfl, by rw [hself]⟩
      · next hno =>
          rw [if_neg hno]
          split at hset
          · cases hset
          · next err' hupdate =>
              cases hset
              have heq := updateXcache_eq h ((congrFun hsame inode).trans hx) hupdate
              dsimp only at heq
              rw [heq]
              exact ⟨_, xcache, rfl, by rw [hself]⟩
          · next s₂ hupdate =>
              cases hset
              obtain ⟨xcache', use, heq, rfl⟩ :=
                updateXcache_eq h ((congrFun hsame inode).trans hx) hupdate
              rw [heq, ← hsame]
              exact ⟨_, xcache', rfl, rfl⟩

end

section
variable (block : ℕ → Block) (unatom : ℕ → ℕ)

theorem emptyAtable_consistent : Consistent 8 (emptyAtable block unatom) none (fun _ => none) [] :=
  (names_start (N := 1) block unatom).consistent (by decide) (fun _ h => nomatch h)
    (show _ = (emptyAtable block unatom).xcache 0 from rfl)

end

/-- `XATTR_CREATE` of an attribute that the inode has leaves everything as it was, and the first
attribute of an inode without memory for a cache does not. -/
theorem setXattrOn_keepsState_held : (∃ s c,
      setXattr 9 (emptyAtable (fun _ _ => zeroDirent) fun _ => 0) 0 [97] [7] false false =
        some (s, none) ∧ s.xcache 0 = c.xattrs ∧
      setXattrOn 9 true s (some c) [97] [8] true false = some ((s, some c), some .eexist) ∧
      KeepsState 9 true s (some c) [97] [8] true false) ∧
    ¬ KeepsState 8 false (emptyAtable (fun _ _ => zeroDirent) fun _ => 0) none [97] [7] false
      false := by
  constructor
  · obtain ⟨s, hset, hx, hfound, hagain⟩ : ∃ s,
        setXattr 9 (emptyAtable (fun _ _ => zeroDirent) fun _ => 0) 0 [97] [7] false false =
          some (s, none) ∧ s.xcache 0 = [⟨1, [7]⟩] ∧ findAtom 9 s [97] ≠ noAtom ∧
        setXattrOn 9 true s (some ⟨9, 9, [⟨1, [7]⟩]⟩) [97] [8] true false =
          some ((s, some ⟨9, 9, [⟨1, [7]⟩]⟩), some .eexist) := ⟨_, rfl, rfl, by decide, rfl⟩
    have hrun : Run 9 1 (Fits 9) _ _ := Run.set (Run.start (fun _ _ => zeroDirent) fun _ => 0)
      Nat.one_pos (by decide) (by decide) (by decide) (Or.inr (Or.inr (by decide))) (by decide) hset
    obtain ⟨ref, fl, hnames, -⟩ := run_inv hrun
    have hcache : ∀ c, some (⟨9, 9, [⟨1, [7]⟩]⟩ : Xcache) = some c → c.WellFormed := by
      rintro c ⟨⟩
      constructor <;> decide
    have hconsistent := hnames.consistent (by decide) hcache
      (show xattrsOf (some ⟨9, 9, [⟨1, [7]⟩]⟩) = s.xcache 0 from hx.symm)
    refine ⟨s, ⟨9, 9, [⟨1, [7]⟩]⟩, hset, hx, hagain, (setXattrOn_keepsState hconsistent _ _ _ _ _).mpr ?_⟩
    unfold FailsClean
    dsimp only
    rw [if_neg hfound]
    exact fun _ _ _ _ hcreate => Bool.noConfusion hcreate
  · rw [setXattrOn_keepsState (emptyAtable_consistent _ _)]
    rintro ⟨-, -, hroom⟩
    exact absurd hroom (by decide)

/-- `XATTR_REPLACE` of a name that nobody has leaves an atom for it. -/
theorem replace_leaves_atom : ∃ s', setXattrOn 8 true
    (emptyAtable (fun _ _ => zeroDirent) fun _ => 0) none [97] [7] false true =
      some ((s', none), some .enoattr) ∧ s'.atomgen = 2 ∧
    ¬ KeepsState 8 true (emptyAtable (fun _ _ => zeroDirent) fun _ => 0) none [97] [7] false
      true := by
  refine ⟨_, rfl, rfl, fun hkeeps => ?_⟩
  have hgen := congrArg Atable.atomgen (hkeeps _ _ _ rfl).1
  exact absurd hgen (by decide)

end Tux3.Xattr
