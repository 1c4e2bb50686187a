import Tux3.XattrTable

/-!
# The attribute cache in 16 bits

`xcache_lookup` and `xcache_update` with the fields of `struct xcache`. A pointer into a cache is an
offset from its start; the attributes are those that stand in the memory from `xattrs` on, and
`size` says where the list ends.
-/
namespace Tux3.Xattr

/-- `struct xcache`; `size` and `maxsize` are `u16`. -/
structure Xcache where
  size : ℕ
  maxsize : ℕ
  xattrs : List Attr
  deriving DecidableEq, Repr

def sizeofXattr : ℕ := 4
def sizeofXcache : ℕ := 4

/-- The offset of `xcache_next` from an attribute. -/
def Attr.size (xattr : Attr) : ℕ := sizeofXattr + xattr.body.length

/-! ## Lookup -/

/-- The loop of `xcache_lookup`; `none` is the failed assertion. -/
def lookupFrom (limit atom : ℕ) : ℕ → List Attr → Option (Except Errno Attr)
  | at', [] => if at' = limit then some (.error .enoattr) else none
  | at', xattr :: xattrs =>
      if at' < limit then
        if xattr.atom = atom then some (.ok xattr)
        else if limit < at' + xattr.size then some (.error .einval)
        else lookupFrom limit atom (at' + xattr.size) xattrs
      else if at' = limit then some (.error .enoattr)
      else none

/-- `xcache_lookup`. -/
def lookupXcache (xcache : Option Xcache) (atom : ℕ) : Option (Except Errno Attr) :=
  match xcache with
  | none => some (.error .enoattr)
  | some xcache => lookupFrom xcache.size atom sizeofXcache xcache.xattrs

/-- The attributes up to the limit; `none` if it is not the end of one. -/
def entriesFrom (limit : ℕ) : ℕ → List Attr → Option (List Attr)
  | at', [] => if at' = limit then some [] else none
  | at', xattr :: xattrs =>
      if at' < limit then (entriesFrom limit (at' + xattr.size) xattrs).map (xattr :: ·)
      else if at' = limit then some []
      else none

def Xcache.entries (xcache : Xcache) : Option (List Attr) :=
  entriesFrom xcache.size sizeofXcache xcache.xattrs

/-! ## Update -/

/-- `new_xcache` of a size that fits in 32 bits. -/
def newXcache (maxsize : ℕ) : Xcache := ⟨sizeofXcache, maxsize % 2 ^ 16, []⟩

/-- The condition for a new cache, and its size. -/
def needsXcache (xcache : Option Xcache) (more : ℕ) : Option ℕ :=
  match xcache with
  | none => some (u32 (sizeofXcache + max more (1 <<< 7)))
  | some xcache =>
      if xcache.maxsize < u32 (xcache.size + more) then
        some (u32 (xcache.size + max more xcache.maxsize))
      else none

/-- The cache with room for more; `none` when the allocation fails. -/
def growXcache (alloc : Bool) (xcache : Option Xcache) (more : ℕ) : Option Xcache :=
  match needsXcache xcache more with
  | none => xcache
  | some newsize =>
      if alloc then
        match xcache with
        | none => some (newXcache newsize)
        | some xcache =>
            some { newXcache newsize with size := xcache.size, xattrs := xcache.xattrs }
      else none

/-- `xcache_update` from `Insert new` on: the cache left behind, and the count for `use_atom`. -/
def insertXattr (alloc : Bool) (xcache : Option Xcache) (atom : ℕ) (data : List UInt8) (use : ℕ) :
    Option Xcache × Except Errno ℕ :=
  let more := u32 (sizeofXattr + data.length)
  match growXcache alloc xcache more with
  | none => (xcache, .error .enomem)
  | some c =>
      (some { c with
        size := (c.size + more) % 2 ^ 16
        xattrs := c.xattrs ++ [⟨atom % 2 ^ 16, data.take (data.length % 2 ^ 16)⟩] }, .ok use)

/-- `remove_old` of the attribute that was found. -/
def Xcache.remove (xcache : Xcache) (xattr : Attr) (atom : ℕ) : Xcache :=
  { xcache with size := xcache.size - xattr.size, xattrs := removeOld xcache.xattrs atom }

/-- `xcache_update`; `none` is a failed assertion. -/
def updateXcache (alloc : Bool) (xcache : Option Xcache) (atom : ℕ) (data : List UInt8)
    (create replace : Bool) : Option (Option Xcache × Except Errno ℕ) :=
  match lookupXcache xcache atom with
  | none => none
  | some (.error err) =>
      if err ≠ .enoattr ∨ replace = true then some (xcache, .error err)
      else some (insertXattr alloc xcache atom data 1)
  | some (.ok xattr) =>
      if create then some (xcache, .error .eexist)
      else some (insertXattr alloc (xcache.map (·.remove xattr atom)) atom data 0)

/-- A cache whose size counts its attributes and fits its 16 bits, each atom once. -/
structure Xcache.WellFormed (xcache : Xcache) : Prop where
  size : xcache.size = xcacheSize xcache.xattrs
  small : xcache.size < 2 ^ 16
  atoms : ∀ x ∈ xcache.xattrs, x.atom < 2 ^ 16
  distinct : (xcache.xattrs.map Attr.atom).Nodup

/-- The attributes of an inode, which may have no cache yet. -/
def xattrsOf (xcache : Option Xcache) : List Attr := xcache.elim [] Xcache.xattrs

/-- The attributes of other atoms. -/
def others (xattrs : List Attr) (atom : ℕ) : List Attr := xattrs.filter fun x => x.atom ≠ atom

/-- After the update, the atom has the data, the other attributes are as before, and the attributes
end at the limit. -/
def Stored (xcache xcache' : Option Xcache) (atom : ℕ) (data : List UInt8) : Prop :=
  lookupXcache xcache' atom = some (.ok ⟨atom, data⟩) ∧
    ∃ c xattrs, xcache' = some c ∧ c.entries = some xattrs ∧
      others xattrs atom = others (xattrsOf xcache) atom

section
variable {xcache xcache' : Option Xcache} {c : Xcache} {xattrs ys : List Attr} {x : Attr}
  {atom limit at' use : ℕ} {data : List UInt8} {alloc create replace : Bool}

/-! ## Walks -/

/-- The bytes of attributes. -/
def sizes (xattrs : List Attr) : ℕ := (xattrs.map Attr.size).sum

theorem xcacheSize_eq (xattrs : List Attr) : xcacheSize xattrs = sizeofXcache + sizes xattrs := rfl

theorem sizes_cons : sizes (x :: xattrs) = x.size + sizes xattrs := by
  rw [sizes, List.map_cons, List.sum_cons, sizes]

theorem sizes_append : sizes (xattrs ++ ys) = sizes xattrs + sizes ys := by
  rw [sizes, List.map_append, List.sum_append, sizes, sizes]

theorem size_pos (x : Attr) : 4 ≤ x.size := Nat.le_add_right _ _

theorem lookupFrom_append (hne : ∀ x ∈ xattrs, x.atom ≠ atom) (hle : at' + sizes xattrs ≤ limit) :
    lookupFrom limit atom at' (xattrs ++ ys) = lookupFrom limit atom (at' + sizes xattrs) ys := by
  induction xattrs generalizing at' with
  | nil => rfl
  | cons x xattrs ih =>
      have hpos := size_pos x
      rw [sizes_cons] at hle ⊢
      rw [List.cons_append, lookupFrom, if_pos (by omega), if_neg (hne x List.mem_cons_self),
        if_neg (by omega), ih (fun y hy => hne y (List.mem_cons_of_mem x hy)) (by omega),
        Nat.add_assoc]

/-- An attribute behind the limit is not found. -/
theorem lookupFrom_beyond (hne : ∀ x ∈ xattrs, x.atom ≠ atom) (hlt : limit ≤ at' + sizes xattrs)
    (y : Attr) : lookupFrom limit atom at' (xattrs ++ ys) ≠ some (.ok y) := by
  induction xattrs generalizing at' with
  | nil =>
      have hlt : ¬ at' < limit := Nat.not_lt.mpr hlt
      cases ys with
      | nil =>
          rw [List.append_nil, lookupFrom]
          split <;> exact fun h => nomatch h
      | cons z ys =>
          rw [List.nil_append, lookupFrom, if_neg hlt]
          split <;> exact fun h => nomatch h
  | cons x xattrs ih =>
      rw [sizes_cons] at hlt
      rw [List.cons_append, lookupFrom]
      split
      · rw [if_neg (hne x List.mem_cons_self)]
        split
        · exact fun h => nomatch h
        · exact ih (fun z hz => hne z (List.mem_cons_of_mem x hz)) (by omega)
      · split <;> exact fun h => nomatch h

theorem entriesFrom_append (hle : at' + sizes xattrs ≤ limit) :
    entriesFrom limit at' (xattrs ++ ys) =
      (entriesFrom limit (at' + sizes xattrs) ys).map (xattrs ++ ·) := by
  induction xattrs generalizing at' with
  | nil =>
      rw [List.nil_append, sizes, List.map_nil, List.sum_nil, Nat.add_zero]
      exact (Option.map_id' (x := entriesFrom limit at' ys)).symm
  | cons x xattrs ih =>
      have hpos := size_pos x
      rw [sizes_cons] at hle ⊢
      rw [List.cons_append, entriesFrom, if_pos (by omega), ih (by omega), Option.map_map,
        Nat.add_assoc]
      rfl

theorem entriesFrom_all (h : limit = at' + sizes xattrs) :
    entriesFrom limit at' xattrs = some xattrs := by
  have happend := @entriesFrom_append xattrs [] limit at' (Nat.le_of_eq h.symm)
  rw [List.append_nil, entriesFrom, if_pos h.symm] at happend
  rw [happend, Option.map_some, List.append_nil]

/-! ## Lookup in a well-formed cache -/

theorem lookup_atom (h : xcacheLookup xattrs atom = some x) : x.atom = atom := by
  simpa using List.find?_some h

theorem Xcache.WellFormed.entries (h : c.WellFormed) : c.entries = some c.xattrs :=
  entriesFrom_all h.size

theorem Xcache.WellFormed.lookup (h : c.WellFormed) (atom : ℕ) :
    lookupXcache (some c) atom = some (match xcacheLookup c.xattrs atom with
      | some x => .ok x
      | none => .error .enoattr) := by
  have hsize := h.size
  rw [xcacheSize_eq] at hsize
  rw [lookupXcache, xcacheLookup]
  by_cases hex : ∃ x ∈ c.xattrs, x.atom = atom
  · obtain ⟨x, l, r, hx, hsplit, hbefore⟩ : ∃ x l r, x.atom = atom ∧ c.xattrs = l ++ x :: r ∧
        ∀ y ∈ l, y.atom ≠ atom := by
      obtain ⟨x, hx, hxa⟩ := hex
      obtain ⟨x, hfound⟩ := Option.isSome_iff_exists.mp ((lookup_isSome _ _).mpr ⟨x, hx, hxa⟩)
      obtain ⟨hxa, l, r, hsplit, hbefore⟩ := List.find?_eq_some_iff_append.mp hfound
      refine ⟨x, l, r, of_decide_eq_true hxa, hsplit, fun y hy => ?_⟩
      simpa using hbefore y hy
    have hpos := size_pos x
    rw [hsplit, sizes_append, sizes_cons] at hsize
    have hfind : (c.xattrs.find? fun x => x.atom = atom) = some x := by
      rw [hsplit]
      refine List.find?_eq_some_iff_append.mpr ⟨decide_eq_true hx, l, r, rfl, fun y hy => ?_⟩
      simpa using hbefore y hy
    rw [hfind, hsplit, lookupFrom_append hbefore (by omega), lookupFrom, if_pos (by omega),
      if_pos hx]
  · have hnone : ∀ x ∈ c.xattrs, x.atom ≠ atom := fun x hx hxa => hex ⟨x, hx, hxa⟩
    have happend := @lookupFrom_append c.xattrs [] atom c.size sizeofXcache hnone
      (Nat.le_of_eq hsize.symm)
    rw [List.append_nil, lookupFrom, if_pos hsize.symm] at happend
    rw [happend, List.find?_eq_none.mpr fun x hx => by simpa using hnone x hx]

theorem removeOld_others (h : (xattrs.map Attr.atom).Nodup) : removeOld xattrs atom =
    others xattrs atom := by
  unfold removeOld others
  induction xattrs with
  | nil => rfl
  | cons y xattrs ih =>
      rw [List.map_cons, List.nodup_cons] at h
      by_cases hy : y.atom = atom
      · rw [List.eraseP_cons_of_pos (by simpa using hy),
          List.filter_cons_of_neg (by simpa using hy)]
        refine (List.filter_eq_self.mpr fun z hz => ?_).symm
        have hne : z.atom ≠ atom := fun heq => h.1 (List.mem_map.mpr ⟨z, hz, heq.trans hy.symm⟩)
        simpa using hne
      · rw [List.eraseP_cons_of_neg (by simpa using hy),
          List.filter_cons_of_pos (by simpa using hy), ih h.2]

theorem sizes_others (h : (xattrs.map Attr.atom).Nodup) (hx : xcacheLookup xattrs atom = some x) :
    sizes xattrs = x.size + sizes (others xattrs atom) := by
  rw [← removeOld_others h]
  obtain ⟨hxa, l, r, hsplit, hbefore⟩ := List.find?_eq_some_iff_append.mp hx
  have hbefore' : ∀ b ∈ l, ¬ decide (b.atom = atom) = true := fun b hb => by
    simpa using hbefore b hb
  rw [removeOld, hsplit, List.eraseP_append_right _ hbefore',
    List.eraseP_cons_of_pos (by simpa using hxa),
    sizes_append, sizes_append, sizes_cons]
  omega

theorem Xcache.WellFormed.remove (h : c.WellFormed) (hx : xcacheLookup c.xattrs atom = some x) :
    (c.remove x atom).WellFormed ∧ (c.remove x atom).xattrs = others c.xattrs atom := by
  have hsizes := sizes_others h.distinct hx
  have hothers := @removeOld_others c.xattrs atom h.distinct
  have hsize := h.size
  have hsmall := h.small
  rw [xcacheSize_eq] at hsize
  refine ⟨⟨?_, ?_, fun y hy => ?_, ?_⟩, hothers⟩
  · rw [Xcache.remove, hothers, xcacheSize_eq]
    dsimp only
    omega
  · exact Nat.lt_of_le_of_lt (Nat.sub_le _ _) hsmall
  · exact h.atoms y (List.mem_of_mem_eraseP hy)
  · exact h.distinct.sublist (List.eraseP_sublist.map _)

/-! ## The new attribute -/

/-- A cache that has room holds the attributes it had. -/
theorem growXcache_some {more : ℕ} (h : growXcache alloc xcache more = some c) :
    c.xattrs = xattrsOf xcache ∧ c.size = xcache.elim sizeofXcache Xcache.size := by
  unfold growXcache at h
  cases hneeds : needsXcache xcache more with
  | none =>
      rw [hneeds] at h
      dsimp only at h
      subst h
      exact ⟨rfl, rfl⟩
  | some newsize =>
      rw [hneeds] at h
      dsimp only at h
      split at h
      · cases xcache with
        | none =>
            cases h
            exact ⟨rfl, rfl⟩
        | some old =>
            cases h
            exact ⟨rfl, rfl⟩
      · cases h

theorem insertXattr_ok {u : ℕ} (h : insertXattr alloc xcache atom data use = (xcache', .ok u)) :
    ∃ c, xcache' = some c ∧
      c.xattrs = xattrsOf xcache ++ [⟨atom % 2 ^ 16, data.take (data.length % 2 ^ 16)⟩] ∧
      c.size =
        (xcache.elim sizeofXcache Xcache.size + u32 (sizeofXattr + data.length)) % 2 ^ 16 := by
  unfold insertXattr at h
  dsimp only at h
  cases hgrow : growXcache alloc xcache (u32 (sizeofXattr + data.length)) with
  | none =>
      rw [hgrow] at h
      cases h
  | some c =>
      obtain ⟨hxattrs, hsize⟩ := growXcache_some hgrow
      rw [hgrow] at h
      cases h
      exact ⟨_, rfl, by rw [← hxattrs], by rw [← hsize]⟩

/-- The new attribute at the end of attributes of other atoms is found, and ends at the limit, just
when nothing was cut. -/
theorem stored_append (hne : ∀ x ∈ xattrs, x.atom ≠ atom)
    (hxattrs : c.xattrs = xattrs ++ [⟨atom % 2 ^ 16, data.take (data.length % 2 ^ 16)⟩])
    (hsize : c.size = (xcacheSize xattrs + u32 (sizeofXattr + data.length)) % 2 ^ 16) :
    (lookupXcache (some c) atom = some (.ok ⟨atom, data⟩) ∧ ∃ ys, c.entries = some ys ∧
        others ys atom = xattrs) ↔
      atom < 2 ^ 16 ∧ xcacheSize xattrs + (4 + data.length) < 2 ^ 16 := by
  have hothers : others xattrs atom = xattrs :=
    List.filter_eq_self.mpr fun x hx => by simpa using hne x hx
  rw [xcacheSize_eq] at hsize ⊢
  rw [lookupXcache, Xcache.entries, hxattrs]
  constructor
  · rintro ⟨hlookup, ys, hys, -⟩
    have hlt : sizeofXcache + sizes xattrs < c.size := by
      by_contra hge
      exact lookupFrom_beyond hne (Nat.le_of_not_lt hge) _ hlookup
    rw [lookupFrom_append hne (Nat.le_of_lt hlt), lookupFrom, if_pos hlt] at hlookup
    rw [entriesFrom_append (Nat.le_of_lt hlt), entriesFrom, if_pos hlt, entriesFrom] at hys
    split at hlookup
    · have hnew := Except.ok.inj (Option.some.inj hlookup)
      have hatom : atom % 2 ^ 16 = atom := congrArg Attr.atom hnew
      have hbody : data.take (data.length % 2 ^ 16) = data := congrArg Attr.body hnew
      have hlen : data.length % 2 ^ 16 = data.length :=
        Nat.le_antisymm (Nat.mod_le _ _) (List.take_eq_self_iff _ |>.mp hbody)
      split at hys
      · next hend =>
          rw [Attr.size, hbody] at hend
          dsimp only [sizeofXattr] at hend
          omega
      · cases hys
    · split at hlookup
      · cases hlookup
      · rw [lookupFrom] at hlookup
        split at hlookup <;> cases hlookup
  · rintro ⟨hatom, hfit⟩
    have hnew : (⟨atom % 2 ^ 16, data.take (data.length % 2 ^ 16)⟩ : Attr) = ⟨atom, data⟩ := by
      rw [Nat.mod_eq_of_lt hatom, Nat.mod_eq_of_lt (by omega), List.take_length]
    have hlimit : c.size = sizeofXcache + sizes xattrs + (4 + data.length) := by
      rw [hsize, u32, sizeofXattr, Nat.mod_eq_of_lt (show 4 + data.length < 2 ^ 32 by omega),
        Nat.mod_eq_of_lt hfit]
    rw [hnew]
    refine ⟨?_, xattrs ++ [⟨atom, data⟩], entriesFrom_all ?_, ?_⟩
    · rw [lookupFrom_append hne (by omega), lookupFrom, if_pos (by omega), if_pos rfl]
    · rw [sizes_append, sizes_cons, hlimit]
      exact Nat.add_assoc _ _ _
    · rw [others, List.filter_append]
      rw [others] at hothers
      rw [hothers, List.filter_cons_of_neg (by simp), List.filter_nil, List.append_nil]

/-! ## An update -/

theorem others_ne (x : Attr) (hx : x ∈ others xattrs atom) : x.atom ≠ atom := by
  simpa using (List.mem_filter.mp hx).2

theorem others_self (hne : ∀ x ∈ xattrs, x.atom ≠ atom) : others xattrs atom = xattrs :=
  List.filter_eq_self.mpr fun x hx => by simpa using hne x hx

theorem updateXcache_absent (h : ∀ c, xcache = some c → c.WellFormed)
    (hne : ∀ x ∈ xattrsOf xcache, x.atom ≠ atom) :
    updateXcache alloc xcache atom data create replace = some (if replace = true
      then (xcache, .error .enoattr) else insertXattr alloc xcache atom data 1) := by
  have hlookup : lookupXcache xcache atom = some (.error .enoattr) := by
    cases xcache with
    | none => rfl
    | some c =>
        have hnone : xcacheLookup c.xattrs atom = none :=
          List.find?_eq_none.mpr fun x hx => by simpa using hne x hx
        rw [(h c rfl).lookup atom, hnone]
  rw [updateXcache, hlookup]
  dsimp only
  by_cases hreplace : replace = true
  · rw [if_pos (Or.inr hreplace), if_pos hreplace]
  · rw [if_neg (by simpa using hreplace), if_neg hreplace]

theorem updateXcache_held (h : c.WellFormed) (hx : xcacheLookup c.xattrs atom = some x) :
    updateXcache alloc (some c) atom data create replace = some (if create = true
      then (some c, .error .eexist)
      else insertXattr alloc (some (c.remove x atom)) atom data 0) := by
  rw [updateXcache, h.lookup atom, hx]
  dsimp only [Option.map_some]
  split <;> rfl

/-- The cache an update leaves: the other attributes, and the new one behind them. -/
theorem updateXcache_ok (h : ∀ c, xcache = some c → c.WellFormed)
    (hupdate : updateXcache alloc xcache atom data create replace = some (xcache', .ok use)) :
    ∃ c, xcache' = some c ∧
      c.xattrs = others (xattrsOf xcache) atom ++
        [⟨atom % 2 ^ 16, data.take (data.length % 2 ^ 16)⟩] ∧
      c.size = (xcacheSize (others (xattrsOf xcache) atom) +
        u32 (sizeofXattr + data.length)) % 2 ^ 16 := by
  by_cases hex : ∃ x ∈ xattrsOf xcache, x.atom = atom
  · obtain ⟨c, rfl⟩ : ∃ c, xcache = some c := by
      cases xcache with
      | none => exact (nomatch hex.choose_spec.1)
      | some c => exact ⟨c, rfl⟩
    have hwf := h c rfl
    obtain ⟨x, hx⟩ := Option.isSome_iff_exists.mp ((lookup_isSome c.xattrs atom).mpr hex)
    obtain ⟨hremoved, hothers⟩ := hwf.remove hx
    rw [updateXcache_held hwf hx] at hupdate
    split at hupdate
    · cases hupdate
    · obtain ⟨c', rfl, hxattrs, hsize⟩ := insertXattr_ok (Option.some.inj hupdate)
      rw [xattrsOf, Option.elim_some, hothers] at hxattrs
      rw [Option.elim_some, hremoved.size, hothers] at hsize
      exact ⟨c', rfl, hxattrs, hsize⟩
  · have hne : ∀ x ∈ xattrsOf xcache, x.atom ≠ atom := fun x hx hxa => hex ⟨x, hx, hxa⟩
    rw [updateXcache_absent h hne] at hupdate
    split at hupdate
    · cases hupdate
    · obtain ⟨c', rfl, hxattrs, hsize⟩ := insertXattr_ok (Option.some.inj hupdate)
      rw [others_self hne]
      refine ⟨c', rfl, hxattrs, hsize.trans ?_⟩
      cases xcache with
      | none => rfl
      | some c => rw [Option.elim_some, (h c rfl).size, xattrsOf, Option.elim_some]

/-- An update that succeeds stores the value just when the atom and the bytes of the cache fit in
16 bits. -/
theorem updateXcache_stored (h : ∀ c, xcache = some c → c.WellFormed)
    (hupdate : updateXcache alloc xcache atom data create replace = some (xcache', .ok use)) :
    Stored xcache xcache' atom data ↔ atom < 2 ^ 16 ∧
      xcacheSize (others (xattrsOf xcache) atom) + (4 + data.length) < 2 ^ 16 := by
  obtain ⟨c, rfl, hxattrs, hsize⟩ := updateXcache_ok h hupdate
  rw [← stored_append others_ne hxattrs hsize]
  constructor
  · rintro ⟨hlookup, c', ys, hc, hys, hothers⟩
    cases hc
    exact ⟨hlookup, ys, hys, hothers⟩
  · rintro ⟨hlookup, ys, hys, hothers⟩
    exact ⟨hlookup, c, ys, rfl, hys, hothers⟩

/-- The cache of an update that stored its value is well formed again. -/
theorem updateXcache_wellFormed (h : ∀ c, xcache = some c → c.WellFormed)
    (hupdate : updateXcache alloc xcache atom data create replace = some (xcache', .ok use))
    (hatom : atom < 2 ^ 16)
    (hfit : xcacheSize (others (xattrsOf xcache) atom) + (4 + data.length) < 2 ^ 16) :
    ∃ c, xcache' = some c ∧ c.WellFormed := by
  obtain ⟨c, rfl, hxattrs, hsize⟩ := updateXcache_ok h hupdate
  have hsub : ∀ x ∈ xattrsOf xcache, x.atom < 2 ^ 16 := by
    cases xcache with
    | none => exact fun x hx => nomatch hx
    | some old => exact (h old rfl).atoms
  have hnodup : ((xattrsOf xcache).map Attr.atom).Nodup := by
    cases xcache with
    | none => exact List.nodup_nil
    | some old => exact (h old rfl).distinct
  rw [Nat.mod_eq_of_lt hatom, Nat.mod_eq_of_lt (show data.length < 2 ^ 16 by omega),
    List.take_length] at hxattrs
  rw [u32, sizeofXattr, Nat.mod_eq_of_lt (show 4 + data.length < 2 ^ 32 by omega),
    Nat.mod_eq_of_lt hfit] at hsize
  refine ⟨c, rfl, ?_, hsize ▸ hfit, fun x hx => ?_, ?_⟩
  · rw [hsize, hxattrs, xcacheSize_append]
    rfl
  · rw [hxattrs] at hx
    rcases List.mem_append.mp hx with hx | hx
    · exact hsub x (List.mem_of_mem_filter hx)
    · cases List.mem_singleton.mp hx
      exact hatom
  · rw [hxattrs, List.map_append, List.nodup_append]
    refine ⟨hnodup.sublist (List.filter_sublist.map _), List.nodup_singleton _, ?_⟩
    intro a ha b hb
    obtain ⟨x, hx, rfl⟩ := List.mem_map.mp ha
    cases List.mem_singleton.mp hb
    exact others_ne x hx

end

/-- A value replaced in a cache of two. -/
theorem updateXcache_stored_one :
    ∃ xcache', Stored (some ⟨14, 132, [⟨1, [5]⟩, ⟨2, [6]⟩]⟩) xcache' 1 [7, 8] := by
  have hupdate : ∃ xcache', updateXcache true (some ⟨14, 132, [⟨1, [5]⟩, ⟨2, [6]⟩]⟩) 1 [7, 8] false
      true = some (xcache', .ok 0) := ⟨_, rfl⟩
  obtain ⟨xcache', hupdate⟩ := hupdate
  refine ⟨xcache', (updateXcache_stored ?_ hupdate).mpr ⟨by decide, by decide⟩⟩
  rintro c ⟨⟩
  exact ⟨rfl, by decide, by decide, by decide⟩

/-- An atom above 16 bits is not found again. -/
theorem updateXcache_lost : ∃ xcache' use,
    updateXcache true none (2 ^ 16) [1] false false = some (xcache', .ok use) ∧
      lookupXcache xcache' (2 ^ 16) = some (.error .enoattr) ∧
      ¬ Stored none xcache' (2 ^ 16) [1] := by
  refine ⟨_, _, rfl, by decide, fun h => ?_⟩
  exact absurd h.1 (by decide)

end Tux3.Xattr
