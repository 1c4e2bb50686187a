import Tux3.XattrFailure

/-!
# Listing the names

`xattr_list` with its writes: each is an offset from `text` and a byte. The room that is left is
passed to `unatom`, for which a size of 0 asks for the length alone.
-/
namespace Tux3.Xattr

open Tux3.Dir

/-- The number of an error. -/
def Errno.code : Errno → ℤ
  | .enomem => 12
  | .eexist => 17
  | .einval => 22
  | .erange => 34
  | .enoattr => 61

/-- `memcpy` to an offset. -/
def copy (text : ℤ) : List UInt8 → List (ℤ × UInt8)
  | [] => []
  | b :: bs => (text, b) :: copy (text + 1) bs

section
variable (blockbits : ℕ) (s : Atable)

/-- `unatom`: the length of the name of an atom, and the bytes that are copied. -/
def unatom (atom size : ℕ) : Except Errno (ℕ × List UInt8) :=
  let where' := s.unatom atom
  let entry := s.dict.block (where' / 2 ^ blockbits) (where' % 2 ^ blockbits)
  if entry.inum % 2 ^ 32 ≠ atom then .error .einval
  else if size ≠ 0 then
    if size < entry.nameLen then .error .erange
    else .ok (entry.nameLen, entry.name.take entry.nameLen)
  else .ok (entry.nameLen, [])

/-- The loop of `xattr_list` from an attribute and an offset on: the result and the writes; `none`
is the failed assertion. -/
def listFrom (size limit : ℕ) : ℕ → List Attr → ℤ → Option (Except Errno ℤ × List (ℤ × UInt8))
  | at', [], text => if at' = limit then some (.ok text, []) else none
  | at', xattr :: xattrs, text =>
      if at' < limit then
        let next (text : ℤ) : Option (Except Errno ℤ × List (ℤ × UInt8)) :=
          if limit < at' + xattr.size then some (.error .einval, [])
          else listFrom size limit (at' + xattr.size) xattrs text
        if size ≠ 0 then
          let tail := Int.bmod (size - text) (2 ^ 32)
          match unatom blockbits s xattr.atom (tail % 2 ^ 32).toNat with
          | .error _ => some (.ok text, [])
          | .ok (len, bytes) =>
              if len = tail then some (.ok text, copy text bytes)
              else (next (text + len + 1)).map fun r =>
                (r.1, copy text bytes ++ (text + len, 0) :: r.2)
        else
          match unatom blockbits s xattr.atom 0 with
          | .error err => next (text + (-err.code + 1))
          | .ok (len, _) => next (text + (len + 1))
      else if at' = limit then some (.ok text, [])
      else none

/-- `xattr_list` of an inode. -/
def xattrList (xcache : Option Xcache) (size : ℕ) :
    Option (Except Errno ℤ × List (ℤ × UInt8)) :=
  match xcache with
  | none => some (.ok 0, [])
  | some xcache => listFrom blockbits s size xcache.size sizeofXcache xcache.xattrs 0

/-- The entry that the reverse map has for an atom is that of a name. -/
def Spelled (atom : ℕ) (name : List UInt8) : Prop :=
  let where' := s.unatom atom
  let entry := s.dict.block (where' / 2 ^ blockbits) (where' % 2 ^ blockbits)
  entry.inum % 2 ^ 32 = atom ∧ tuxMatch name entry = true ∧ name.length ≤ 255

end

/-- The names, each with a zero byte behind it. -/
def textOf (names : List (List UInt8)) : List UInt8 := names.flatMap (· ++ [0])

/-- The listing in a buffer: nothing is written outside, and no more than the size is returned; with
room for all names, they are what is written, and their length is returned. -/
def Respects (blockbits : ℕ) (s : Atable) (xcache : Option Xcache) (names : ℕ → List UInt8)
    (size : ℕ) : Prop :=
  ∃ ret writes, xattrList blockbits s xcache size = some (.ok ret, writes) ∧ ret ≤ size ∧
    (∀ w ∈ writes, 0 ≤ w.1 ∧ w.1 < size) ∧
    ∃ len, xattrList blockbits s xcache 0 = some (.ok len, []) ∧ (len ≤ size →
      ret = len ∧ writes = copy 0 (textOf ((xattrsOf xcache).map fun x => names x.atom)))

/-- At no name is the room that is left, in 32 bits, taken for a question or an end: in a buffer
below 4 GiB the names before it do not fill the buffer exactly. -/
def Clear (size : ℕ) : ℕ → List (List UInt8) → Prop
  | _, [] => True
  | text, name :: names =>
      (if size < 2 ^ 32 then text ≠ size else name.length < (size - text) % 2 ^ 32) ∧
        Clear size (text + (name.length + 1)) names

section
variable {bits size limit at' atom : ℕ} {s : Atable} {x : Attr} {xattrs : List Attr}
  {name : List UInt8} {names : ℕ → List UInt8} {text : ℤ} {xcache : Option Xcache}

/-! ## Writes -/

theorem copy_append (a b : List UInt8) (text : ℤ) :
    copy text (a ++ b) = copy text a ++ copy (text + a.length) b := by
  induction a generalizing text with
  | nil =>
      rw [List.nil_append, copy, List.nil_append, List.length_nil, Int.natCast_zero, Int.add_zero]
  | cons c a ih =>
      rw [List.cons_append, copy, copy, ih, List.cons_append, List.length_cons, Int.natCast_succ,
        Int.add_assoc, Int.add_comm 1]

theorem copy_length (a : List UInt8) (text : ℤ) : (copy text a).length = a.length := by
  induction a generalizing text with
  | nil => rfl
  | cons c a ih => rw [copy, List.length_cons, ih, List.length_cons]

theorem mem_copy {a : List UInt8} {w : ℤ × UInt8} (h : w ∈ copy text a) :
    text ≤ w.1 ∧ w.1 < text + a.length := by
  induction a generalizing text with
  | nil => exact (nomatch h)
  | cons c a ih =>
      rw [List.length_cons]
      rcases List.mem_cons.mp h with rfl | h
      · exact ⟨Int.le_refl _, by dsimp only; omega⟩
      · have hin := ih h
        omega

theorem textOf_cons (name : List UInt8) (l : List (List UInt8)) :
    textOf (name :: l) = name ++ 0 :: textOf l := by
  rw [textOf, List.flatMap_cons, List.append_assoc]
  rfl

theorem textOf_length (name : List UInt8) (l : List (List UInt8)) :
    (textOf (name :: l)).length = name.length + 1 + (textOf l).length := by
  rw [textOf_cons, List.length_append, List.length_cons]
  omega

/-! ## One name -/

theorem Spelled.pos (h : Spelled bits s atom name) : 0 < name.length := by
  obtain ⟨-, hmatch, -⟩ := h
  simp only [tuxMatch, isDeleted, Bool.and_eq_true, decide_eq_true_eq, Bool.not_eq_true',
    decide_eq_false_iff_not] at hmatch
  omega

theorem Spelled.unatom (h : Spelled bits s atom name) (size : ℕ) :
    unatom bits s atom size = if size = 0 then .ok (name.length, [])
      else if size < name.length then .error .erange else .ok (name.length, name) := by
  obtain ⟨hatom, hmatch, -⟩ := h
  simp only [tuxMatch, Bool.and_eq_true, decide_eq_true_eq] at hmatch
  unfold Xattr.unatom
  dsimp only
  rw [if_neg (not_not.mpr hatom), ← hmatch.1.1, ← hmatch.2]
  by_cases hzero : size = 0
  · rw [if_neg (not_not.mpr hzero), if_pos hzero]
  · rw [if_pos hzero, if_neg hzero]

/-- The remaining room, as it is passed to `unatom`. -/
def room (size : ℕ) (text : ℤ) : ℕ := ((size - text) % 2 ^ 32).toNat

theorem tail_room (size : ℕ) (text : ℤ) :
    (Int.bmod (size - text) (2 ^ 32) % 2 ^ 32).toNat = room size text := by
  rw [room]
  congr 1
  exact Int.bmod_emod

theorem tail_eq {len : ℕ} (h : len ≤ 255) :
    (len : ℤ) = Int.bmod (size - text) (2 ^ 32) ↔ room size text = len := by
  unfold room Int.bmod
  dsimp only
  split <;> omega

theorem listFrom_zero (h : Spelled bits s x.atom name) (hsize : size ≠ 0)
    (hlt : at' + x.size ≤ limit) (hroom : room size text = 0) :
    listFrom bits s size limit at' (x :: xattrs) text =
      (listFrom bits s size limit (at' + x.size) xattrs (text + name.length + 1)).map
        fun r => (r.1, (text + name.length, 0) :: r.2) := by
  have hpos := size_pos x
  have hname := h.pos
  have hne : (name.length : ℤ) ≠ Int.bmod (size - text) (2 ^ 32) := fun heq => by
    have hlen := (tail_eq h.2.2).mp heq
    omega
  rw [listFrom, if_pos (by omega)]
  dsimp only
  rw [if_pos hsize, tail_room, hroom, h.unatom 0, if_pos rfl]
  dsimp only
  rw [if_neg hne, if_neg (by omega)]
  rfl

theorem listFrom_stop (h : Spelled bits s x.atom name) (hsize : size ≠ 0)
    (hlt : at' + x.size ≤ limit) (hroom : 0 < room size text)
    (hfull : room size text ≤ name.length) :
    ∃ bytes : List UInt8, bytes.length ≤ room size text ∧
      listFrom bits s size limit at' (x :: xattrs) text = some (.ok text, copy text bytes) := by
  have hpos := size_pos x
  rw [listFrom, if_pos (by omega)]
  dsimp only
  rw [if_pos hsize, tail_room, h.unatom, if_neg (by omega)]
  rcases Nat.eq_or_lt_of_le hfull with heq | hlt
  · rw [if_neg (by omega)]
    dsimp only
    rw [if_pos ((tail_eq h.2.2).mpr heq)]
    exact ⟨name, Nat.le_of_eq heq.symm, rfl⟩
  · rw [if_pos hlt]
    exact ⟨[], Nat.zero_le _, rfl⟩

theorem listFrom_next (h : Spelled bits s x.atom name) (hsize : size ≠ 0)
    (hlt : at' + x.size ≤ limit) (hroom : name.length < room size text) :
    listFrom bits s size limit at' (x :: xattrs) text =
      (listFrom bits s size limit (at' + x.size) xattrs (text + name.length + 1)).map
        fun r => (r.1, copy text name ++ (text + name.length, 0) :: r.2) := by
  have hpos := size_pos x
  have hne : (name.length : ℤ) ≠ Int.bmod (size - text) (2 ^ 32) := fun heq => by
    have hlen := (tail_eq h.2.2).mp heq
    omega
  rw [listFrom, if_pos (by omega)]
  dsimp only
  rw [if_pos hsize, tail_room, h.unatom, if_neg (by omega), if_neg (by omega)]
  dsimp only
  rw [if_neg hne, if_neg (by omega)]

theorem listFrom_nil (h : limit = at') :
    listFrom bits s size limit at' [] text = some (.ok text, []) := by
  rw [listFrom, if_pos h.symm]

/-! ## All names -/

/-- The list ends with a length, after at most one write for each byte. -/
theorem listFrom_some (hsize : size ≠ 0) (hlimit : limit = at' + sizes xattrs)
    (h : ∀ x ∈ xattrs, Spelled bits s x.atom (names x.atom)) (text : ℤ) :
    ∃ ret ws, listFrom bits s size limit at' xattrs text = some (.ok ret, ws) ∧
      ws.length ≤ (textOf (xattrs.map fun x => names x.atom)).length := by
  induction xattrs generalizing at' text with
  | nil => exact ⟨text, [], listFrom_nil hlimit, Nat.le_refl _⟩
  | cons x xattrs ih =>
      have hx := h x List.mem_cons_self
      rw [sizes_cons, ← Nat.add_assoc] at hlimit
      rw [List.map_cons, textOf_length]
      obtain ⟨ret, ws, hrest, hlen⟩ := ih hlimit (fun y hy => h y (List.mem_cons_of_mem x hy))
        (text + (names x.atom).length + 1)
      rcases Nat.eq_zero_or_pos (room size text) with hzero | hpos
      · rw [listFrom_zero hx hsize (by omega) hzero, hrest]
        refine ⟨_, _, rfl, ?_⟩
        rw [List.length_cons]
        dsimp only
        omega
      · rcases Nat.lt_or_ge (names x.atom).length (room size text) with hlt | hge
        · rw [listFrom_next hx hsize (by omega) hlt, hrest]
          refine ⟨_, _, rfl, ?_⟩
          rw [List.length_append, List.length_cons, copy_length]
          dsimp only
          omega
        · obtain ⟨bytes, hbytes, heq⟩ :=
            @listFrom_stop bits size limit at' s x xattrs _ text hx hsize (by omega) hpos hge
          refine ⟨_, _, heq, ?_⟩
          rw [copy_length]
          omega

theorem listFrom_measure (hlimit : limit = at' + sizes xattrs)
    (h : ∀ x ∈ xattrs, Spelled bits s x.atom (names x.atom)) (text : ℤ) :
    listFrom bits s 0 limit at' xattrs text =
      some (.ok (text + (textOf (xattrs.map fun x => names x.atom)).length), []) := by
  induction xattrs generalizing at' text with
  | nil =>
      rw [listFrom_nil (show limit = at' from hlimit)]
      exact congrArg (fun n => some (Except.ok n, [])) (Int.add_zero text).symm
  | cons x xattrs ih =>
      have hpos := size_pos x
      have hx := h x List.mem_cons_self
      rw [sizes_cons, ← Nat.add_assoc] at hlimit
      rw [listFrom, if_pos (by omega)]
      dsimp only
      rw [if_neg (not_not.mpr rfl), hx.unatom 0, if_pos rfl]
      dsimp only
      rw [if_neg (by omega), ih hlimit fun y hy => h y (List.mem_cons_of_mem x hy), List.map_cons,
        textOf_length]
      congr 3
      omega

theorem room_of_le {t : ℕ} (h : t ≤ size) : room size t = (size - t) % 2 ^ 32 := by
  unfold room
  omega

theorem next_cast (t n : ℕ) : (t : ℤ) + n + 1 = ((t + (n + 1) : ℕ) : ℤ) := by
  omega

/-- A clear list stays in the buffer, and is whole if the buffer has room for it. -/
theorem listFrom_clear (hsize : size ≠ 0) (hlimit : limit = at' + sizes xattrs)
    (h : ∀ x ∈ xattrs, Spelled bits s x.atom (names x.atom)) {t : ℕ} (ht : t ≤ size)
    (hclear : Clear size t (xattrs.map fun x => names x.atom)) :
    ∃ ret ws, listFrom bits s size limit at' xattrs t = some (.ok ret, ws) ∧ ret ≤ size ∧
      (∀ w ∈ ws, (t : ℤ) ≤ w.1 ∧ w.1 < size) ∧
      (t + (textOf (xattrs.map fun x => names x.atom)).length ≤ size →
        ret = t + (textOf (xattrs.map fun x => names x.atom)).length ∧
        ws = copy t (textOf (xattrs.map fun x => names x.atom))) := by
  induction xattrs generalizing at' t with
  | nil =>
      refine ⟨t, [], listFrom_nil hlimit, Int.ofNat_le.mpr ht, (fun w hw => nomatch hw),
        fun _ => ?_⟩
      exact ⟨(Int.add_zero _).symm, rfl⟩
  | cons x xattrs ih =>
      have hx := h x List.mem_cons_self
      have hroom := room_of_le ht
      rw [sizes_cons, ← Nat.add_assoc] at hlimit
      rw [List.map_cons] at hclear ⊢
      rw [textOf_length]
      obtain ⟨hhead, hclear⟩ := hclear
      rcases Nat.lt_or_ge (names x.atom).length (room size t) with hlt | hge
      · have hle := Nat.mod_le (size - t) (2 ^ 32)
        obtain ⟨ret, ws, hrest, hret, hin, hall⟩ := ih hlimit
          (fun y hy => h y (List.mem_cons_of_mem x hy))
          (show t + ((names x.atom).length + 1) ≤ size by omega) hclear
        rw [listFrom_next hx hsize (by omega) hlt, next_cast, hrest, Option.map_some]
        refine ⟨ret, _, rfl, hret, fun w hw => ?_, fun hfit => ?_⟩
        · rcases List.mem_append.mp hw with hw | hw
          · have hcopied := mem_copy hw
            omega
          · rcases List.mem_cons.mp hw with rfl | hw
            · dsimp only
              omega
            · have htail := hin w hw
              omega
        · obtain ⟨hlast, rfl⟩ := hall (by omega)
          refine ⟨by omega, ?_⟩
          rw [textOf_cons, copy_append, copy, next_cast]
      · have hsmall : size < 2 ^ 32 := by
          by_contra hbig
          rw [if_neg hbig] at hhead
          omega
        rw [if_pos hsmall] at hhead
        obtain ⟨bytes, hbytes, heq⟩ :=
          @listFrom_stop bits size limit at' s x xattrs _ t hx hsize (by omega) (by omega) hge
        refine ⟨t, copy t bytes, heq, Int.ofNat_le.mpr ht, fun w hw => ?_, fun hfit => ?_⟩
        · have hcopied := mem_copy hw
          omega
        · omega

theorem clear_beyond (hsmall : size < 2 ^ 32) {t : ℕ} (ht : size < t) (l : List (List UInt8)) :
    Clear size t l := by
  induction l generalizing t with
  | nil => trivial
  | cons name l ih =>
      rw [Clear, if_pos hsmall]
      exact ⟨ht.ne', ih (by omega)⟩

/-- In a buffer below 4 GiB that names fill exactly, the next name is written behind it. -/
theorem listFrom_outside (hsize : size ≠ 0) (hsmall : size < 2 ^ 32)
    (hlimit : limit = at' + sizes xattrs)
    (h : ∀ x ∈ xattrs, Spelled bits s x.atom (names x.atom)) {t : ℕ} (ht : t ≤ size)
    (hclear : ¬ Clear size t (xattrs.map fun x => names x.atom)) :
    ∃ ret ws, listFrom bits s size limit at' xattrs t = some (ret, ws) ∧
      ∃ w ∈ ws, (size : ℤ) ≤ w.1 := by
  induction xattrs generalizing at' t with
  | nil => exact absurd trivial hclear
  | cons x xattrs ih =>
      have hx := h x List.mem_cons_self
      have hrest : ∀ y ∈ xattrs, Spelled bits s y.atom (names y.atom) :=
        fun y hy => h y (List.mem_cons_of_mem x hy)
      have hroom := room_of_le ht
      rw [sizes_cons, ← Nat.add_assoc] at hlimit
      rw [List.map_cons, Clear, if_pos hsmall, not_and] at hclear
      rcases Nat.eq_or_lt_of_le ht with rfl | hlt
      · obtain ⟨ret, ws, heq, -⟩ := listFrom_some hsize hlimit hrest
          ((t : ℤ) + (names x.atom).length + 1)
        rw [listFrom_zero hx hsize (by omega) (by omega), heq, Option.map_some]
        refine ⟨_, _, rfl, _, List.mem_cons_self, ?_⟩
        dsimp only
        omega
      · have hclear := hclear hlt.ne
        have hin : t + ((names x.atom).length + 1) ≤ size := by
          by_contra hout
          exact hclear (clear_beyond hsmall (Nat.lt_of_not_le hout) _)
        obtain ⟨ret, ws, heq, w, hw, hout⟩ := ih hlimit hrest hin hclear
        rw [listFrom_next hx hsize (by omega) (by omega), next_cast, heq, Option.map_some]
        exact ⟨_, _, rfl, w, List.mem_append_right _ (List.mem_cons_of_mem _ hw), hout⟩

/-- In a buffer of 4 GiB or more a name is left out. -/
theorem listFrom_short (hbig : 2 ^ 32 ≤ size) (hlimit : limit = at' + sizes xattrs)
    (h : ∀ x ∈ xattrs, Spelled bits s x.atom (names x.atom)) {t : ℕ}
    (ht : t + (textOf (xattrs.map fun x => names x.atom)).length ≤ size)
    (hclear : ¬ Clear size t (xattrs.map fun x => names x.atom)) :
    ∃ ret ws, listFrom bits s size limit at' xattrs t = some (.ok ret, ws) ∧
      (ret ≠ t + (textOf (xattrs.map fun x => names x.atom)).length ∨
        ws.length ≠ (textOf (xattrs.map fun x => names x.atom)).length) := by
  induction xattrs generalizing at' t with
  | nil => exact absurd trivial hclear
  | cons x xattrs ih =>
      have hx := h x List.mem_cons_self
      have hrest : ∀ y ∈ xattrs, Spelled bits s y.atom (names y.atom) :=
        fun y hy => h y (List.mem_cons_of_mem x hy)
      have hname := hx.pos
      rw [List.map_cons, textOf_length] at ht ⊢
      have hroom := room_of_le (show t ≤ size by omega)
      rw [sizes_cons, ← Nat.add_assoc] at hlimit
      rw [List.map_cons, Clear, if_neg (Nat.not_lt.mpr hbig), not_and] at hclear
      rcases Nat.lt_or_ge (names x.atom).length (room size t) with hlt | hge
      · obtain ⟨ret, ws, heq, hshort⟩ := ih hlimit hrest (by omega) (hclear (by omega))
        rw [listFrom_next hx (by omega) (by omega) hlt, next_cast, heq, Option.map_some]
        refine ⟨ret, _, rfl, ?_⟩
        rw [List.length_append, List.length_cons, copy_length]
        dsimp only
        omega
      · have hsize : size ≠ 0 := by omega
        rcases Nat.eq_zero_or_pos (room size t) with hzero | hpos
        · obtain ⟨ret, ws, heq, hlen⟩ := listFrom_some hsize hlimit hrest
            ((t : ℤ) + (names x.atom).length + 1)
          rw [listFrom_zero hx hsize (by omega) hzero, heq, Option.map_some]
          refine ⟨ret, _, rfl, Or.inr ?_⟩
          rw [List.length_cons]
          dsimp only
          omega
        · obtain ⟨bytes, -, heq⟩ :=
            @listFrom_stop bits size limit at' s x xattrs _ t hx hsize (by omega) hpos hge
          exact ⟨t, _, heq, Or.inl (by omega)⟩

/-! ## The listing -/

theorem textOf_lt {c : Xcache} (h : c.WellFormed)
    (hnames : ∀ x ∈ c.xattrs, (names x.atom).length ≤ 255) :
    (textOf (c.xattrs.map fun x => names x.atom)).length < 2 ^ 32 := by
  have hle : (textOf (c.xattrs.map fun x => names x.atom)).length ≤ 256 * sizes c.xattrs := by
    generalize c.xattrs = xattrs at hnames
    induction xattrs with
    | nil => exact Nat.zero_le _
    | cons x xattrs ih =>
        have hpos := size_pos x
        have hx := hnames x List.mem_cons_self
        have hrest := ih fun y hy => hnames y (List.mem_cons_of_mem x hy)
        rw [List.map_cons, textOf_length, sizes_cons]
        omega
  have hsize := h.size
  have hsmall := h.small
  rw [xcacheSize_eq] at hsize
  omega

/-- A listing respects its buffer just when it is clear. -/
theorem xattrList_respects (hcache : ∀ c, xcache = some c → c.WellFormed)
    (h : ∀ x ∈ xattrsOf xcache, Spelled bits s x.atom (names x.atom)) (hsize : 0 < size) :
    Respects bits s xcache names size ↔
      Clear size 0 ((xattrsOf xcache).map fun x => names x.atom) := by
  cases xcache with
  | none =>
      refine iff_of_true ⟨0, [], rfl, Int.natCast_nonneg size, (fun w hw => nomatch hw), 0, rfl,
        fun _ => ⟨rfl, rfl⟩⟩ trivial
  | some c =>
      have hwf := hcache c rfl
      have hlimit : c.size = sizeofXcache + sizes c.xattrs := hwf.size
      have htotal := textOf_lt hwf fun x hx => (h x hx).2.2
      have hmeasure := listFrom_measure hlimit h 0
      have hne : size ≠ 0 := hsize.ne'
      unfold Respects xattrList
      dsimp only [xattrsOf, Option.elim_some] at h hmeasure ⊢
      constructor
      · rintro ⟨ret, ws, hlist, -, hin, len, hlen, hwhole⟩
        rw [hmeasure, Int.zero_add] at hlen
        cases hlen
        by_contra hclear
        rcases Nat.lt_or_ge size (2 ^ 32) with hsmall | hbig
        · obtain ⟨ret', ws', hlist', w, hw, hout⟩ :=
            listFrom_outside hne hsmall hlimit h (Nat.zero_le size) hclear
          rw [Int.natCast_zero, hlist] at hlist'
          cases hlist'
          have hlt := (hin w hw).2
          omega
        · obtain ⟨ret', ws', hlist', hshort⟩ := listFrom_short hbig hlimit h (by omega) hclear
          rw [Int.natCast_zero, hlist] at hlist'
          cases hlist'
          obtain ⟨rfl, rfl⟩ := hwhole (by omega)
          rw [copy_length] at hshort
          omega
      · intro hclear
        obtain ⟨ret, ws, hlist, hret, hin, hwhole⟩ :=
          listFrom_clear hne hlimit h (Nat.zero_le size) hclear
        rw [Int.natCast_zero, Int.zero_add] at hwhole
        rw [Int.zero_add] at hmeasure
        refine ⟨ret, ws, hlist, hret, hin, _, hmeasure, fun hle => hwhole ?_⟩
        omega

theorem Names.spelled {N : ℕ} {val : Values} {ref : Ref} {fl : List ℕ} {v : Held}
    (h : Names bits N s val ref fl) (href : ref name = some v) (hname : name.length ≤ 255) :
    Spelled bits s v.inum name := by
  obtain ⟨i, o, hi, ho, -, hmatch, hinum⟩ := h.entry href
  rw [Spelled, hi, ho]
  exact ⟨hinum, hmatch, hname⟩

end

/-- A table with the names `a` and `b` of two atoms, and a cache of both. -/
def twoNames : Atable where
  dict := ⟨fun _ o => if o = 0 then ⟨1, 16, 1, 0, [97]⟩ else ⟨2, 240, 1, 0, [98]⟩, 256⟩
  unatom atom := if atom = 1 then 0 else 16
  lorefs _ := 1
  hirefs _ := 0
  freeatom := 0
  atomgen := 3
  xcache _ := []

def twoXattrs : Xcache := ⟨12, 132, [⟨1, []⟩, ⟨2, []⟩]⟩

def twoNamesOf (atom : ℕ) : List UInt8 := if atom = 1 then [97] else [98]

theorem twoXattrs_wellFormed : twoXattrs.WellFormed :=
  ⟨rfl, by decide, by decide, by decide⟩

theorem twoNames_spelled : ∀ x ∈ xattrsOf (some twoXattrs),
    Spelled 8 twoNames x.atom (twoNamesOf x.atom) := by
  intro x hx
  have hx : x = ⟨1, []⟩ ∨ x = ⟨2, []⟩ := by simpa [xattrsOf, twoXattrs] using hx
  rcases hx with rfl | rfl
  · exact ⟨rfl, rfl, by decide⟩
  · exact ⟨rfl, rfl, by decide⟩

/-- A buffer of three bytes ends between the names. -/
theorem xattrList_respects_three : Respects 8 twoNames (some twoXattrs) twoNamesOf 3 := by
  refine (xattrList_respects ?_ twoNames_spelled (by decide)).mpr ⟨by decide, by decide, trivial⟩
  rintro c ⟨⟩
  exact twoXattrs_wellFormed

/-- The first name fills a buffer of two bytes, and a zero byte is written behind it. -/
theorem xattrList_outside :
    xattrList 8 twoNames (some twoXattrs) 2 = some (.ok 4, [(0, 97), (1, 0), (3, 0)]) ∧
      ¬ Respects 8 twoNames (some twoXattrs) twoNamesOf 2 := by
  have hlist : xattrList 8 twoNames (some twoXattrs) 2 =
    some (.ok 4, [(0, 97), (1, 0), (3, 0)]) := by decide
  refine ⟨hlist, ?_⟩
  rintro ⟨ret, ws, heq, hret, -⟩
  rw [hlist] at heq
  cases heq
  exact absurd hret (by decide)

end Tux3.Xattr
