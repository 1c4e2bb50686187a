import Tux3.IleafRecords
import Mathlib.Data.Nat.Find

/-!
# Editing one inode table leaf

What `ileaf_resize`, `ileaf_purge`, and `ileaf_split` with `ileaf_merge` do to the lookups of a
leaf.
-/
namespace Tux3.Itable

/-- The attributes that `ileaf_lookup` finds; `none` where an assertion fails. -/
def Ileaf.attrs (leaf : Ileaf) (blockbits inum : ℕ) : Option (List UInt8) :=
  (ileafLookup blockbits leaf inum).map fun r => bytes leaf.table r.2 r.1

/-- The bytes of the leaf with a record of a new size, and its dictionary up to the inode. -/
def Ileaf.needed (leaf : Ileaf) (inum newsize : ℕ) : ℕ :=
  16 + (limit leaf.dict leaf.icount - (leaf.record inum).length) + newsize +
    2 * max leaf.icount (inum - leaf.ibase + 1)

/-- `ileaf_resize` makes room for one record, or there is none. -/
def ResizeExact (blockbits : ℕ) (leaf : Ileaf) (inum newsize : ℕ) : Prop :=
  match ileafResize blockbits leaf inum newsize with
  | none => 2 ^ blockbits < leaf.needed inum newsize
  | some (off, leaf') =>
      leaf'.ibase = leaf.ibase ∧ leaf'.Good blockbits ∧
        ileafLookup blockbits leaf' inum = some (newsize, off) ∧
        (∀ old ∈ leaf.attrs blockbits inum, ∀ new ∈ leaf'.attrs blockbits inum,
          new.take (min old.length newsize) = old.take (min old.length newsize)) ∧
        ∀ x, x ≠ inum → leaf'.attrs blockbits x = leaf.attrs blockbits x

/-- `ileaf_purge` removes one record. -/
def PurgeExact (blockbits : ℕ) (leaf : Ileaf) (inum : ℕ) : Prop :=
  (ileafPurge leaf inum).ibase = leaf.ibase ∧ (ileafPurge leaf inum).Good blockbits ∧
    (ileafPurge leaf inum).attrs blockbits inum = some [] ∧
    ∀ x, x ≠ inum → (ileafPurge leaf inum).attrs blockbits x = leaf.attrs blockbits x

section
variable {leaf leaf' : Ileaf} {bits inum newsize x : ℕ}

theorem Ileaf.Good.attrs_eq (h : leaf.Good bits) (hbits : bits ≤ 16) :
    leaf.attrs bits x = if leaf.ibase ≤ x ∧ x < leaf.ibase + entriesPerLeaf bits then
      some (leaf.record x) else none := by
  rw [Ileaf.attrs]
  by_cases hin : leaf.ibase ≤ x ∧ x < leaf.ibase + entriesPerLeaf bits
  · obtain ⟨off, hlookup, hbytes⟩ := h.lookup hbits hin.1 hin.2
    rw [if_pos hin, hlookup, Option.map_some, hbytes]
  · rw [if_neg hin, ileafLookup, if_neg hin]
    rfl

theorem attrs_congr (h : leaf.Good bits) (h' : leaf'.Good bits) (hbits : bits ≤ 16)
    (hbase : leaf'.ibase = leaf.ibase) (hrecord : leaf.ibase ≤ x → leaf'.record x = leaf.record x) :
    leaf'.attrs bits x = leaf.attrs bits x := by
  rw [h.attrs_eq hbits, h'.attrs_eq hbits, hbase]
  split
  · next hin => rw [hrecord hin.1]
  · rfl

theorem record_length : (leaf.record inum).length =
    limit leaf.dict (inum - leaf.ibase + 1) - limit leaf.dict (inum - leaf.ibase) :=
  bytes_length _ _ _

theorem Ileaf.Good.record_lt (h : leaf.Good bits) (hbits : bits ≤ 16) (x : ℕ) :
    (leaf.record x).length < 2 ^ 16 := by
  have hlt := h.limit_lt hbits (x - leaf.ibase + 1)
  rw [record_length]
  omega

/-! ## Resizing and purging -/

theorem resizeExact_int (h : leaf.Good bits) (hbits : bits ≤ 16) (hbase : leaf.ibase ≤ inum)
    (hrange : inum < leaf.ibase + entriesPerLeaf bits) (hnew : 0 < newsize)
    (hint : newsize < 2 ^ 31) : ResizeExact bits leaf inum newsize := by
  rw [ResizeExact]
  cases hr : ileafResize bits leaf inum newsize with
  | none =>
      have hno := mt (resize_isSome h hbits hint).mpr (by rw [hr]; exact Bool.false_ne_true)
      have hlen := @record_length leaf inum
      have hl := h.limit_le (inum - leaf.ibase + 1)
      dsimp only at hno ⊢
      rw [← hlen] at hno
      rw [Ileaf.needed]
      omega
  | some r =>
      obtain ⟨off, leaf'⟩ := r
      obtain ⟨hbase', -, hgood', -, hlookup, -, htake, hother⟩ :=
        resize_spec h hbits hbase hnew hint hr
      refine ⟨hbase', hgood', hlookup, fun old hold new hnew' => ?_, fun x hx =>
        attrs_congr h hgood' hbits hbase' fun hlow => hother x hlow hx⟩
      rw [h.attrs_eq hbits, if_pos ⟨hbase, hrange⟩] at hold
      rw [hgood'.attrs_eq hbits, hbase', if_pos ⟨hbase, hrange⟩] at hnew'
      obtain rfl := Option.some.inj hold
      obtain rfl := Option.some.inj hnew'
      exact htake _ (Nat.min_le_right _ _) (Nat.min_le_left _ _)

/-- The edits of a leaf touch one inode exactly when the difference of the sizes is an `int`. -/
theorem edits_exact_iff (h : leaf.Good bits) (hbits : bits ≤ 16) (hbase : leaf.ibase ≤ inum)
    (hrange : inum < leaf.ibase + entriesPerLeaf bits) (hnew : 0 < newsize)
    (h32 : newsize < 2 ^ 32) :
    (ResizeExact bits leaf inum newsize ∧
        (leaf.record inum ≠ [] → PurgeExact bits leaf inum)) ↔
      newsize < (leaf.record inum).length + 2 ^ 31 := by
  have hrec := h.record_lt hbits inum
  have hlen := @record_length leaf inum
  have hpurge : leaf.record inum ≠ [] → PurgeExact bits leaf inum := by
    intro hne
    have hin : inum - leaf.ibase < leaf.icount := by
      by_contra hge
      exact hne (record_behind (Nat.le_of_not_lt hge))
    obtain ⟨hbase', hgood', -, hgone, hother⟩ := purge_spec h hbits hbase hin
    refine ⟨hbase', hgood', ?_, fun x hx =>
      attrs_congr h hgood' hbits hbase' fun hlow => hother x hlow hx⟩
    rw [hgood'.attrs_eq hbits, hbase', if_pos ⟨hbase, hrange⟩, hgone]
  have hresize : ResizeExact bits leaf inum newsize ↔
      newsize < (leaf.record inum).length + 2 ^ 31 := by
    have hgen := @resize_bmod leaf bits inum newsize h hbits
    dsimp only at hgen
    rw [← hlen] at hgen
    have hepl : ¬ entriesPerLeaf bits ≤ inum - leaf.ibase := by omega
    constructor
    · intro hexact
      by_contra hge
      -- the difference is negative, so the room is not checked
      have hneg : ((newsize : ℤ) - (leaf.record inum).length).bmod (2 ^ 32) ≤ 0 := by
        rw [Int.bmod_def]
        omega
      rw [if_neg (not_or.mpr ⟨hepl, fun hand => absurd hand.1 (not_lt.mpr hneg)⟩)] at hgen
      rw [ResizeExact, hgen] at hexact
      obtain ⟨hbase', hgood', hlookup, -⟩ := hexact
      obtain ⟨off, hlookup', -⟩ := hgood'.lookup hbits (hbase' ▸ hbase) (hbase' ▸ hrange)
      have hsize := (Prod.mk.inj (Option.some.inj (hlookup.symm.trans hlookup'))).1
      have hlt := hgood'.record_lt hbits inum
      omega
    · intro hlt
      by_cases hint : newsize < 2 ^ 31
      · exact resizeExact_int h hbits hbase hrange hnew hint
      · have hfree := h.free_eq hbits
        have hpow : 2 ^ bits ≤ 2 ^ 16 := Nat.pow_le_pow_right (by decide) hbits
        have hmore : ((newsize : ℤ) - (leaf.record inum).length).bmod (2 ^ 32) =
            newsize - (leaf.record inum).length := Int.bmod_eq_of_le (by omega) (by omega)
        rw [hmore, if_pos (Or.inr (by omega))] at hgen
        rw [ResizeExact, hgen]
        dsimp only
        rw [Ileaf.needed]
        omega
  rw [hresize]
  exact ⟨fun hand => hand.1, fun hlt => ⟨hlt, hpurge⟩⟩

/-- A size of `2 ^ 31` for an inode without attributes: the difference is negative, no room is
made, and the lookup still finds nothing. -/
theorem resize_overflow : ileafInit.Good 8 ∧ ¬ ResizeExact 8 ileafInit 0 (2 ^ 31) := by
  refine ⟨ileafInit_good (by decide), fun hexact => ?_⟩
  rw [ResizeExact, @resize_bmod _ 8 _ _ (ileafInit_good (by decide)) (by decide),
    if_neg (by decide)] at hexact
  obtain ⟨-, -, hlookup, -⟩ := hexact
  have hsize := congrArg (Option.map Prod.fst) hlookup
  revert hsize
  decide

theorem twoRecords_good : Ileaf.Good ⟨0, [1, 1, 1, 2], fun _ => 7⟩ 8 := by
  refine ⟨?_, by decide, by decide⟩
  have hlimit : limit [1, 1, 1, 2] = fun i => min i 1 + (i - 3) - (i - 4) := by
    refine limit_eq rfl (by decide) fun i hi => ?_
    change 4 ≤ i at hi
    change _ = 2
    omega
  change Monotone (limit [1, 1, 1, 2])
  rw [hlimit]
  intro i j hij
  dsimp only
  omega

/-- The record of inode 0 grows to 9 bytes and is deleted, and inode 3 keeps its own. -/
theorem edits_exact_two : ResizeExact 8 ⟨0, [1, 1, 1, 2], fun _ => 7⟩ 0 9 ∧
    (Ileaf.record ⟨0, [1, 1, 1, 2], fun _ => 7⟩ 0 ≠ [] →
      PurgeExact 8 ⟨0, [1, 1, 1, 2], fun _ => 7⟩ 0) :=
  (edits_exact_iff twoRecords_good (by decide) (by decide) (by decide) (by decide)
    (by decide)).mpr (by decide)

/-! ## Splitting and merging -/

/-- The limits of a merged leaf: those of the second leaf stand behind the first. -/
theorem merge_limits {from' : Ileaf} (hmono : Monotone (limit from'.dict))
    (hsum : limit leaf.dict leaf.icount + limit from'.dict from'.icount < 2 ^ 16) :
    limit (ileafMerge leaf from').dict = fun i => if i < leaf.icount then limit leaf.dict i
      else limit leaf.dict leaf.icount + limit from'.dict (i - leaf.icount) := by
  by_cases hne : from'.icount = 0
  · have hnil : from'.dict = [] := List.length_eq_zero_iff.mp hne
    funext i
    rw [ileafMerge, if_pos hne, hnil]
    split
    · rfl
    · next hge =>
        rw [limit_behind (Nat.le_of_not_lt hge), @limit_behind [] _ (Nat.zero_le _)]
        rfl
  · have hdict : (ileafMerge leaf from').dict = leaf.dict ++ from'.dict.map fun l =>
        if leaf.icount = 0 then l else addIdict l (atdict leaf.dict leaf.icount) := by
      rw [ileafMerge, if_neg hne]
    have hlen : (ileafMerge leaf from').dict.length = leaf.icount + from'.icount := by
      rw [hdict, List.length_append, List.length_map]
      rfl
    have hend : leaf.dict.length = leaf.icount := rfl
    refine limit_eq ?_ (fun i hi => ?_) fun i hi => ?_
    · split
      · exact limit_zero _
      · next hge =>
          rw [Nat.le_zero.mp (Nat.le_of_not_lt hge), limit_zero, limit_zero]
    · rw [hlen] at hi
      simp only [hdict]
      rcases Nat.lt_or_ge i leaf.icount with hin | hge
      · have hin' : i < leaf.dict.length := hin
        rw [List.getElem_append_left hin', ← limit_succ hin']
        split
        · rfl
        · rw [show i + 1 = leaf.icount by omega, Nat.sub_self, limit_zero]
          rfl
      · have hi' : i - leaf.icount < from'.dict.length := by
          change _ < from'.icount
          omega
        have hle : limit from'.dict (i - leaf.icount + 1) ≤ limit from'.dict from'.icount :=
          hmono hi'
        have hget := limit_succ hi'
        rw [if_neg (by omega), List.getElem_append_right (show leaf.dict.length ≤ i from hge),
          List.getElem_map, show i + 1 - leaf.icount = i - leaf.icount + 1 by omega, hget]
        change (if _ then from'.dict[i - leaf.icount] else
          addIdict from'.dict[i - leaf.icount] _) = _
        split
        · next h0 =>
            have hzero : limit leaf.dict leaf.icount = 0 := by
              rw [h0, limit_zero]
            rw [hzero, Nat.zero_add]
        · rw [atdict_eq (Nat.le_of_eq hend.symm)]
          exact addIdict_eq (by omega) (by omega)
    · rw [hlen] at hi ⊢
      rw [if_neg (by omega), if_neg (by omega), Nat.add_sub_cancel_left,
        limit_behind (show from'.dict.length ≤ i - leaf.icount from Nat.le_sub_of_add_le' hi)]
      rfl

theorem trimCount_last (dict : List ℕ) (n : ℕ) (hpos : 0 < trimCount dict n) :
    atdict dict (trimCount dict n) ≠ atdict dict (trimCount dict n - 1) := by
  fun_induction trimCount dict n with
  | case1 => exact absurd hpos (Nat.lt_irrefl 0)
  | case2 => exact absurd hpos (Nat.lt_irrefl 0)
  | case3 hne => exact hne
  | case4 n heq ih => exact ih hpos
  | case5 n hne => exact hne

theorem split_last (h : leaf.Good bits) (hbits : bits ≤ 16)
    (hpos : 0 < (ileafSplit bits leaf inum).1.icount) :
    leaf.record (leaf.ibase + ((ileafSplit bits leaf inum).1.icount - 1)) ≠ [] := by
  have hl := (@split_limits _ _ inum h hbits).1
  have hle := @split_icount_le leaf bits inum
  set dict := leaf.dict.take (min (inum - leaf.ibase) leaf.icount) with hdict
  have htrim : (ileafSplit bits leaf inum).1.icount = trimCount dict dict.length := by
    rw [ileafSplit, Ileaf.icount, ileafTrim]
    exact (List.length_take ..).trans (Nat.min_eq_left (trimCount_le _ _))
  have hlimit : limit (ileafSplit bits leaf inum).1.dict = limit dict := limit_trim _
  have hne := trimCount_last dict dict.length (htrim ▸ hpos)
  have hshort := trimCount_le dict dict.length
  rw [atdict_eq hshort, atdict_eq (Nat.le_trans (Nat.sub_le _ _) hshort), ← htrim, ← hlimit,
    hl] at hne
  dsimp only at hne
  rw [Nat.min_eq_left hle, Nat.min_eq_left (Nat.le_trans (Nat.sub_le _ _) hle)] at hne
  intro hnil
  have hlen := congrArg List.length hnil
  rw [record_length, Nat.add_sub_cancel_left, Nat.sub_add_cancel hpos] at hlen
  exact hne (Nat.le_antisymm (Nat.sub_eq_zero_iff_le.mp hlen) (h.mono (Nat.sub_le _ _)))

/-- Merging the parts of a leaf closes the gap that trimming the left part leaves. -/
theorem merge_split (h : leaf.Good bits) (hbits : bits ≤ 16) (hbase : leaf.ibase ≤ inum) :
    let left := (ileafSplit bits leaf inum).1
    let merged := ileafMerge left (ileafSplit bits leaf inum).2
    let gap := min (inum - leaf.ibase) leaf.icount - left.icount
    merged.ibase = leaf.ibase ∧ merged.Good bits ∧
      (∀ x, leaf.ibase ≤ x → merged.record x =
        leaf.record (if x < leaf.ibase + left.icount then x else x + gap)) ∧
      ∀ x, leaf.ibase + left.icount ≤ x → x < leaf.ibase + left.icount + gap →
        leaf.record x = [] := by
  intro left merged gap
  obtain ⟨hl, hr⟩ := @split_limits _ _ inum h hbits
  have hle : left.icount ≤ min (inum - leaf.ibase) leaf.icount := split_icount_le
  have hlast := h.limit_le
  -- all limits of the gap are the one where the leaf was split
  have hgap : ∀ i, left.icount ≤ i → i ≤ left.icount + gap →
      limit leaf.dict i = limit leaf.dict (left.icount + gap) := by
    intro i hi hi'
    have hbehind := limit_behind (show left.dict.length ≤ i from hi)
    have hbehind' := limit_behind (show left.dict.length ≤ left.icount + gap from
      Nat.le_add_right _ _)
    have heq := hbehind.trans hbehind'.symm
    rw [show limit left.dict = _ from hl] at heq
    dsimp only at heq
    rwa [Nat.min_eq_left (by omega), Nat.min_eq_left (by omega)] at heq
  have hat : left.icount + gap = min (inum - leaf.ibase) leaf.icount := by omega
  have hsplit : atdict leaf.dict (min (inum - leaf.ibase) leaf.icount) =
      limit leaf.dict (left.icount + gap) := by
    rw [hat]
    exact atdict_eq (Nat.min_le_right _ _)
  have hend : limit left.dict left.icount = limit leaf.dict (left.icount + gap) := by
    rw [show limit left.dict = _ from hl, ← hgap _ (Nat.le_refl _) (Nat.le_add_right _ _)]
    exact congrArg (limit leaf.dict) (Nat.min_eq_left hle)
  have hright : (ileafSplit bits leaf inum).2.icount = leaf.icount - (left.icount + gap) := by
    rw [hat]
    exact split_icount
  have hfrom : limit (ileafSplit bits leaf inum).2.dict (ileafSplit bits leaf inum).2.icount =
      limit leaf.dict leaf.icount - limit leaf.dict (left.icount + gap) := by
    rw [hr, hright, ← hat]
    exact congrArg (limit leaf.dict · - _) (by omega)
  have hgap' := hlast (left.icount + gap)
  have hlimits : limit merged.dict =
      fun i => limit leaf.dict (if i < left.icount then i else i + gap) := by
    have hlt := h.limit_lt hbits leaf.icount
    have hmerge := @merge_limits left _ (h.split hbits hbase).2.mono
      (by rw [hend, hfrom]; omega)
    rw [show limit merged.dict = _ from hmerge]
    funext i
    split
    · rw [show limit left.dict = _ from hl]
      exact congrArg (limit leaf.dict) (Nat.min_eq_left (by omega))
    · have hm := h.mono (show left.icount + gap ≤ i + gap by omega)
      rw [hend, hr, ← hat]
      dsimp only
      rw [show left.icount + gap + (i - left.icount) = i + gap by omega]
      omega
  have htable : ∀ x < limit leaf.dict leaf.icount, merged.table x = leaf.table x := by
    intro x hx
    have hlow : x < limit leaf.dict (left.icount + gap) → left.table x = leaf.table x := by
      intro hlt
      exact if_pos (hsplit ▸ hlt)
    by_cases hne : (ileafSplit bits leaf inum).2.icount = 0
    · rw [hne, limit_zero] at hfrom
      rw [show merged = left from if_pos hne]
      exact hlow (by omega)
    · have hfree : atdict left.dict left.icount = limit leaf.dict (left.icount + gap) :=
        (atdict_eq (Nat.le_refl _)).trans hend
      have hsize := (atdict_eq (Nat.le_refl (ileafSplit bits leaf inum).2.icount)).trans hfrom
      rw [show merged = _ from if_neg hne]
      dsimp only
      rw [hfree, hsize]
      split
      · next hin =>
          have htop : atdict leaf.dict leaf.icount = limit leaf.dict leaf.icount :=
            atdict_eq (Nat.le_refl _)
          refine (if_pos ?_).trans ?_
          · rw [hsplit, htop]
            omega
          · rw [hsplit, Nat.add_sub_cancel' hin.1]
      · exact hlow (by omega)
  have hcount : merged.icount ≤ leaf.icount := by
    by_cases hne : (ileafSplit bits leaf inum).2.icount = 0
    · rw [show merged = left from if_pos hne]
      omega
    · rw [show merged = _ from if_neg hne, Ileaf.icount, List.length_append, List.length_map]
      change left.icount + (ileafSplit bits leaf inum).2.icount ≤ _
      omega
  have hibase : merged.ibase = leaf.ibase := by
    by_cases hne : (ileafSplit bits leaf inum).2.icount = 0
    · rw [show merged = left from if_pos hne]
      rfl
    · rw [show merged = _ from if_neg hne]
      rfl
  refine ⟨hibase, ⟨?_, ?_, ?_⟩, fun x hx => ?_, fun x hx hlt => ?_⟩
  · rw [hlimits]
    intro i j hij
    exact h.mono (by split <;> split <;> omega)
  · exact Nat.le_trans hcount h.count
  · have hfits := h.fits
    have hl' := hlast (if merged.icount < left.icount then merged.icount else merged.icount + gap)
    rw [hlimits]
    dsimp only
    omega
  · have hidx : (if x < leaf.ibase + left.icount then x else x + gap) - leaf.ibase =
        if x - leaf.ibase < left.icount then x - leaf.ibase else x - leaf.ibase + gap := by
      split <;> split <;> omega
    have hnext : limit merged.dict (x - leaf.ibase + 1) = limit leaf.dict
        ((if x - leaf.ibase < left.icount then x - leaf.ibase else x - leaf.ibase + gap) + 1) := by
      rw [hlimits]
      dsimp only
      rcases Nat.lt_trichotomy (x - leaf.ibase + 1) left.icount with hlt | heq | hgt
      · rw [if_pos hlt, if_pos (by omega)]
      · rw [if_neg (by omega), if_pos (by omega), heq]
        exact (hgap _ (Nat.le_refl _) (Nat.le_add_right _ _)).symm
      · rw [if_neg (by omega), if_neg (by omega)]
        exact congrArg (limit leaf.dict) (by omega)
    have hthis := congrFun hlimits (x - leaf.ibase)
    rw [Ileaf.record, Ileaf.record, hidx, hibase, hnext, hthis]
    refine bytes_congr fun j hj => htable _ ?_
    have hl' := hlast
      ((if x - leaf.ibase < left.icount then x - leaf.ibase else x - leaf.ibase + gap) + 1)
    omega
  · rw [Ileaf.record, hgap (x - leaf.ibase + 1) (by omega) (by omega),
      hgap (x - leaf.ibase) (by omega) (by omega), Nat.sub_self]
    rfl

/-- Every inode number looks up in the merged parts as in the leaf. -/
def MergeExact (blockbits : ℕ) (leaf : Ileaf) (inum : ℕ) : Prop :=
  ∀ x, (ileafMerge (ileafSplit blockbits leaf inum).1
    (ileafSplit blockbits leaf inum).2).attrs blockbits x = leaf.attrs blockbits x

/-- A merge undoes a split unless the inode below is empty and one from there on is not. -/
theorem mergeExact_iff (h : leaf.Good bits) (hbits : bits ≤ 16) (hbase : leaf.ibase ≤ inum) :
    MergeExact bits leaf inum ↔
      inum = leaf.ibase ∨ leaf.record (inum - 1) ≠ [] ∨ ∀ x, inum ≤ x → leaf.record x = [] := by
  obtain ⟨hbase', hgood, hrecord, hgap⟩ := @merge_split _ _ inum h hbits hbase
  have hle := @split_icount_le leaf bits inum
  set left := (ileafSplit bits leaf inum).1 with hleft
  set gap := min (inum - leaf.ibase) leaf.icount - left.icount with hgapdef
  constructor
  · intro hexact
    by_contra hnot
    obtain ⟨hne, hempty, hsome⟩ : inum ≠ leaf.ibase ∧ leaf.record (inum - 1) = [] ∧
        ∃ x, inum ≤ x ∧ leaf.record x ≠ [] := by
      push Not at hnot
      exact hnot
    classical
    -- the first inode behind the split that has attributes
    obtain ⟨hy, hyne⟩ := Nat.find_spec hsome
    have hmin := fun m => @Nat.find_min _ _ hsome m
    generalize Nat.find hsome = y at hy hyne hmin
    have hyin : y - leaf.ibase < leaf.icount := by
      by_contra hge
      exact hyne (record_behind (Nat.le_of_not_lt hge))
    have hpos : 0 < gap := by
      by_contra hzero
      have hfull : leaf.ibase + (left.icount - 1) = inum - 1 := by omega
      refine split_last h hbits (show 0 < left.icount by omega) ?_
      rw [← hleft, hfull, hempty]
    have hbelow : leaf.record (y - gap) = [] := by
      rcases Nat.lt_or_ge (y - gap) inum with hlt | hge
      · exact hgap _ (by omega) (by omega)
      · by_contra hne'
        exact hmin _ (by omega) ⟨hge, hne'⟩
    have hcount := h.count
    have hsame := hexact (y - gap)
    rw [hgood.attrs_eq hbits, h.attrs_eq hbits, hbase', if_pos (by omega), if_pos (by omega),
      hrecord _ (by omega), if_neg (by omega), Nat.sub_add_cancel (by omega), hbelow] at hsame
    exact hyne (Option.some.inj hsame)
  · intro hcond x
    refine attrs_congr h hgood hbits hbase' fun hlow => ?_
    rw [hrecord x hlow]
    split
    · rfl
    · next hge =>
        by_cases hzero : gap = 0
        · rw [hzero, Nat.add_zero]
        · have hall : ∀ y, inum ≤ y → leaf.record y = [] := by
            rcases hcond with rfl | hne | hall
            · omega
            · refine fun y _ => absurd ?_ hne
              rcases Nat.lt_or_ge (inum - 1) (leaf.ibase + leaf.icount) with hlt | hbehind
              · exact hgap _ (by omega) (by omega)
              · exact record_behind (by omega)
            · exact hall
          have hnil : ∀ y, leaf.ibase + left.icount ≤ y → leaf.record y = [] := by
            intro y hy
            rcases Nat.lt_or_ge y inum with hlt | hle'
            · rcases Nat.lt_or_ge (y - leaf.ibase) leaf.icount with hin | hbehind
              · exact hgap _ hy (by omega)
              · exact record_behind hbehind
            · exact hall y hle'
          rw [hnil x (by omega), hnil (x + gap) (by omega)]

/-- Split at 3 and merged, the second record is that of inode 1. -/
theorem merge_moves : Ileaf.Good ⟨0, [1, 1, 1, 2], fun _ => 7⟩ 8 ∧
    ¬ MergeExact 8 ⟨0, [1, 1, 1, 2], fun _ => 7⟩ 3 :=
  ⟨twoRecords_good, fun hexact => absurd (hexact 1) (by decide)⟩

/-- Split behind the first record, the leaf comes back. -/
theorem mergeExact_two : MergeExact 8 ⟨0, [1, 1, 1, 2], fun _ => 7⟩ 1 :=
  (mergeExact_iff twoRecords_good (by decide) (Nat.zero_le _)).mpr (Or.inr (Or.inl (by decide)))

end

end Tux3.Itable
