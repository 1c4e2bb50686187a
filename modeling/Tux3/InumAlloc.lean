import Tux3.ItableGrowth
import Tux3.BtreeWalk
import Mathlib.Order.Bounds.Basic

/-!
# Allocating inode numbers

`alloc_inum` of `inode.c`: the search through the leaves of the inode table, and the list of the
inodes that have a number but are not in the table yet. It finds the first number from the goal on
that is in neither.
-/
namespace Tux3.Itable

open Tux3.Btree

/-- `TUX_INVALID_INO` -/
def invalidIno : ℕ := 3

/-- `TUX_LOGMAP_INO` -/
def logmapIno : ℕ := 4

/-- An inode in memory: which one it is, and its number. -/
structure Inode where
  id : ℕ
  inum : ℕ
  deriving DecidableEq, Repr

/-- How a search ends. -/
inductive Found where
  | inum (goal : ℕ)
  /-- `-ENOSPC` -/
  | noSpace
  | assertion
  deriving DecidableEq, Repr

section
variable (blockbits : ℕ)

/-- The loop over the leaves from the one of a cursor on; `none` when the rounds do not suffice. -/
def searchLeaves (t : Table) : ℕ → Cursor → ℕ → Option Found
  | 0, _, _ => none
  | rounds + 1, cursor, goal =>
      if goal < (t.leaf cursor.leaf).ibase then some .assertion
      else
        let goal := findEmptyInode blockbits (t.leaf cursor.leaf) goal
        if goal < nextKey t.tree.node cursor.path then some (.inum goal)
        else
          match advance t.tree cursor with
          | some (.leaf cursor) => searchLeaves t rounds cursor goal
          | some .empty => some .noSpace
          | none => some .assertion

def searchTable (t : Table) (rounds goal : ℕ) : Option Found :=
  match probeFrom t.tree.node t.tree.depth t.tree.root goal with
  | none => some .assertion
  | some cursor =>
      if goal < nextKey t.tree.node cursor.path then searchLeaves blockbits t rounds cursor goal
      else some .assertion

/-- `find_defer_alloc_inum` -/
def findDeferAllocInum (allocInodes : List Inode) (inum : ℕ) : Bool :=
  allocInodes.any fun tuxnode => tuxnode.inum == inum

/-- The loop `goal++` over the numbers on the list. -/
def skipDeferred (allocInodes : List Inode) : ℕ → ℕ → Option ℕ
  | 0, _ => none
  | rounds + 1, goal =>
      if findDeferAllocInum allocInodes goal then
        skipDeferred allocInodes rounds ((goal + 1) % 2 ^ 64)
      else some goal

/-- `alloc_inum`, in so many rounds of each loop; a table without root is only there in mkfs. -/
def allocInum (table : Option Table) (allocInodes : List Inode) : ℕ → ℕ → Option Found
  | 0, _ => none
  | rounds + 1, goal =>
      match table.elim (some (.inum goal)) fun t => searchTable blockbits t rounds goal with
      | some (.inum goal) =>
          if findDeferAllocInum allocInodes goal then
            match skipDeferred allocInodes rounds ((goal + 1) % 2 ^ 64) with
            | none => none
            | some goal => allocInum table allocInodes rounds goal
          -- tux_setup_inode
          else if goal = invalidIno then some .assertion
          else some (.inum goal)
      | found => found

end

/-- A number that is stored with attributes or on the list. -/
def Taken (blockbits : ℕ) (table : Option Table) (allocInodes : List Inode) (inum : ℕ) : Prop :=
  (∃ t, table = some t ∧ t.stored blockbits inum ≠ []) ∨ ∃ i ∈ allocInodes, i.inum = inum

section
variable {t : Table} {dict : List ℕ} {leaf : Ileaf} {n bits goal m x : ℕ} {cursor : Cursor}
  {table : Option Table} {allocInodes : List Inode}

/-! ## One leaf -/

theorem findEmptyFrom_spec (left at' : ℕ) (h : at' + left = max at' dict.length) :
    at' ≤ findEmptyFrom dict left at' ∧ findEmptyFrom dict left at' ≤ max at' dict.length ∧
      limit dict (findEmptyFrom dict left at') = limit dict (findEmptyFrom dict left at' + 1) ∧
      ∀ i, at' ≤ i → i < findEmptyFrom dict left at' → limit dict i ≠ limit dict (i + 1) := by
  induction left generalizing at' with
  | zero =>
      rw [findEmptyFrom]
      refine ⟨Nat.le_refl _, Nat.le_max_left _ _, ?_, fun i h₁ h₂ => by omega⟩
      rw [limit_behind (i := at') (by omega), limit_behind (i := at' + 1) (by omega)]
  | succ left ih =>
      rw [findEmptyFrom, atdict_eq (show at' ≤ dict.length by omega),
        atdict_eq (show at' + 1 ≤ dict.length by omega)]
      split
      · next heq => exact ⟨Nat.le_refl _, Nat.le_max_left _ _, heq, fun i h₁ h₂ => by omega⟩
      · next hne =>
          obtain ⟨hle, hmax, hempty, hfull⟩ := ih (at' + 1) (by omega)
          refine ⟨by omega, by omega, hempty, fun i h₁ h₂ => ?_⟩
          rcases Nat.eq_or_lt_of_le h₁ with rfl | hlt
          · exact hne
          · exact hfull i hlt h₂

theorem Ileaf.Good.record_eq_nil (h : leaf.Good bits) :
    leaf.record x = [] ↔
      limit leaf.dict (x - leaf.ibase) = limit leaf.dict (x - leaf.ibase + 1) := by
  have hmono := h.mono (show x - leaf.ibase ≤ x - leaf.ibase + 1 from Nat.le_succ _)
  rw [← List.length_eq_zero_iff, Ileaf.record, bytes_length]
  exact ⟨fun hzero => by omega, fun heq => by omega⟩

/-- `find_empty_inode` finds the first number without attributes, which is at most the end of the
leaf or the goal itself. -/
theorem findEmptyInode_spec (h : leaf.Good bits) (hbase : leaf.ibase ≤ goal) :
    goal ≤ findEmptyInode bits leaf goal ∧
      findEmptyInode bits leaf goal ≤ max goal (leaf.ibase + leaf.icount) ∧
      leaf.record (findEmptyInode bits leaf goal) = [] ∧
      ∀ x, goal ≤ x → x < findEmptyInode bits leaf goal → leaf.record x ≠ [] := by
  have hcount := h.count
  rw [findEmptyInode]
  split
  · next hge =>
      exact ⟨Nat.le_refl _, Nat.le_max_left _ _, record_behind (by omega), fun x h₁ h₂ => by omega⟩
  · obtain ⟨hle, hmax, hempty, hfull⟩ := @findEmptyFrom_spec leaf.dict
      (leaf.icount - (goal - leaf.ibase)) (goal - leaf.ibase) (by rw [Ileaf.icount]; omega)
    dsimp only
    rw [Ileaf.icount] at hmax
    refine ⟨by omega, by rw [Ileaf.icount]; omega, ?_, fun x h₁ h₂ hx => ?_⟩
    · rw [h.record_eq_nil, Nat.add_sub_cancel_left]
      exact hempty
    · exact hfull (x - leaf.ibase) (by omega) (by omega) (h.record_eq_nil.mp hx)

/-! ## The leaves in order -/

/-- What the search in the table finds from a goal on. -/
def Searched (blockbits : ℕ) (t : Table) (goal : ℕ) : Found → Prop
  | .inum g => goal ≤ g ∧ t.stored blockbits g = [] ∧
      ∀ x, goal ≤ x → x < g → t.stored blockbits x ≠ []
  | .noSpace => ∀ x, goal ≤ x → x < 2 ^ 64 - 1 → t.stored blockbits x ≠ []
  | .assertion => False

theorem Searched.extend {g : ℕ} {r : Found} (h : Searched bits t g r) (hle : goal ≤ g)
    (hfull : ∀ x, goal ≤ x → x < g → t.stored bits x ≠ []) : Searched bits t goal r := by
  have hbelow : ∀ x, goal ≤ x → (g ≤ x → t.stored bits x ≠ []) → t.stored bits x ≠ [] := by
    intro x hx hge
    rcases Nat.lt_or_ge x g with hlt | hxg
    · exact hfull x hx hlt
    · exact hge hxg
  cases r with
  | inum r =>
      exact ⟨hle.trans h.1, h.2.1, fun x hx hlt => hbelow x hx fun hge => h.2.2 x hge hlt⟩
  | noSpace => exact fun x hx hlt => hbelow x hx fun hge => h x hge hlt
  | assertion => exact h

/-- The search from a leaf on, for a goal that no separator to the right is below. -/
theorem Table.Good.searchLeaves (h : t.Good n bits) (hbits : bits ≤ 16) (rounds : ℕ)
    (hpath : OnPath t.tree.node t.tree.depth t.tree.root cursor.path cursor.leaf)
    (hlow : lowKey t.tree.node cursor.path 0 ≤ goal)
    (hnext : ∀ y ∈ after t.tree.node t.tree.depth cursor.path, goal ≤ y.1) :
    (searchLeaves bits t rounds cursor goal = none →
      rounds ≤ (after t.tree.node t.tree.depth cursor.path).length) ∧
      ∀ r, searchLeaves bits t rounds cursor goal = some r → Searched bits t goal r := by
  induction rounds generalizing cursor goal with
  | zero => exact ⟨fun _ => Nat.zero_le _, fun r hr => by cases hr⟩
  | succ rounds ih =>
      have hsplit : t.leaves = _ := leaves_path hpath 0
      have hmem : (lowKey t.tree.node cursor.path 0, cursor.leaf) ∈ t.leaves := by
        rw [hsplit]
        exact List.mem_append_right _ List.mem_cons_self
      obtain ⟨hbase, hgood⟩ := h.leaf _ hmem
      dsimp only at hbase hgood
      have hend := h.end_le hsplit
      obtain ⟨hle, hmax, hempty, hfull⟩ := findEmptyInode_spec hgood (hbase.symm ▸ hlow)
      set g := findEmptyInode bits (t.leaf cursor.leaf) goal with hg
      have hgnext : ∀ y ∈ after t.tree.node t.tree.depth cursor.path, g ≤ y.1 := by
        intro y hy
        have h₁ := hnext y hy
        have h₂ := hend y hy
        omega
      have hbetween : ∀ x, goal ≤ x → x < g → t.stored bits x ≠ [] := by
        intro x hx hlt
        have hreached := h.reached_split hsplit (hlow.trans hx) fun y hy =>
          Nat.lt_of_lt_of_le hlt (hgnext y hy)
        rw [h.stored_eq hbits hreached]
        exact hfull x hx hlt
      have hkey : nextKey t.tree.node cursor.path =
          ((after t.tree.node t.tree.depth cursor.path).head?.map Prod.fst).getD (2 ^ 64 - 1) := by
        rw [nextKey, nextKeyp_eq h.tree.sized hpath]
      rw [Itable.searchLeaves, if_neg (by omega)]
      dsimp only
      rw [← hg]
      obtain ⟨hlast, hmore⟩ := advance_spec h.tree.sized hpath
      cases ha : after t.tree.node t.tree.depth cursor.path with
      | nil =>
          rw [ha] at hkey
          rw [hkey, hlast ha]
          change (ite (g < 2 ^ 64 - 1) _ _ = none → _) ∧ ∀ r, ite (g < 2 ^ 64 - 1) _ _ = some r → _
          split
          · refine ⟨fun hr => (by cases hr), fun r hr => ?_⟩
            cases hr
            refine ⟨hle, ?_, hbetween⟩
            rw [h.stored_eq hbits (h.reached_split hsplit (hlow.trans hle) (by simp [ha]))]
            exact hempty
          · refine ⟨fun hr => (by cases hr), fun r hr => ?_⟩
            cases hr
            exact fun x hx hlt => hbetween x hx (by omega)
      | cons y ys =>
          rw [ha] at hkey hgnext
          rw [hkey]
          change (ite (g < y.1) _ _ = none → _) ∧ ∀ r, ite (g < y.1) _ _ = some r → _
          have hsorted := h.tree.sorted
          rw [show Btree.leaves t.tree.node t.tree.depth 0 t.tree.root = _ from hsplit, ha,
            List.map_append, List.map_cons, List.map_cons] at hsorted
          have hys := (List.pairwise_cons.mp (List.pairwise_cons.mp
            (List.pairwise_append.mp hsorted).2.1).2).1
          have hright : ∀ z ∈ ys, y.1 ≤ z.1 := fun z hz => hys z.1 (List.mem_map.mpr ⟨z, hz, rfl⟩)
          split
          · next hlt =>
              refine ⟨fun hr => (by cases hr), fun r hr => ?_⟩
              cases hr
              refine ⟨hle, ?_, hbetween⟩
              rw [h.stored_eq hbits (h.reached_split hsplit (hlow.trans hle) fun z hz => ?_)]
              · exact hempty
              · rw [ha] at hz
                rcases List.mem_cons.mp hz with rfl | hz
                · exact hlt
                · exact Nat.lt_of_lt_of_le hlt (hright z hz)
          · next hge =>
              obtain ⟨cursor', hadvance, hN⟩ := hmore (by rw [ha]; exact List.cons_ne_nil y ys)
              have hafter := hN.after_eq 0
              rw [ha] at hafter
              obtain ⟨rfl, hys'⟩ := List.cons.inj hafter
              have hgy := hgnext _ List.mem_cons_self
              rw [hadvance]
              obtain ⟨hnone, hsome⟩ := @ih g cursor' hN.onPath
                (Nat.not_lt.mp hge) (by
                  rw [← hys']
                  exact fun z hz => hgnext z (List.mem_cons_of_mem _ hz))
              refine ⟨fun hr => ?_, fun r hr => (hsome r hr).extend hle hbetween⟩
              have hlen := hnone hr
              rw [← hys'] at hlen
              exact Nat.succ_le_succ hlen

/-- The search in the table finds the first number without attributes. -/
theorem Table.Good.searchTable (h : t.Good n bits) (hbits : bits ≤ 16) (rounds goal : ℕ) :
    (searchTable bits t rounds goal = none → rounds ≤ t.leaves.length) ∧
      ∀ r, searchTable bits t rounds goal = some r →
        Searched bits t goal r ∨ r = .assertion ∧ 2 ^ 64 - 1 ≤ goal := by
  obtain ⟨c, hc, hpath, hlow, hafter⟩ := probe_spec h.tree.sized h.tree.sorted (Nat.zero_le goal)
  have hsplit : t.leaves = _ := leaves_path hpath 0
  have hkey : nextKey t.tree.node c.path =
      ((after t.tree.node t.tree.depth c.path).head?.map Prod.fst).getD (2 ^ 64 - 1) := by
    rw [nextKey, nextKeyp_eq h.tree.sized hpath]
  obtain ⟨hnone, hsome⟩ := h.searchLeaves hbits rounds hpath hlow
    fun y hy => Nat.le_of_lt (hafter y hy)
  rw [Itable.searchTable, hc]
  dsimp only
  split
  · refine ⟨fun hr => (hnone hr).trans ?_, fun r hr => Or.inl (hsome r hr)⟩
    rw [hsplit, List.length_append, List.length_cons]
    omega
  · next hge =>
      refine ⟨fun hr => (by cases hr), fun r hr => ?_⟩
      cases hr
      refine Or.inr ⟨rfl, ?_⟩
      cases ha : after t.tree.node t.tree.depth c.path with
      | nil =>
          rw [hkey, ha] at hge
          exact Nat.not_lt.mp hge
      | cons y ys =>
          rw [hkey, ha] at hge
          exact absurd (hafter y (by rw [ha]; exact List.mem_cons_self)) hge

/-! ## The deferred numbers -/

theorem findDefer_iff :
    findDeferAllocInum allocInodes x = true ↔ ∃ i ∈ allocInodes, i.inum = x := by
  simp only [findDeferAllocInum, List.any_eq_true, beq_iff_eq]

/-- The loop over the list stops at the latest at a number that is not on it. -/
theorem skipDeferred_spec (rounds : ℕ) (hm : findDeferAllocInum allocInodes m = false)
    (hlt : m < 2 ^ 64) (hle : goal ≤ m) :
    (skipDeferred allocInodes rounds goal = none → rounds ≤ m - goal) ∧
      ∀ g, skipDeferred allocInodes rounds goal = some g → goal ≤ g ∧ g ≤ m := by
  induction rounds generalizing goal with
  | zero => exact ⟨fun _ => Nat.zero_le _, fun g hg => by cases hg⟩
  | succ rounds ih =>
      rw [skipDeferred]
      split
      · next hfound =>
          have hne : goal ≠ m := by
            rintro rfl
            rw [hm] at hfound
            cases hfound
          rw [Nat.mod_eq_of_lt (show goal + 1 < 2 ^ 64 by omega)]
          obtain ⟨hnone, hsome⟩ := ih (show goal + 1 ≤ m by omega)
          refine ⟨fun hr => ?_, fun g hg => ?_⟩
          · have h := hnone hr
            omega
          · have h := hsome g hg
            omega
      · refine ⟨fun hr => (nomatch hr), fun g hg => ?_⟩
        cases hg
        exact ⟨Nat.le_refl _, hle⟩

/-! ## The allocation -/

/-- The number that `alloc_inum` has to find. -/
def IsNext (blockbits : ℕ) (table : Option Table) (allocInodes : List Inode) (goal inum : ℕ) :
    Prop :=
  IsLeast {x | goal ≤ x ∧ x < 2 ^ 64 ∧ ¬ Taken blockbits table allocInodes x} inum

/-- How many rounds suffice. -/
def roundsFor (table : Option Table) (goal m : ℕ) : ℕ :=
  m - goal + table.elim 0 (fun t => t.leaves.length) + 1

/-- The search for a number that is not in the table, which may have no root. -/
theorem search_free (rounds : ℕ) (htable : ∀ t, table = some t → t.Good n bits) (hbits : bits ≤ 16)
    (hgoal : goal ≤ m) (hlt : m < 2 ^ 64) (hfree : ¬ Taken bits table allocInodes m) :
    ((table.elim (some (.inum goal)) fun t => searchTable bits t rounds goal) = none →
      rounds ≤ table.elim 0 fun t => t.leaves.length) ∧
      ∀ r, (table.elim (some (.inum goal)) fun t => searchTable bits t rounds goal) = some r →
        (∃ g, r = .inum g ∧ goal ≤ g ∧ g ≤ m ∧ ¬ ∃ t, table = some t ∧ t.stored bits g ≠ []) ∨
          (∀ inum, r ≠ .inum inum) ∧ m = 2 ^ 64 - 1 := by
  cases table with
  | none =>
      refine ⟨fun hr => (nomatch hr), fun r hr => ?_⟩
      cases hr
      exact Or.inl ⟨goal, rfl, Nat.le_refl _, hgoal, fun ⟨t, ht, _⟩ => (nomatch ht)⟩
  | some t =>
      obtain ⟨hnone, hsome⟩ := (htable t rfl).searchTable hbits rounds goal
      have hstored : t.stored bits m = [] := by
        by_contra hne
        exact hfree (Or.inl ⟨t, rfl, hne⟩)
      refine ⟨hnone, fun r hr => ?_⟩
      rcases hsome r hr with h | ⟨rfl, hlast⟩
      · cases r with
        | inum g =>
            obtain ⟨hle, hempty, hfull⟩ := h
            refine Or.inl ⟨g, rfl, hle, ?_, ?_⟩
            · by_contra hgt
              exact hfull m hgoal (Nat.not_le.mp hgt) hstored
            · rintro ⟨t', ht', hne⟩
              cases ht'
              exact hne hempty
        | noSpace =>
            refine Or.inr ⟨fun inum hr => (nomatch hr), ?_⟩
            by_contra hne
            exact h m hgoal (by omega) hstored
        | assertion => exact h.elim
      · exact Or.inr ⟨fun inum hr => (nomatch hr), by omega⟩

/-- From a goal with a free number behind it, `alloc_inum` ends, and a number that it assigns is the
next one. It fails only where that is the reserved number or the last one. -/
theorem allocInum_spec {rounds : ℕ} (htable : ∀ t, table = some t → t.Good n bits)
    (hbits : bits ≤ 16) (hm : IsNext bits table allocInodes goal m) :
    (allocInum bits table allocInodes rounds goal = none → rounds ≤ roundsFor table goal m) ∧
      ∀ r, allocInum bits table allocInodes rounds goal = some r → r = .inum m ∨
        (∀ inum, r ≠ .inum inum) ∧ (m = invalidIno ∨ m = 2 ^ 64 - 1) := by
  induction rounds generalizing goal with
  | zero => exact ⟨fun _ => Nat.zero_le _, fun r hr => by cases hr⟩
  | succ rounds ih =>
      obtain ⟨⟨hgoal, hlt, hfree⟩, hleast⟩ := hm
      have hsearch := search_free rounds htable hbits hgoal hlt hfree
      rw [allocInum]
      cases hr : table.elim (some (.inum goal)) fun t => searchTable bits t rounds goal with
      | none =>
          refine ⟨fun _ => ?_, fun r hr => (nomatch hr)⟩
          have h := hsearch.1 hr
          rw [roundsFor]
          omega
      | some r =>
          rcases hsearch.2 r hr with ⟨g, rfl, hle, hgm, hempty⟩ | ⟨hno, hlast⟩
          · dsimp only
            split
            · next hfound =>
                have hdefer : findDeferAllocInum allocInodes m = false := by
                  by_contra hne
                  exact hfree (Or.inr (findDefer_iff.mp (Bool.not_eq_false _ ▸ hne)))
                have hne : g ≠ m := by
                  rintro rfl
                  rw [hdefer] at hfound
                  cases hfound
                rw [Nat.mod_eq_of_lt (show g + 1 < 2 ^ 64 by omega)]
                obtain ⟨hnone, hsome⟩ := skipDeferred_spec rounds hdefer hlt
                  (show g + 1 ≤ m by omega)
                cases hs : skipDeferred allocInodes rounds (g + 1) with
                | none =>
                    refine ⟨fun _ => ?_, fun r hr => (nomatch hr)⟩
                    have h := hnone hs
                    rw [roundsFor]
                    omega
                | some g' =>
                    obtain ⟨hgg, hgm'⟩ := hsome g' hs
                    obtain ⟨hnone', hsome'⟩ := @ih g'
                      ⟨⟨hgm', hlt, hfree⟩, fun x hx =>
                        hleast ⟨(hle.trans (Nat.le_succ g)).trans (hgg.trans hx.1), hx.2⟩⟩
                    refine ⟨fun hr => ?_, hsome'⟩
                    have h := hnone' hr
                    rw [roundsFor] at h ⊢
                    omega
            · next hfound =>
                have heq : g = m := by
                  refine Nat.le_antisymm hgm (hleast ⟨hle, Nat.lt_of_le_of_lt hgm hlt, ?_⟩)
                  rintro (h | h)
                  · exact hempty h
                  · exact hfound (findDefer_iff.mpr h)
                subst heq
                split
                · next hinvalid =>
                    refine ⟨fun hr => (nomatch hr), fun r hr => ?_⟩
                    cases hr
                    exact Or.inr ⟨fun inum hr => (nomatch hr), Or.inl hinvalid⟩
                · refine ⟨fun hr => (nomatch hr), fun r hr => ?_⟩
                  cases hr
                  exact Or.inl rfl
          · cases r with
            | inum g => exact absurd rfl (hno g)
            | noSpace =>
                refine ⟨fun hr => (nomatch hr), fun r hr => ?_⟩
                cases hr
                exact Or.inr ⟨hno, Or.inr hlast⟩
            | assertion =>
                refine ⟨fun hr => (nomatch hr), fun r hr => ?_⟩
                cases hr
                exact Or.inr ⟨hno, Or.inr hlast⟩

/-- A number that `alloc_inum` assigns is free, also after the goal wrapped around. -/
theorem allocInum_free {rounds : ℕ} (htable : ∀ t, table = some t → t.Good n bits)
    (hbits : bits ≤ 16) (h : allocInum bits table allocInodes rounds goal = some (.inum x)) :
    ¬ Taken bits table allocInodes x := by
  induction rounds generalizing goal with
  | zero => cases h
  | succ rounds ih =>
      rw [allocInum] at h
      cases hr : table.elim (some (.inum goal)) fun t => searchTable bits t rounds goal with
      | none =>
          rw [hr] at h
          cases h
      | some r =>
          rw [hr] at h
          cases r with
          | noSpace => cases h
          | assertion => cases h
          | inum g =>
              dsimp only at h
              split at h
              · cases hs : skipDeferred allocInodes rounds ((g + 1) % 2 ^ 64) with
                | none =>
                    rw [hs] at h
                    cases h
                | some g' =>
                    rw [hs] at h
                    exact ih h
              · next hfound =>
                  split at h
                  · cases h
                  · cases h
                    rintro (⟨t, rfl, hne⟩ | hmem)
                    · rcases ((htable t rfl).searchTable hbits _ _).2 _ hr with
                        ⟨-, hempty, -⟩ | ⟨hno, -⟩
                      · exact hne hempty
                      · cases hno
                    · exact hfound (findDefer_iff.mpr hmem)

end

end Tux3.Itable
