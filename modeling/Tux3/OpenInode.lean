import Tux3.ItableRuns

/-!
# Opening an inode

`open_inode` up to the attributes. A probe ends at the last leaf that does not begin above the inode
number, however far below it; `ileaf_lookup` asserts that the leaf has a place for the number.
-/
namespace Tux3.Itable

open Tux3.Btree

section
variable (blockbits : ℕ) (table : Option Table) (inum : ℕ)

/-- `open_inode`: the attributes that are found, none for `-ENOENT`; `none` where an assertion
fails, of `probe` for a table without root. -/
def openInode : Option (Option (List UInt8)) :=
  match table with
  | none => none
  | some t =>
      match t.lookup blockbits inum with
      | none => none
      | some [] => some none
      | some attrs => some (some attrs)

/-- The record of an inode number in a leaf of the table. -/
def Records (data : List UInt8) : Prop :=
  ∃ t, table = some t ∧ ∃ x ∈ t.leaves, x.1 ≤ inum ∧ inum < x.1 + (t.leaf x.2).icount ∧
    (t.leaf x.2).record inum = data ∧ data ≠ []

/-- An inode number with a record is found, and any other is not found. -/
def OpensCleanly : Prop :=
  (∀ data, Records table inum data → openInode blockbits table inum = some (some data)) ∧
    ((∀ data, ¬ Records table inum data) → openInode blockbits table inum = some none)

/-- A leaf of the table has a place for the inode number. -/
def HasPlace : Prop :=
  ∃ t, table = some t ∧ ∃ x ∈ t.leaves, x.1 ≤ inum ∧ inum < x.1 + entriesPerLeaf blockbits

end

section
variable {t : Table} {n bits inum block : ℕ} {data : List UInt8}

theorem Table.Good.reached_record (h : t.Good n bits) {x : ℕ × ℕ} (hx : x ∈ t.leaves)
    (hle : x.1 ≤ inum) (hlt : inum < x.1 + (t.leaf x.2).icount) :
    t.tree.reached inum = some x.2 := by
  obtain ⟨b, a, hsplit⟩ := List.append_of_mem hx
  refine h.reached_split hsplit hle fun y hy => ?_
  have hapart := h.apart
  rw [hsplit] at hapart
  have hxy := (List.pairwise_cons.mp (List.pairwise_append.mp hapart).2.1).1 y hy
  exact Nat.lt_of_lt_of_le hlt hxy

theorem Table.Good.le_reached (h : t.Good n bits) (hreached : t.tree.reached inum = some block)
    {x : ℕ × ℕ} (hx : x ∈ t.leaves) (hle : x.1 ≤ inum) : x.1 ≤ (t.leaf block).ibase := by
  obtain ⟨low, b, a, hsplit, hbase, -, -, hnext⟩ := h.reached hreached
  rw [hbase]
  rw [hsplit] at hx
  rcases List.mem_append.mp hx with hx | hx
  · have hapart := h.apart
    rw [hsplit] at hapart
    have hxy := (List.pairwise_append.mp hapart).2.2 x hx _ List.mem_cons_self
    exact Nat.le_trans (Nat.le_add_right _ _) hxy
  · rcases List.mem_cons.mp hx with rfl | hx
    · exact Nat.le_refl _
    · exact absurd hle (Nat.not_le.mpr (hnext x hx))

theorem openInode_eq (h : t.Good n bits) (hbits : bits ≤ 16)
    (hreached : t.tree.reached inum = some block) :
    openInode bits (some t) inum =
      if inum < (t.leaf block).ibase + entriesPerLeaf bits then
        some (if (t.leaf block).record inum = [] then none else some ((t.leaf block).record inum))
      else none := by
  rw [openInode, h.lookup_eq hbits hreached]
  by_cases hlt : inum < (t.leaf block).ibase + entriesPerLeaf bits
  · rw [if_pos hlt, if_pos hlt]
    cases (t.leaf block).record inum with
    | nil => rfl
    | cons b l => rfl
  · rw [if_neg hlt, if_neg hlt]

/-- `open_inode` finds what is stored, and nothing else without an assertion, just for the inode
numbers that have a place in a leaf. -/
theorem openInode_clean (hn : 2 ≤ n) (hbits : 4 ≤ bits ∧ bits ≤ 16) {table : Option Table}
    (hrun : ∀ t, table = some t → Run bits n t) (inum : ℕ) :
    OpensCleanly bits table inum ↔ HasPlace bits table inum := by
  cases table with
  | none =>
      refine ⟨fun h => ?_, ?_⟩
      · have hopen := h.2 fun data hrec => (nomatch hrec.choose_spec.1)
        exact (nomatch hopen)
      · rintro ⟨t, ht, -⟩
        exact (nomatch ht)
  | some t =>
      have h := run_good (hrun t rfl) hn hbits.2 hbits.1
      obtain ⟨block, hreached⟩ := h.reached_some inum
      obtain ⟨low, b, a, hsplit, hbase, hlow, hgood, -⟩ := h.reached hreached
      have hmem : (low, block) ∈ t.leaves := by
        rw [hsplit]
        exact List.mem_append_right _ List.mem_cons_self
      have hopen := openInode_eq h hbits.2 hreached
      constructor
      · rintro ⟨-, habsent⟩
        refine ⟨t, rfl, (low, block), hmem, hlow, ?_⟩
        by_contra hout
        have hcount := hgood.count
        have hrec : ∀ data, ¬ Records (some t) inum data := by
          rintro data ⟨t', ht, x, hx, hle, hlt, -⟩
          cases ht
          have hsame := h.reached_record hx hle hlt
          rw [hreached] at hsame
          cases hsame
          have hxle := h.le_reached hreached hx hle
          dsimp only at hout
          omega
        have hnone := habsent hrec
        rw [hopen, if_neg (by rw [hbase]; exact hout)] at hnone
        cases hnone
      · rintro ⟨t', ht, x, hx, hle, hlt⟩
        cases ht
        have hxle := h.le_reached hreached hx hle
        rw [if_pos (by omega)] at hopen
        refine ⟨?_, fun habsent => ?_⟩
        · rintro data ⟨t', ht, y, hy, hyle, hylt, rfl, hne⟩
          cases ht
          have hsame := h.reached_record hy hyle hylt
          rw [hreached] at hsame
          cases hsame
          rw [hopen, if_neg hne]
        · by_cases hrec : (t.leaf block).record inum = []
          · rw [hopen, if_pos hrec]
          · have hin : inum - (t.leaf block).ibase < (t.leaf block).icount := by
              by_contra hge
              exact hrec (record_behind (Nat.le_of_not_lt hge))
            exact absurd ⟨t, rfl, (low, block), hmem, hlow, by dsimp only; omega, rfl, hrec⟩
              (habsent _)

end

/-- The table without inodes. -/
def noInodes : Table := allocEmptyBtree (fun _ => []) (fun _ => ileafInit) 1 2

/-- The attributes of a stored inode are found, and the number behind it is not. -/
theorem openInode_clean_stored : ∃ t, Run 12 2 t ∧ OpensCleanly 12 (some t) 3 ∧
    openInode 12 (some t) 3 = some (some [7, 8, 9]) ∧ OpensCleanly 12 (some t) 4 := by
  have h₀ : Run 12 2 noInodes := Run.start _ _ (by decide)
  have h₁ := @Run.expand _ _ _ _ [] _ 3 3 _ _ [7, 8, 9] h₀ rfl (by decide) (by decide)
    (by decide) rfl rfl
  have hclean (inum : ℕ) := @openInode_clean 2 12 (by decide) (by decide) (some _)
    (fun t ht => Option.some.inj ht ▸ h₁) inum
  exact ⟨_, h₁, (hclean 3).mpr ⟨_, rfl, (0, 2), by decide, by decide, by decide⟩, rfl,
    (hclean 4).mpr ⟨_, rfl, (0, 2), by decide, by decide, by decide⟩⟩

/-- The first inode number that the only leaf has no place for fails an assertion. -/
theorem openInode_assertion : Run 12 2 noInodes ∧ openInode 12 (some noInodes) 64 = none ∧
    ¬ OpensCleanly 12 (some noInodes) 64 := by
  have hopen : openInode 12 (some noInodes) 64 = none := rfl
  refine ⟨Run.start _ _ (by decide), hopen, fun hclean => ?_⟩
  have hnone := hclean.2 ?_
  · rw [hopen] at hnone
    cases hnone
  · rintro data ⟨t, ht, x, hx, hle, hlt, -⟩
    cases ht
    have hleaves : noInodes.leaves = [(0, 2)] := rfl
    rw [hleaves] at hx
    cases List.mem_singleton.mp hx
    exact absurd hlt (by decide)

end Tux3.Itable
