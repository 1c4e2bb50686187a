import Tux3.Itable

/-!
# The inode table is a map

Growing and purging change the attributes of one inode number only. The invariant ties each leaf to
its separator: the base is the separator, and the dictionary ends below the next one.
-/
namespace Tux3.Itable

open Tux3.Btree

/-- The separators and leaves of a table in order. -/
def Table.leaves (t : Table) : List (ℕ × ℕ) := Btree.leaves t.tree.node t.tree.depth 0 t.tree.root

/-- The order of neighbouring leaves. -/
def Table.Apart (t : Table) (x y : ℕ × ℕ) : Prop := x.1 + (t.leaf x.2).icount ≤ y.1

structure Table.Good (t : Table) (entriesPerNode blockbits : ℕ) : Prop where
  tree : t.tree.WellFormed entriesPerNode
  leaf : ∀ x ∈ t.leaves, (t.leaf x.2).ibase = x.1 ∧ (t.leaf x.2).Good blockbits
  apart : t.leaves.Pairwise t.Apart

section
variable {t t' : Table} {n bits inum newsize offset block x : ℕ} {cursor : Cursor}
  {blocks : List ℕ}

theorem Table.Good.nodup (h : t.Good n bits) : (t.leaves.map Prod.snd).Nodup :=
  h.tree.nodup.sublist (leaves_sublist 0)

/-- A leaf and the leaves around it. -/
structure Around (t : Table) (cursor : Cursor) (inum : ℕ) (low : ℕ) (b a : List (ℕ × ℕ)) : Prop where
  split : t.leaves = b ++ (low, cursor.leaf) :: a
  low_le : low ≤ inum
  lt_next : ∀ y ∈ a, inum < y.1
  other : ∀ y ∈ b ++ a, y.2 ≠ cursor.leaf

/-- What a probe finds. -/
theorem Table.Good.around (h : t.Good n bits)
    (hcursor : probeFrom t.tree.node t.tree.depth t.tree.root inum = some cursor) :
    OnPath t.tree.node t.tree.depth t.tree.root cursor.path cursor.leaf ∧
      Around t cursor inum (lowKey t.tree.node cursor.path 0)
        (before t.tree.node t.tree.depth cursor.path 0) (after t.tree.node t.tree.depth cursor.path) ∧
      ∀ y, (∃ u ∈ nextKeyp t.tree.node cursor.path, u ≤ y) ↔
        ∃ x ∈ after t.tree.node t.tree.depth cursor.path, x.1 ≤ y := by
  obtain ⟨c, hc, hpath, hlow, hafter⟩ := probe_spec h.tree.sized h.tree.sorted (Nat.zero_le inum)
  obtain rfl := Option.some.inj (hc.symm.trans hcursor)
  have hsplit := leaves_path hpath 0
  refine ⟨hpath, ⟨hsplit, hlow, hafter, fun y hy => ?_⟩, fun y => ?_⟩
  · have hnodup := h.nodup
    rw [Table.leaves, hsplit, List.map_append, List.map_cons] at hnodup
    obtain ⟨-, h₂, h₃⟩ := List.nodup_append.mp hnodup
    rcases List.mem_append.mp hy with hy | hy
    · exact h₃ y.2 (List.mem_map.mpr ⟨y, hy, rfl⟩) _ List.mem_cons_self
    · intro heq
      exact (List.nodup_cons.mp h₂).1 (heq ▸ List.mem_map.mpr ⟨y, hy, rfl⟩)
  · rw [nextKeyp_eq h.tree.sized hpath]
    have hsorted := h.tree.sorted
    rw [hsplit, List.map_append, List.map_cons] at hsorted
    have hafter := (List.pairwise_cons.mp (List.pairwise_append.mp hsorted).2.1).2
    cases ha : after t.tree.node t.tree.depth c.path with
    | nil => simp
    | cons z zs =>
        rw [ha, List.map_cons] at hafter
        constructor
        · rintro ⟨u, hu, huy⟩
          cases hu
          exact ⟨z, List.mem_cons_self, huy⟩
        · rintro ⟨w, hw, hwy⟩
          refine ⟨z.1, rfl, ?_⟩
          rcases List.mem_cons.mp hw with rfl | hw
          · exact hwy
          · exact Nat.le_trans
              ((List.pairwise_cons.mp hafter).1 w.1 (List.mem_map.mpr ⟨w, hw, rfl⟩)) hwy

theorem Table.Good.reached_split {low : ℕ} {b a : List (ℕ × ℕ)} (h : t.Good n bits)
    (hsplit : t.leaves = b ++ (low, block) :: a) (hlow : low ≤ inum)
    (hnext : ∀ y ∈ a, inum < y.1) : t.tree.reached inum = some block := by
  have hright : a.filter (fun y => decide (y.1 ≤ inum)) = [] := by
    refine List.filter_eq_nil_iff.mpr fun y hy => ?_
    have hlt := hnext y hy
    simp only [decide_eq_true_eq]
    omega
  have hsplit : Btree.leaves t.tree.node t.tree.depth 0 t.tree.root = _ := hsplit
  rw [h.tree.reached_eq, hsplit, List.filter_append, List.filter_cons_of_pos
    (by simpa using hlow), hright, List.getLast?_append]
  rfl

theorem Around.reached {low : ℕ} {b a : List (ℕ × ℕ)} (h : Around t cursor inum low b a)
    (hg : t.Good n bits) : t.tree.reached inum = some cursor.leaf :=
  hg.reached_split h.split h.low_le h.lt_next

theorem Table.Good.reached (h : t.Good n bits) (hx : t.tree.reached x = some block) :
    ∃ low b a, t.leaves = b ++ (low, block) :: a ∧ (t.leaf block).ibase = low ∧ low ≤ x ∧
      (t.leaf block).Good bits ∧ ∀ y ∈ a, x < y.1 := by
  obtain ⟨c, hc, hpath, hlow, hafter⟩ := probe_spec h.tree.sized h.tree.sorted (Nat.zero_le x)
  have hblock : c.leaf = block := by
    rw [Tree.reached, hc] at hx
    exact Option.some.inj hx
  subst hblock
  have hsplit : t.leaves = _ := leaves_path hpath 0
  have hleaf := h.leaf (lowKey t.tree.node c.path 0, c.leaf) (by
    rw [hsplit]
    exact List.mem_append_right _ List.mem_cons_self)
  exact ⟨_, _, _, hsplit, hleaf.1, hlow, hleaf.2, hafter⟩

theorem Table.Good.lookup_eq (h : t.Good n bits) (hbits : bits ≤ 16)
    (hx : t.tree.reached x = some block) :
    t.lookup bits x = if x < (t.leaf block).ibase + entriesPerLeaf bits then
      some ((t.leaf block).record x) else none := by
  obtain ⟨low, b, a, -, hbase, hlow, hgood, -⟩ := h.reached hx
  have hle : (t.leaf block).ibase ≤ x := hbase ▸ hlow
  rw [Table.lookup, hx]
  dsimp only
  by_cases hlt : x < (t.leaf block).ibase + entriesPerLeaf bits
  · obtain ⟨off, hlookup, hbytes⟩ := hgood.lookup hbits hle hlt
    rw [if_pos hlt, hlookup, Option.map_some, hbytes]
  · rw [if_neg hlt, ileafLookup, if_neg fun hand => hlt hand.2]
    rfl

theorem split_unique {l b a b' a' : List (ℕ × ℕ)} {low low' : ℕ} (h : (l.map Prod.snd).Nodup)
    (h₁ : l = b ++ (low, block) :: a) (h₂ : l = b' ++ (low', block) :: a') :
    b = b' ∧ low = low' ∧ a = a' := by
  rw [h₁, List.map_append, List.map_cons] at h
  obtain ⟨-, hla, hba⟩ := List.nodup_append.mp h
  have hb : (low', block) ∉ b := fun hmem =>
    hba block (List.mem_map.mpr ⟨_, hmem, rfl⟩) block List.mem_cons_self rfl
  have ha : (low', block) ∉ a := fun hmem =>
    (List.nodup_cons.mp hla).1 (List.mem_map.mpr ⟨_, hmem, rfl⟩)
  obtain ⟨hbb, hxx, haa⟩ := (List.append_cons_inj_of_notMem hb ha).mp (h₁.symm.trans h₂)
  exact ⟨hbb, congrArg Prod.fst hxx, haa⟩

/-! ## Changing a leaf -/

theorem apart_congr {l : List (ℕ × ℕ)} (h : l.Pairwise t.Apart)
    (hsame : ∀ y ∈ l, t'.leaf y.2 = t.leaf y.2) : l.Pairwise t'.Apart := by
  refine h.imp_of_mem fun {x y} hx _ hxy => ?_
  rw [Table.Apart, hsame x hx]
  exact hxy

theorem Table.Good.update {low : ℕ} {b a : List (ℕ × ℕ)} {leaf : Ileaf} (h : t.Good n bits)
    (hsplit : t.leaves = b ++ (low, block) :: a) (hother : ∀ y ∈ b ++ a, y.2 ≠ block)
    (hbase : leaf.ibase = low) (hgood : leaf.Good bits)
    (hend : ∀ y ∈ a, low + leaf.icount ≤ y.1) :
    ({ t with leaf := Function.update t.leaf block leaf } : Table).Good n bits := by
  have hsame : ∀ y ∈ b ++ a, Function.update t.leaf block leaf y.2 = t.leaf y.2 :=
    fun y hy => Function.update_of_ne (hother y hy) _ _
  have hold : t.leaves.Pairwise t.Apart := h.apart
  rw [hsplit] at hold
  obtain ⟨hb, hla, hba⟩ := List.pairwise_append.mp hold
  obtain ⟨-, ha⟩ := List.pairwise_cons.mp hla
  have hleaves : ({ t with leaf := Function.update t.leaf block leaf } : Table).leaves =
      b ++ (low, block) :: a := hsplit
  refine ⟨h.tree, fun x hx => ?_, ?_⟩
  · rw [hleaves] at hx
    have hx' : x ∈ t.leaves := hsplit ▸ hx
    dsimp only
    by_cases hxb : x.2 = block
    · have hxlow : x = (low, block) := by
        rcases List.mem_append.mp hx with hx | hx
        · exact absurd hxb (hother x (List.mem_append_left _ hx))
        · rcases List.mem_cons.mp hx with hx | hx
          · exact hx
          · exact absurd hxb (hother x (List.mem_append_right _ hx))
      rw [hxb, Function.update_self, hxlow]
      exact ⟨hbase, hgood⟩
    · rw [Function.update_of_ne hxb]
      exact h.leaf x hx'
  · rw [hleaves]
    refine List.pairwise_append.mpr ⟨apart_congr hb fun y hy =>
      hsame y (List.mem_append_left _ hy), List.pairwise_cons.mpr ⟨fun y hy => ?_,
        apart_congr ha fun y hy => hsame y (List.mem_append_right _ hy)⟩, fun x hx y hy => ?_⟩
    · rw [Table.Apart]
      dsimp only
      rw [Function.update_self]
      exact hend y hy
    · rw [Table.Apart]
      dsimp only
      rw [hsame x (List.mem_append_left _ hx)]
      exact hba x hx y hy

theorem Table.Good.end_le {low : ℕ} {b a : List (ℕ × ℕ)} (h : t.Good n bits)
    (hsplit : t.leaves = b ++ (low, block) :: a) :
    ∀ y ∈ a, low + (t.leaf block).icount ≤ y.1 := by
  have hold := h.apart
  rw [hsplit] at hold
  exact (List.pairwise_cons.mp (List.pairwise_append.mp hold).2.1).1

/-- What `leaf_resize` does to the table. -/
theorem Table.Good.resize (h : t.Good n bits) (hbits : bits ≤ 16) {low : ℕ} {b a : List (ℕ × ℕ)}
    (har : Around t cursor inum low b a) (hnew : 0 < newsize) (hint : newsize < 2 ^ 31)
    (hr : resizeAt bits t cursor inum newsize = some (t', block, offset)) :
    t'.Good n bits ∧ t'.tree = t.tree ∧ block = cursor.leaf ∧
      (∀ y, y ≠ cursor.leaf → t'.leaf y = t.leaf y) ∧
      (t'.leaf block).ibase = low ∧ (t'.leaf block).Good bits ∧
      inum < low + entriesPerLeaf bits ∧
      ileafLookup bits (t'.leaf block) inum = some (newsize, offset) ∧
      (t'.leaf block).record inum = bytes (t'.leaf block).table offset newsize ∧
      (∀ m, m ≤ newsize → m ≤ ((t.leaf cursor.leaf).record inum).length →
        ((t'.leaf block).record inum).take m = ((t.leaf cursor.leaf).record inum).take m) ∧
      ∀ x, low ≤ x → x ≠ inum → (t'.leaf block).record x = (t.leaf cursor.leaf).record x := by
  obtain ⟨⟨off, leaf'⟩, hsome, heq⟩ := Option.map_eq_some_iff.mp hr
  obtain ⟨rfl, hpair⟩ := Prod.mk.inj heq
  obtain ⟨rfl, rfl⟩ := Prod.mk.inj hpair
  obtain ⟨hbase, hgood⟩ := h.leaf (low, cursor.leaf) (by
    rw [har.split]
    exact List.mem_append_right _ List.mem_cons_self)
  dsimp only at hbase hgood
  obtain ⟨hbase', hepl, hgood', hcount, hlookup, hrecord, htake, hothers⟩ :=
    resize_spec hgood hbits (hbase ▸ har.low_le) hnew hint hsome
  rw [hbase] at hbase' hepl hcount hothers
  refine ⟨h.update har.split har.other hbase' hgood' fun y hy => ?_, rfl, rfl,
    fun y hy => Function.update_of_ne hy _ _, ?_⟩
  · have h₁ := h.end_le har.split y hy
    have h₂ := har.lt_next y hy
    have h₃ := har.low_le
    rw [hcount]
    omega
  · dsimp only
    rw [Function.update_self]
    exact ⟨hbase', hgood', hepl, hlookup, hrecord, htake, hothers⟩

/-! ## Splitting a leaf -/

theorem insertLeaf_leaf {t t' : Tree} {cursor cursor' : Cursor} {k leafbuf : ℕ} {keep : Bool}
    (h : insertLeaf t n blocks cursor k leafbuf keep = some (t', cursor')) :
    cursor'.leaf = if keep then cursor.leaf else leafbuf := by
  obtain ⟨s, -, hcase⟩ := insertLeaf_cases h
  rcases hcase with ⟨-, -, rfl⟩ | ⟨c, newroot, rest, -, -, -, rfl⟩
  · rfl
  · rfl

/-- `btree_leaf_split` with the leaf and its parts. -/
theorem btreeLeafSplit_cases {cursor' : Cursor}
    (h : btreeLeafSplit bits n t blocks cursor inum = some (t', cursor'))
    (hbase : (t.leaf cursor.leaf).ibase ≤ inum) :
    ∃ newbuf rest tree, blocks = newbuf :: rest ∧
      insertLeaf t.tree n rest cursor (ileafSplit bits (t.leaf cursor.leaf) inum).2.ibase newbuf
        false = some (tree, cursor') ∧
      cursor'.leaf = newbuf ∧
      t' = ⟨tree, Function.update (Function.update t.leaf newbuf
        (ileafSplit bits (t.leaf cursor.leaf) inum).2) cursor.leaf
          (ileafSplit bits (t.leaf cursor.leaf) inum).1⟩ := by
  have hle := (@split_bases _ bits _ hbase).2.1
  unfold btreeLeafSplit at h
  cases blocks with
  | nil => cases h
  | cons newbuf rest =>
      dsimp only at h
      rw [decide_eq_false (Nat.not_lt.mpr hle)] at h
      split at h
      · cases h
      · next tree c hinsert =>
          cases h
          exact ⟨newbuf, rest, tree, rfl, hinsert, insertLeaf_leaf hinsert, rfl⟩

theorem Table.Good.newLeaf (h : t.Good n bits)
    (hcursor : probeFrom t.tree.node t.tree.depth t.tree.root inum = some cursor)
    (hfresh : (blocks ++ blocksOf t.tree.node t.tree.depth t.tree.root).Nodup) {cursor' : Cursor}
    (hs : btreeLeafSplit bits n t blocks cursor inum = some (t', cursor')) :
    t'.leaf cursor'.leaf = (ileafSplit bits (t.leaf cursor.leaf) inum).2 := by
  obtain ⟨-, har, -⟩ := h.around hcursor
  have hmem : (lowKey t.tree.node cursor.path 0, cursor.leaf) ∈ t.leaves := by
    rw [har.split]
    exact List.mem_append_right _ List.mem_cons_self
  have hle : (t.leaf cursor.leaf).ibase ≤ inum := (h.leaf _ hmem).1 ▸ har.low_le
  obtain ⟨newbuf, rest, tree, rfl, -, hleaf, rfl⟩ := btreeLeafSplit_cases hs hle
  have hne : newbuf ≠ cursor.leaf := by
    rw [List.cons_append, List.nodup_cons] at hfresh
    rintro rfl
    exact hfresh.1 (List.mem_append_right _
      ((leaves_sublist 0).subset (List.mem_map.mpr ⟨_, hmem, rfl⟩)))
  rw [hleaf]
  dsimp only
  rw [Function.update_of_ne hne, Function.update_self]

/-- The leaves around a split, in whatever tree. -/
theorem Table.Good.splitLeaves {newbuf : ℕ} (h : t.Good n bits) (hbits : bits ≤ 16)
    (hcursor : probeFrom t.tree.node t.tree.depth t.tree.root inum = some cursor)
    (hfresh : newbuf ∉ blocksOf t.tree.node t.tree.depth t.tree.root) {tree : Tree}
    (hw : tree.WellFormed n)
    (hsub : (Btree.leaves tree.node tree.depth 0 tree.root).Sublist
      (before t.tree.node t.tree.depth cursor.path 0 ++
        (lowKey t.tree.node cursor.path 0, cursor.leaf) ::
          ((ileafSplit bits (t.leaf cursor.leaf) inum).2.ibase, newbuf) ::
            after t.tree.node t.tree.depth cursor.path)) :
    (⟨tree, Function.update (Function.update t.leaf newbuf
      (ileafSplit bits (t.leaf cursor.leaf) inum).2) cursor.leaf
        (ileafSplit bits (t.leaf cursor.leaf) inum).1⟩ : Table).Good n bits := by
  obtain ⟨-, har, -⟩ := h.around hcursor
  set low := lowKey t.tree.node cursor.path 0 with hlow
  set b := before t.tree.node t.tree.depth cursor.path 0 with hb
  set a := after t.tree.node t.tree.depth cursor.path with ha
  obtain ⟨hbase, hgood⟩ := h.leaf (low, cursor.leaf) (by
    rw [har.split]
    exact List.mem_append_right _ List.mem_cons_self)
  dsimp only at hbase hgood
  have hle : (t.leaf cursor.leaf).ibase ≤ inum := hbase ▸ har.low_le
  obtain ⟨hbl, hrle, -, hfirst, hlast, hlc, -, -, -, -⟩ := @split_bases _ bits _ hle
  obtain ⟨hgl, hgr⟩ := hgood.split hbits hle
  set left := (ileafSplit bits (t.leaf cursor.leaf) inum).1 with hleft
  set right := (ileafSplit bits (t.leaf cursor.leaf) inum).2 with hrightdef
  rw [hbase] at hbl hfirst hlast
  have hmem : ∀ y ∈ b ++ a, y ∈ t.leaves := by
    intro y hy
    rw [har.split]
    rcases List.mem_append.mp hy with hy | hy
    · exact List.mem_append_left _ hy
    · exact List.mem_append_right _ (List.mem_cons_of_mem _ hy)
  have hnewbuf : ∀ y ∈ t.leaves, y.2 ≠ newbuf := by
    rintro y hy rfl
    exact hfresh ((leaves_sublist 0).subset (List.mem_map.mpr ⟨y, hy, rfl⟩))
  have hself : cursor.leaf ≠ newbuf := hnewbuf (low, cursor.leaf) (by
    rw [har.split]
    exact List.mem_append_right _ List.mem_cons_self)
  set leaf := Function.update (Function.update t.leaf newbuf right) cursor.leaf left with hleafdef
  have hl : leaf cursor.leaf = left := Function.update_self _ _ _
  have hr : leaf newbuf = right := by
    rw [hleafdef, Function.update_of_ne (Ne.symm hself), Function.update_self]
  have hsame : ∀ y ∈ b ++ a, leaf y.2 = t.leaf y.2 := fun y hy => by
    rw [hleafdef, Function.update_of_ne (har.other y hy),
      Function.update_of_ne (hnewbuf y (hmem y hy))]
  have hend := h.end_le har.split
  have hold : t.leaves.Pairwise t.Apart := h.apart
  rw [har.split] at hold
  obtain ⟨hpb, hpla, hpba⟩ := List.pairwise_append.mp hold
  obtain ⟨hpl, hpa⟩ := List.pairwise_cons.mp hpla
  refine ⟨hw, fun x hx => ?_, List.Pairwise.sublist hsub ?_⟩
  · have hkeep : ∀ y ∈ b ++ a, (leaf y.2).ibase = y.1 ∧ (leaf y.2).Good bits := fun y hy => by
      rw [hsame y hy]
      exact h.leaf y (hmem y hy)
    rcases List.mem_append.mp (hsub.subset hx) with hx | hx
    · exact hkeep x (List.mem_append_left _ hx)
    · rcases List.mem_cons.mp hx with rfl | hx
      · dsimp only
        rw [hl]
        exact ⟨hbl, hgl⟩
      · rcases List.mem_cons.mp hx with rfl | hx
        · dsimp only
          rw [hr]
          exact ⟨rfl, hgr⟩
        · exact hkeep x (List.mem_append_right _ hx)
  · refine List.pairwise_append.mpr ⟨apart_congr hpb fun y hy =>
      hsame y (List.mem_append_left _ hy), List.pairwise_cons.mpr ⟨fun y hy => ?_,
        List.pairwise_cons.mpr ⟨fun y hy => ?_, apart_congr hpa fun y hy =>
          hsame y (List.mem_append_right _ hy)⟩⟩, fun x hx y hy => ?_⟩
    · rw [Table.Apart]
      dsimp only
      rw [hl]
      rcases List.mem_cons.mp hy with rfl | hy
      · exact hfirst
      · have h₁ := hend y hy
        omega
    · rw [Table.Apart]
      dsimp only
      rw [hr]
      have h₁ := hend y hy
      have h₂ := har.lt_next y hy
      omega
    · rw [Table.Apart]
      dsimp only
      rw [hsame x (List.mem_append_left _ hx)]
      have h₁ : x.1 + (t.leaf x.2).icount ≤ low := hpba x hx (low, cursor.leaf) List.mem_cons_self
      rcases List.mem_cons.mp hy with rfl | hy
      · exact h₁
      · rcases List.mem_cons.mp hy with rfl | hy
        · dsimp only
          omega
        · exact hpba x hx y (List.mem_cons_of_mem _ hy)

/-- The table after a split at a number above the base: the same records, in two leaves. -/
theorem Table.Good.leafSplit (h : t.Good n bits) (hn : 2 ≤ n) (hbits : bits ≤ 16)
    (hcursor : probeFrom t.tree.node t.tree.depth t.tree.root inum = some cursor)
    (hfresh : (blocks ++ blocksOf t.tree.node t.tree.depth t.tree.root).Nodup)
    (hne : (t.leaf cursor.leaf).ibase ≠ (ileafSplit bits (t.leaf cursor.leaf) inum).2.ibase)
    {cursor' : Cursor}
    (hs : btreeLeafSplit bits n t blocks cursor inum = some (t', cursor')) :
    t'.Good n bits ∧
      (∃ b a, Around t' cursor' inum (ileafSplit bits (t.leaf cursor.leaf) inum).2.ibase b a) ∧
      t'.leaf cursor'.leaf = (ileafSplit bits (t.leaf cursor.leaf) inum).2 ∧
      ∀ x blk, t.tree.reached x = some blk → ∃ blk', t'.tree.reached x = some blk' ∧
        (t.leaf blk).ibase ≤ (t'.leaf blk').ibase ∧
        (t'.leaf blk').record x = (t.leaf blk).record x := by
  obtain ⟨hpath, har, hright⟩ := h.around hcursor
  set low := lowKey t.tree.node cursor.path 0 with hlow
  set b := before t.tree.node t.tree.depth cursor.path 0 with hb
  set a := after t.tree.node t.tree.depth cursor.path with ha
  obtain ⟨hbase, hgood⟩ := h.leaf (low, cursor.leaf) (by
    rw [har.split]
    exact List.mem_append_right _ List.mem_cons_self)
  dsimp only at hbase hgood
  have hle : (t.leaf cursor.leaf).ibase ≤ inum := hbase ▸ har.low_le
  obtain ⟨newbuf, rest, tree, rfl, hinsert, hleaf, rfl⟩ := btreeLeafSplit_cases hs hle
  obtain ⟨hbl, hrle, -, hfirst, hlast, hlc, -, -, -, -⟩ := @split_bases _ bits _ hle
  obtain ⟨hgl, hgr⟩ := hgood.split hbits hle
  have hparts := fun x hx => record_split (x := x) hgood hbits hle hx
  set left := (ileafSplit bits (t.leaf cursor.leaf) inum).1 with hleft
  set right := (ileafSplit bits (t.leaf cursor.leaf) inum).2 with hrightdef
  have hfresh' : newbuf ∉ blocksOf t.tree.node t.tree.depth t.tree.root := by
    rw [List.cons_append, List.nodup_cons] at hfresh
    exact fun hmem => hfresh.1 (List.mem_append_right _ hmem)
  have hnewbuf : ∀ y ∈ t.leaves, y.2 ≠ newbuf := by
    rintro y hy rfl
    exact hfresh' ((leaves_sublist 0).subset (List.mem_map.mpr ⟨y, hy, rfl⟩))
  have hself : cursor.leaf ≠ newbuf := hnewbuf (low, cursor.leaf) (by
    rw [har.split]
    exact List.mem_append_right _ List.mem_cons_self)
  rw [hbase] at hbl hfirst hlast hne
  have hnext : ∀ u ∈ nextKeyp t.tree.node cursor.path, right.ibase < u := by
    intro u hu
    by_contra hnot
    obtain ⟨y, hy, hyu⟩ := (hright right.ibase).mp ⟨u, hu, Nat.not_lt.mp hnot⟩
    have hlt := har.lt_next y hy
    omega
  obtain ⟨hleaves, -, -⟩ := insertLeaf_tree hn h.tree hpath hfresh hinsert
  obtain ⟨hw, -, hreached⟩ := insertLeaf_after hn h.tree hcursor hfresh
    (show low < right.ibase by omega) hnext hinsert
  have hleaves' : Btree.leaves tree.node tree.depth 0 tree.root =
      b ++ (low, cursor.leaf) :: (right.ibase, newbuf) :: a := hleaves
  have hgood' := h.splitLeaves hbits hcursor hfresh' hw (hleaves ▸ List.Sublist.refl _)
  rw [← hleft, ← hrightdef] at hgood'
  set leaf := Function.update (Function.update t.leaf newbuf right) cursor.leaf left with hleafdef
  have hl : leaf cursor.leaf = left := Function.update_self _ _ _
  have hr : leaf newbuf = right := by
    rw [hleafdef, Function.update_of_ne (Ne.symm hself), Function.update_self]
  refine ⟨hgood', ?_, ?_, fun x blk hx => ?_⟩
  · refine ⟨b ++ [(low, cursor.leaf)], a, ?_, hrle, har.lt_next, fun y hy => ?_⟩
    · rw [Table.leaves, hleaves', hleaf, List.append_assoc]
      rfl
    · rw [hleaf]
      rcases List.mem_append.mp hy with hy | hy
      · rcases List.mem_append.mp hy with hy | hy
        · exact hnewbuf y (by rw [har.split]; exact List.mem_append_left _ hy)
        · rw [List.mem_singleton.mp hy]
          exact hself
      · refine hnewbuf y ?_
        rw [har.split]
        exact List.mem_append_right _ (List.mem_cons_of_mem _ hy)
  · rw [hleaf]
    exact hr
  · have htree : (⟨tree, leaf⟩ : Table).tree.reached x = _ := hreached x
    rw [htree]
    by_cases hin : right.ibase ≤ x ∧ ∀ u ∈ nextKeyp t.tree.node cursor.path, x < u
    · have harx : Around t cursor x low b a := by
        refine ⟨har.split, by omega, fun y hy => ?_, har.other⟩
        by_contra hnot
        obtain ⟨u, hu, hux⟩ := (hright x).mpr ⟨y, hy, Nat.not_lt.mp hnot⟩
        have hlt := hin.2 u hu
        omega
      obtain rfl := Option.some.inj ((harx.reached h).symm.trans hx)
      rw [if_pos hin]
      refine ⟨newbuf, rfl, ?_, ?_⟩
      · dsimp only
        rw [hr, hbase]
        omega
      · dsimp only
        rw [hr]
        exact (hparts x (hbase ▸ harx.low_le)).2 hin.1
    · rw [if_neg hin]
      refine ⟨blk, hx, ?_⟩
      obtain ⟨low', b', a', hsplit', hbase', hlow', -, hlt'⟩ := h.reached hx
      dsimp only
      by_cases hblk : blk = cursor.leaf
      · subst hblk
        obtain ⟨-, rfl, rfl⟩ := split_unique h.nodup har.split hsplit'
        have hxr : x < right.ibase := by
          by_contra hge
          refine hin ⟨Nat.not_lt.mp hge, fun u hu => ?_⟩
          by_contra hux
          obtain ⟨y, hy, hyx⟩ := (hright x).mp ⟨u, hu, Nat.not_lt.mp hux⟩
          have hlt := hlt' y hy
          omega
        rw [hl, hbl, hbase]
        exact ⟨Nat.le_refl _, (hparts x (hbase ▸ hlow')).1 hxr⟩
      · have hmem : (low', blk) ∈ t.leaves := by
          rw [hsplit']
          exact List.mem_append_right _ List.mem_cons_self
        rw [hleafdef, Function.update_of_ne hblk, Function.update_of_ne (hnewbuf _ hmem)]
        exact ⟨Nat.le_refl _, rfl⟩

end

end Tux3.Itable
