import Tux3.ItableRuns

/-!
# Growing the inode table in a run

The results about `tree_expand` in every run: it keeps the table a map, its second attempt has room
exactly when the higher inode numbers of the leaf leave it, and an error loses what was moved
before it.
-/
namespace Tux3.Itable

open Tux3.Btree

section
variable {t t' : Table} {n bits inum newsize offset block : ℕ} {cursor : Cursor} {blocks : List ℕ}

/-! ## The shape of the leaves -/

theorem Ileaf.Good.dict_sorted {leaf : Ileaf} (h : leaf.Good bits) :
    leaf.dict.Pairwise (· ≤ ·) := by
  rw [List.pairwise_iff_getElem]
  intro i j hi hj hij
  have hlimit : ∀ m (hm : m < leaf.dict.length), limit leaf.dict (m + 1) = leaf.dict[m] := by
    intro m hm
    rw [limit, Nat.min_eq_left hm, atdict, if_neg (Nat.succ_ne_zero m), Nat.succ_sub_one,
      List.getD_eq_getElem?_getD, List.getElem?_eq_getElem hm, Option.getD_some]
  rw [← hlimit i hi, ← hlimit j hj]
  exact h.mono (Nat.succ_le_succ (Nat.le_of_lt hij))

/-- What every leaf of a table satisfies: the separator is the base, the limits are in order and
do not reach the dictionary, and the numbers of the leaf are below the next separator. -/
def Table.Shaped (t : Table) (blockbits : ℕ) : Prop :=
  (∀ y ∈ t.leaves, (t.leaf y.2).ibase = y.1 ∧ (t.leaf y.2).dict.Pairwise (· ≤ ·) ∧
    (t.leaf y.2).icount ≤ entriesPerLeaf blockbits ∧
    16 + limit (t.leaf y.2).dict (t.leaf y.2).icount ≤ 2 ^ blockbits - 2 * (t.leaf y.2).icount) ∧
  t.leaves.Pairwise fun y z => ∀ x, y.1 ≤ x → x < y.1 + (t.leaf y.2).icount → x < z.1

theorem Table.Good.shaped (h : t.Good n bits) : t.Shaped bits := by
  refine ⟨fun y hy => ?_, h.apart.imp fun hyz x _ hx => Nat.lt_of_lt_of_le hx hyz⟩
  obtain ⟨hbase, hgood⟩ := h.leaf y hy
  refine ⟨hbase, hgood.dict_sorted, hgood.count, ?_⟩
  have hfits := hgood.fits
  omega

/-! ## The table is a map -/

/-- In every run, `tree_expand` makes room for one inode number and keeps the records of all
others. -/
theorem expand_map (hn : 2 ≤ n) (hbits : 4 ≤ bits ∧ bits ≤ 16) (h : Run bits n t)
    (hcursor : probeFrom t.tree.node t.tree.depth t.tree.root inum = some cursor)
    (hfresh : (blocks ++ blocksOf t.tree.node t.tree.depth t.tree.root).Nodup)
    (hnew : 0 < newsize) (hint : newsize < 2 ^ 31)
    (he : treeExpand bits n t blocks cursor inum newsize = .space t' block offset) :
    (∀ x, x ≠ inum → Keeps bits t t' x) ∧
      (t'.tree.reached inum = some block ∧
        ileafLookup bits (t'.leaf block) inum = some (newsize, offset) ∧
        (t'.stored bits inum).take (min (t.stored bits inum).length newsize) =
          (t.stored bits inum).take (min (t.stored bits inum).length newsize)) ∧
      t'.Shaped bits := by
  obtain ⟨hgood, hreached, hlookup, -, htake, hkeeps⟩ :=
    (run_good h hn hbits.2 hbits.1).expand hn hbits.2 hcursor hfresh hnew hint he
  exact ⟨hkeeps, ⟨hreached, hlookup, htake _ (Nat.min_le_right _ _) (Nat.min_le_left _ _)⟩,
    hgood.shaped⟩

theorem expand_map_start : ∃ t block offset,
    treeExpand 8 2 (allocEmptyBtree (fun _ => []) (fun _ => ileafInit) 1 2) [] ⟨[⟨1, 1⟩], 2⟩ 0 9 =
      .space t block offset ∧ ileafLookup 8 (t.leaf block) 0 = some (9, offset) := by
  obtain ⟨t, block, offset, he⟩ : ∃ t block offset,
      treeExpand 8 2 (allocEmptyBtree (fun _ => []) (fun _ => ileafInit) 1 2) [] ⟨[⟨1, 1⟩], 2⟩ 0 9 =
        .space t block offset := ⟨_, _, _, rfl⟩
  exact ⟨t, block, offset, he, (expand_map (n := 2) (by decide) (by decide)
    (Run.start (fun _ => []) (fun _ => ileafInit) (by decide)) rfl (by decide) (by decide)
    (by decide) he).2.1.2.1⟩

/-- A size of `2 ^ 31` for the first inode: the difference of the sizes is negative, and the space
that is returned has no byte. -/
theorem expand_overflow : ∃ t t' cursor block offset, Run 8 2 t ∧
    probeFrom t.tree.node t.tree.depth t.tree.root 0 = some cursor ∧
    treeExpand 8 2 t [] cursor 0 (2 ^ 31) = .space t' block offset ∧
    t'.tree.reached 0 = some block ∧ ileafLookup 8 (t'.leaf block) 0 = some (0, offset) := by
  have h₀ : Run 8 2 (allocEmptyBtree (fun _ => []) (fun _ => ileafInit) 1 2) :=
    Run.start (fun _ => []) (fun _ => ileafInit) (by decide)
  exact ⟨_, _, _, _, _, h₀, rfl, rfl, rfl, rfl⟩

/-! ## The second attempt -/

/-- A failed call keeps the records of the leaf exactly when it moved none. -/
theorem splitLeaf_keeps {newbuf : ℕ} (h : t.Good n bits) (hbits : bits ≤ 16)
    (hcursor : probeFrom t.tree.node t.tree.depth t.tree.root inum = some cursor)
    (hfresh : newbuf ∉ blocksOf t.tree.node t.tree.depth t.tree.root)
    (ht' : t' = ⟨t.tree, Function.update (Function.update t.leaf newbuf
      (ileafSplit bits (t.leaf cursor.leaf) inum).2) cursor.leaf
        (ileafSplit bits (t.leaf cursor.leaf) inum).1⟩) :
    (∀ x, t'.stored bits x = t.stored bits x) ↔
      ∀ x, inum ≤ x → (t.leaf cursor.leaf).record x = [] := by
  obtain ⟨hpath, har, hright⟩ := h.around hcursor
  have hsplit := har.split
  obtain ⟨hbase, hgood⟩ := h.leaf (lowKey t.tree.node cursor.path 0, cursor.leaf) (by
    rw [hsplit]
    exact List.mem_append_right _ List.mem_cons_self)
  dsimp only at hbase hgood
  have hle : (t.leaf cursor.leaf).ibase ≤ inum := hbase ▸ har.low_le
  obtain ⟨hbl, hrle, -, hfirst, -, -, -, hsome, hempty, -⟩ := @split_bases _ bits _ hle
  have hparts := fun x hx => record_split (x := x) hgood hbits hle hx
  have hgood' : t'.Good n bits := by
    rw [ht']
    refine h.splitLeaves hbits hcursor hfresh h.tree ?_
    change (Table.leaves t).Sublist _
    rw [hsplit]
    exact ((List.sublist_cons_self _ _).cons_cons _).append_left _
  have hself : t'.leaf cursor.leaf = (ileafSplit bits (t.leaf cursor.leaf) inum).1 := by
    rw [ht']
    exact Function.update_self _ _ _
  have htree : t'.tree = t.tree := by rw [ht']
  constructor
  · intro hsame x hx
    by_contra hne
    have hin : x - (t.leaf cursor.leaf).ibase < (t.leaf cursor.leaf).icount := by
      by_contra hge
      exact hne (record_behind (Nat.not_lt.mp hge))
    have hreached : t.tree.reached x = some cursor.leaf := by
      refine Around.reached (b := before t.tree.node t.tree.depth cursor.path 0)
        (a := after t.tree.node t.tree.depth cursor.path) ⟨hsplit, ?_, fun y hy => ?_, har.other⟩ h
      · omega
      · have hend := h.end_le hsplit y hy
        omega
    have hstored := hsame x
    rw [h.stored_eq hbits hreached, hgood'.stored_eq hbits (htree ▸ hreached), hself,
      record_behind (by omega)] at hstored
    exact hne hstored.symm
  · intro hmoved x
    obtain ⟨blk, hblk⟩ := h.reached_some x
    rw [h.stored_eq hbits hblk, hgood'.stored_eq hbits (htree ▸ hblk)]
    by_cases heq : blk = cursor.leaf
    · obtain ⟨low, -, -, -, hbase', hlow, -⟩ := h.reached hblk
      rw [heq] at hbase' ⊢
      rw [hself]
      by_cases hx : x < (ileafSplit bits (t.leaf cursor.leaf) inum).2.ibase
      · exact (hparts x (hbase' ▸ hlow)).1 hx
      · rw [record_behind (by omega)]
        by_cases hzero : (ileafSplit bits (t.leaf cursor.leaf) inum).2.icount = 0
        · have hend := hempty hzero
          rw [record_behind (by omega)]
        · have hat := (hsome hzero).1
          rw [hmoved x (by omega)]
    · have hblk' : blk ≠ newbuf := by
        rintro rfl
        obtain ⟨low, b, a, hmem, -⟩ := h.reached hblk
        refine hfresh ((leaves_sublist 0).subset (List.mem_map.mpr ⟨(low, blk), ?_, rfl⟩))
        change (low, blk) ∈ t.leaves
        rw [hmem]
        exact List.mem_append_right _ List.mem_cons_self
      rw [ht']
      dsimp only
      rw [Function.update_of_ne heq, Function.update_of_ne hblk']

/-- An error loses nothing exactly when it comes before anything is moved: `insert_leaf` fails at
its first node, and the leaf to be split has no records at the inode number or above, or there was
no block for its right part. -/
theorem error_keeps (hn : 2 ≤ n) :
    (∀ (t t' : Tree) (q k leafbuf : ℕ) (blocks : List ℕ) (cursor : Cursor) (keep : Bool),
      t.WellFormed n → ((Btree.leaves t.node t.depth 0 t.root).map Prod.fst).Nodup →
      probeFrom t.node t.depth t.root q = some cursor →
      (leafbuf :: blocks ++ blocksOf t.node t.depth t.root).Nodup →
      eek t n blocks cursor k leafbuf keep = some t' →
      ((∀ x, t'.reached x = t.reached x) ↔ blocks = [])) ∧
    ∀ (t t' : Table) (bits inum newsize : ℕ) (blocks : List ℕ) (cursor : Cursor),
      bits ≤ 16 → t.Good n bits → (t.leaves.map Prod.fst).Nodup →
      probeFrom t.tree.node t.tree.depth t.tree.root inum = some cursor →
      (blocks ++ blocksOf t.tree.node t.tree.depth t.tree.root).Nodup →
      expandEek bits n t blocks cursor inum newsize = some t' →
      ((∀ x, t'.tree.reached x = t.tree.reached x ∧ t'.stored bits x = t.stored bits x) ↔
        blocks = [] ∨ blocks.length = 1 ∧
          ∀ x, inum ≤ x → (t.leaf cursor.leaf).record x = []) := by
  refine ⟨fun t t' q k leafbuf blocks cursor keep hw hstrict hcursor hfresh he =>
    eek_keeps hn hw hstrict hcursor hfresh he, ?_⟩
  intro t t' bits inum newsize blocks cursor hbits h hstrict hcursor hfresh he
  unfold expandEek at he
  split at he
  · cases he
  · cases blocks with
    | nil =>
        obtain rfl := Option.some.inj he
        exact iff_of_true (fun _ => ⟨rfl, rfl⟩) (Or.inl rfl)
    | cons newbuf rest =>
        obtain ⟨-, har, -⟩ := h.around hcursor
        have hbase := (h.leaf (lowKey t.tree.node cursor.path 0, cursor.leaf) (by
          rw [har.split]
          exact List.mem_append_right _ List.mem_cons_self)).1
        dsimp only at hbase
        obtain ⟨tree, htree, rfl⟩ := leafSplitEek_cases (hbase ▸ har.low_le) he
        have hnew := (List.nodup_cons.mp hfresh).1
        have hreached := eek_keeps hn h.tree hstrict hcursor hfresh htree
        dsimp only
        constructor
        · intro hsame
          obtain rfl := hreached.mp fun x => (hsame x).1
          obtain rfl := eek_nil htree
          exact Or.inr ⟨rfl, (splitLeaf_keeps h hbits hcursor (fun hx => hnew hx) rfl).mp
            fun x => (hsame x).2⟩
        · rintro (hnil | ⟨hlen, hmoved⟩)
          · cases hnil
          · obtain rfl := List.eq_nil_of_length_eq_zero (Nat.succ.inj hlen)
            obtain rfl := eek_nil htree
            exact fun x => ⟨rfl, (splitLeaf_keeps h hbits hcursor (fun hx => hnew hx) rfl).mpr
              hmoved x⟩

theorem error_keeps_root : ∃ t', eek ⟨fun b => if b = 1 then [⟨0, 10⟩, ⟨5, 11⟩] else [], 1, 1⟩ 2 [2]
    ⟨[⟨1, 1⟩], 10⟩ 3 12 true = some t' ∧
    ¬ ∀ x, t'.reached x = Tree.reached ⟨fun b => if b = 1 then [⟨0, 10⟩, ⟨5, 11⟩] else [], 1, 1⟩ x := by
  refine ⟨_, rfl, fun hsame => ?_⟩
  have hn : 2 ≤ 2 := Nat.le_refl 2
  have h := ((error_keeps hn).1 ⟨fun b => if b = 1 then [⟨0, 10⟩, ⟨5, 11⟩] else [], 1, 1⟩ _ 0 3 12 [2]
    ⟨[⟨1, 1⟩], 10⟩ true ⟨by simp [Sized], by decide, by decide⟩ (by decide) (by decide)
    (by decide) rfl).mp hsame
  cases h

/-- The root is full and the leaf is split: the second inode is in a leaf that nothing links. -/
theorem record_lost : ∃ t t' cursor, Run 8 2 t ∧
    probeFrom t.tree.node t.tree.depth t.tree.root 1 = some cursor ∧
    ([9] ++ blocksOf t.tree.node t.tree.depth t.tree.root).Nodup ∧
    expandEek 8 2 t [9] cursor 1 150 = some t' ∧
    (t.stored 8 1).length = 100 ∧ t'.stored 8 1 = [] := by
  have h₀ : Run 8 2 (allocEmptyBtree (fun _ => []) (fun _ => ileafInit) 1 2) :=
    Run.start (fun _ => []) (fun _ => ileafInit) (by decide)
  have h₁ := @Run.expand _ _ _ _ [] _ 0 100 _ _ (List.replicate 100 0) h₀ rfl (by decide)
    (by decide) (by decide) rfl rfl
  have h₂ := @Run.expand _ _ _ _ [] _ 1 100 _ _ (List.replicate 100 0) h₁ rfl (by decide)
    (by decide) (by decide) rfl rfl
  have h₃ := @Run.expand _ _ _ _ [3] _ 4 9 _ _ (List.replicate 9 0) h₂ rfl (by decide)
    (by decide) (by decide) rfl rfl
  exact ⟨_, _, _, h₃, rfl, by decide, rfl, rfl, rfl⟩

end

end Tux3.Itable
