import Tux3.ItableMap

/-!
# Runs of the inode table

Every table that `tree_expand` and `ileaf_purge` build is well-formed, and each call changes the
attributes of its own inode number only. The assertion of `tree_expand` fires exactly when the
attributes do not fit beside those of the higher inode numbers of the leaf.
-/
namespace Tux3.Itable

open Tux3.Btree

/-- The attributes of an inode number, none where the lookup fails. -/
def Table.stored (blockbits : ℕ) (t : Table) (inum : ℕ) : List UInt8 :=
  (t.lookup blockbits inum).getD []

/-- Every lookup that succeeds still succeeds with the same bytes, and one that failed finds
nothing. -/
def Keeps (blockbits : ℕ) (t t' : Table) (x : ℕ) : Prop :=
  match t.lookup blockbits x with
  | some r => t'.lookup blockbits x = some r
  | none => t'.lookup blockbits x = none ∨ t'.lookup blockbits x = some []

section
variable {t t' t'' : Table} {n bits inum newsize offset block x : ℕ} {cursor : Cursor}
  {blocks : List ℕ}

theorem Keeps.trans (h : Keeps bits t t' x) (h' : Keeps bits t' t'' x) : Keeps bits t t'' x := by
  unfold Keeps at *
  cases hl : t.lookup bits x with
  | some r =>
      rw [hl] at h
      dsimp only at h
      rw [h] at h'
      exact h'
  | none =>
      rw [hl] at h
      dsimp only at h
      rcases h with h | h
      · rw [h] at h'
        exact h'
      · rw [h] at h'
        exact Or.inr h'

theorem Keeps.of_eq (h : t'.lookup bits x = t.lookup bits x) : Keeps bits t t' x := by
  unfold Keeps
  rw [h]
  cases t.lookup bits x with
  | some r => rfl
  | none => exact Or.inl rfl

theorem Table.Good.reached_some (h : t.Good n bits) (x : ℕ) : ∃ blk, t.tree.reached x = some blk := by
  obtain ⟨c, hc, -⟩ := probe_spec h.tree.sized h.tree.sorted (Nat.zero_le x)
  exact ⟨c.leaf, by rw [Tree.reached, hc]; rfl⟩

theorem Table.Good.stored_eq (h : t.Good n bits) (hbits : bits ≤ 16)
    (hx : t.tree.reached x = some block) : t.stored bits x = (t.leaf block).record x := by
  obtain ⟨-, -, -, -, -, hlow, hgood, -⟩ := h.reached hx
  have hcount := hgood.count
  rw [Table.stored, h.lookup_eq hbits hx]
  split
  · rfl
  · next hge =>
      rw [record_behind (by omega)]
      rfl

theorem Table.Good.lookup_congr (h : t.Good n bits) (h' : t'.Good n bits) (hbits : bits ≤ 16)
    (htree : t'.tree = t.tree) (hother : ∀ y, y ≠ block → t'.leaf y = t.leaf y)
    (hbase : (t'.leaf block).ibase = (t.leaf block).ibase)
    (hrecord : ∀ x, (t.leaf block).ibase ≤ x → x ≠ inum →
      (t'.leaf block).record x = (t.leaf block).record x) (hx : x ≠ inum) :
    t'.lookup bits x = t.lookup bits x := by
  obtain ⟨blk, hblk⟩ := h.reached_some x
  have hblk' : t'.tree.reached x = some blk := htree ▸ hblk
  rw [h.lookup_eq hbits hblk, h'.lookup_eq hbits hblk']
  by_cases hb : blk = block
  · subst hb
    obtain ⟨low, -, -, -, hbase', hlow, -⟩ := h.reached hblk
    rw [hbase, hrecord x (hbase' ▸ hlow) hx]
  · rw [hother blk hb]

/-- What `leaf_resize` changes, seen by lookups. -/
theorem Table.Good.resize_lookup (h : t.Good n bits) (hbits : bits ≤ 16) {low : ℕ}
    {b a : List (ℕ × ℕ)} (har : Around t cursor inum low b a) (hnew : 0 < newsize)
    (hint : newsize < 2 ^ 31)
    (hr : resizeAt bits t cursor inum newsize = some (t', block, offset)) :
    t'.Good n bits ∧ t'.tree.reached inum = some block ∧
      ileafLookup bits (t'.leaf block) inum = some (newsize, offset) ∧
      t'.lookup bits inum = some (bytes (t'.leaf block).table offset newsize) ∧
      (∀ m, m ≤ newsize → m ≤ (t.stored bits inum).length →
        (t'.stored bits inum).take m = (t.stored bits inum).take m) ∧
      ∀ x, x ≠ inum → t'.lookup bits x = t.lookup bits x := by
  obtain ⟨hgood, htree, rfl, hother, hbase, hleaf, hepl, hlookup, hrecord, htake, hrest⟩ :=
    h.resize hbits har hnew hint hr
  have hreached := har.reached h
  have hreached' : t'.tree.reached inum = some cursor.leaf := htree ▸ hreached
  have hbase₀ : (t.leaf cursor.leaf).ibase = low := (h.leaf (low, cursor.leaf) (by
    rw [har.split]
    exact List.mem_append_right _ List.mem_cons_self)).1
  refine ⟨hgood, hreached', hlookup, ?_, fun m hm hm' => ?_, fun x hx => ?_⟩
  · rw [hgood.lookup_eq hbits hreached', hbase, if_pos hepl, hrecord]
  · rw [h.stored_eq hbits hreached] at hm' ⊢
    rw [hgood.stored_eq hbits hreached']
    exact htake m hm hm'
  · refine h.lookup_congr hgood hbits htree hother (hbase.trans hbase₀.symm) ?_ hx
    intro y hy hne
    exact hrest y (hbase₀ ▸ hy) hne

/-- At its base a leaf splits into an empty leaf and itself. -/
theorem resize_split_base {leaf : Ileaf} (h : leaf.Good bits) (hbits : bits ≤ 16)
    (hint : newsize < 2 ^ 31) (hbase : leaf.ibase ≤ inum)
    (heq : leaf.ibase = (ileafSplit bits leaf inum).2.ibase) :
    (ileafResize bits (ileafSplit bits leaf inum).2 inum newsize).isSome =
      (ileafResize bits leaf inum newsize).isSome := by
  have hinum : inum = leaf.ibase :=
    (@split_bases _ bits _ hbase).2.2.2.2.2.2.2.2.2 heq.symm
  have hgood := (h.split hbits hbase).2
  have hlimits := (@split_limits _ _ inum h hbits).2
  have hcount : (ileafSplit bits leaf inum).2.icount = leaf.icount := by
    rw [ileafSplit, Ileaf.icount]
    dsimp only
    rw [List.length_map, List.length_drop, hinum, Nat.sub_self, Nat.zero_min, Nat.sub_zero]
    rfl
  have hsame : limit (ileafSplit bits leaf inum).2.dict = limit leaf.dict := by
    rw [hlimits, hinum, Nat.sub_self, Nat.zero_min]
    funext i
    rw [Nat.zero_add, limit_zero, Nat.sub_zero]
  refine Bool.eq_iff_iff.mpr ((resize_isSome hgood hbits hint).trans
    (Iff.trans ?_ (resize_isSome h hbits hint).symm))
  rw [← heq, hsame, hcount]

/-- `tree_expand` makes space for the attributes of one inode number and keeps all others. -/
theorem Table.Good.expand (h : t.Good n bits) (hn : 2 ≤ n) (hbits : bits ≤ 16)
    (hcursor : probeFrom t.tree.node t.tree.depth t.tree.root inum = some cursor)
    (hfresh : (blocks ++ blocksOf t.tree.node t.tree.depth t.tree.root).Nodup)
    (hnew : 0 < newsize) (hint : newsize < 2 ^ 31)
    (he : treeExpand bits n t blocks cursor inum newsize = .space t' block offset) :
    t'.Good n bits ∧ t'.tree.reached inum = some block ∧
      ileafLookup bits (t'.leaf block) inum = some (newsize, offset) ∧
      t'.lookup bits inum = some (bytes (t'.leaf block).table offset newsize) ∧
      (∀ m, m ≤ newsize → m ≤ (t.stored bits inum).length →
        (t'.stored bits inum).take m = (t.stored bits inum).take m) ∧
      ∀ x, x ≠ inum → Keeps bits t t' x := by
  obtain ⟨-, har, -⟩ := h.around hcursor
  have hmem : (lowKey t.tree.node cursor.path 0, cursor.leaf) ∈ t.leaves := by
    rw [har.split]
    exact List.mem_append_right _ List.mem_cons_self
  obtain ⟨hbase, hgood⟩ := h.leaf _ hmem
  dsimp only at hbase hgood
  have hle : (t.leaf cursor.leaf).ibase ≤ inum := hbase ▸ har.low_le
  rw [treeExpand] at he
  cases hr : resizeAt bits t cursor inum newsize with
  | some r =>
      obtain ⟨t₁, blk, off⟩ := r
      rw [hr] at he
      cases he
      obtain ⟨hg, hre, hlk, hlk', htake, hx⟩ := h.resize_lookup hbits har hnew hint hr
      exact ⟨hg, hre, hlk, hlk', htake, fun x hne => Keeps.of_eq (hx x hne)⟩
  | none =>
      rw [hr] at he
      cases hs : btreeLeafSplit bits n t blocks cursor inum with
      | none =>
          rw [hs] at he
          cases he
      | some s =>
          obtain ⟨t₁, cursor'⟩ := s
          rw [hs] at he
          dsimp only at he
          cases hr' : resizeAt bits t₁ cursor' inum newsize with
          | none =>
              rw [hr'] at he
              cases he
          | some r =>
              obtain ⟨t₂, blk, off⟩ := r
              rw [hr'] at he
              cases he
              have hne : (t.leaf cursor.leaf).ibase ≠
                  (ileafSplit bits (t.leaf cursor.leaf) inum).2.ibase := by
                intro heq
                have hsome := @resize_split_base bits inum newsize _ hgood hbits hint hle heq
                rw [← h.newLeaf hcursor hfresh hs] at hsome
                rw [resizeAt, Option.map_eq_none_iff] at hr
                obtain ⟨r, hr', -⟩ := Option.map_eq_some_iff.mp hr'
                rw [hr, hr'] at hsome
                cases hsome
              obtain ⟨hg₁, ⟨b, a, har₁⟩, hleaf₁, hkeep⟩ :=
                h.leafSplit hn hbits hcursor hfresh hne hs
              obtain ⟨hg, hre, hlk, hlk', htake, hx⟩ :=
                hg₁.resize_lookup hbits har₁ hnew hint hr'
              have hstored : t₁.stored bits inum = t.stored bits inum := by
                obtain ⟨blk, hblk⟩ := h.reached_some inum
                obtain ⟨blk', hblk', -, hrec⟩ := hkeep inum blk hblk
                rw [h.stored_eq hbits hblk, hg₁.stored_eq hbits hblk', hrec]
              refine ⟨hg, hre, hlk, hlk', fun m hm hm' => ?_, fun x hne' => ?_⟩
              · rw [← hstored] at hm' ⊢
                exact htake m hm hm'
              · refine Keeps.trans ?_ (Keeps.of_eq (hx x hne'))
                obtain ⟨blk, hblk⟩ := h.reached_some x
                obtain ⟨blk', hblk', hbase', hrec⟩ := hkeep x blk hblk
                obtain ⟨-, -, -, -, -, -, hgb, -⟩ := h.reached hblk
                have hcount := hgb.count
                rw [Keeps, h.lookup_eq hbits hblk, hg₁.lookup_eq hbits hblk']
                by_cases hlt : x < (t.leaf blk).ibase + entriesPerLeaf bits
                · rw [if_pos hlt, if_pos (by omega), hrec]
                · rw [if_neg hlt]
                  dsimp only
                  split
                  · rw [hrec, record_behind (by omega)]
                    exact Or.inr rfl
                  · exact Or.inl rfl

/-! ## Failed calls -/

theorem expandEek_isSome : (expandEek bits n t blocks cursor inum newsize).isSome ↔
    treeExpand bits n t blocks cursor inum newsize = .error := by
  have hsplit : (leafSplitEek bits n t blocks cursor inum).isSome ↔
      btreeLeafSplit bits n t blocks cursor inum = none := by
    unfold leafSplitEek btreeLeafSplit
    cases blocks with
    | nil => simp
    | cons newbuf blocks =>
        dsimp only
        rw [Option.isSome_map, eek_isSome]
        split <;> simp_all
  rw [expandEek, treeExpand]
  cases hr : resizeAt bits t cursor inum newsize with
  | some r => simp
  | none =>
      dsimp only
      rw [hsplit]
      cases hs : btreeLeafSplit bits n t blocks cursor inum with
      | none => simp
      | some s =>
          dsimp only
          cases resizeAt bits s.1 s.2 inum newsize <;> simp

theorem leafSplitEek_cases {newbuf : ℕ} (hbase : (t.leaf cursor.leaf).ibase ≤ inum)
    (h : leafSplitEek bits n t (newbuf :: blocks) cursor inum = some t') :
    ∃ tree, eek t.tree n blocks cursor (ileafSplit bits (t.leaf cursor.leaf) inum).2.ibase newbuf
        false = some tree ∧
      t' = ⟨tree, Function.update (Function.update t.leaf newbuf
        (ileafSplit bits (t.leaf cursor.leaf) inum).2) cursor.leaf
          (ileafSplit bits (t.leaf cursor.leaf) inum).1⟩ := by
  have hle := (@split_bases _ bits _ hbase).2.1
  unfold leafSplitEek at h
  dsimp only at h
  rw [decide_eq_false (Nat.not_lt.mpr hle)] at h
  obtain ⟨tree, htree, rfl⟩ := Option.map_eq_some_iff.mp h
  exact ⟨tree, htree, rfl⟩

theorem Table.Good.leafSplitEek (h : t.Good n bits) (hn : 2 ≤ n) (hbits : bits ≤ 16)
    (hcursor : probeFrom t.tree.node t.tree.depth t.tree.root inum = some cursor)
    (hfresh : (blocks ++ blocksOf t.tree.node t.tree.depth t.tree.root).Nodup)
    (he : leafSplitEek bits n t blocks cursor inum = some t') : t'.Good n bits := by
  cases blocks with
  | nil =>
      obtain rfl := Option.some.inj he
      exact h
  | cons newbuf rest =>
      obtain ⟨hpath, har, -⟩ := h.around hcursor
      have hbase := (h.leaf (lowKey t.tree.node cursor.path 0, cursor.leaf) (by
        rw [har.split]
        exact List.mem_append_right _ List.mem_cons_self)).1
      dsimp only at hbase
      have hle : (t.leaf cursor.leaf).ibase ≤ inum := hbase ▸ har.low_le
      obtain ⟨tree, htree, rfl⟩ := leafSplitEek_cases hle he
      obtain ⟨-, hrle, -, hfirst, -⟩ := @split_bases _ bits _ hle
      obtain ⟨hw, hsub⟩ := eek_wellFormed hn h.tree hpath hfresh (by omega)
        (fun x hx => Nat.le_of_lt (Nat.lt_of_le_of_lt hrle (har.lt_next x hx))) htree
      have hnew := (List.nodup_cons.mp hfresh).1
      exact h.splitLeaves hbits hcursor (fun hx => hnew (List.mem_append_right _ hx)) hw hsub

theorem Table.Good.expandEek (h : t.Good n bits) (hn : 2 ≤ n) (hbits : bits ≤ 16)
    (hcursor : probeFrom t.tree.node t.tree.depth t.tree.root inum = some cursor)
    (hfresh : (blocks ++ blocksOf t.tree.node t.tree.depth t.tree.root).Nodup)
    (he : expandEek bits n t blocks cursor inum newsize = some t') : t'.Good n bits := by
  unfold Itable.expandEek at he
  split at he
  · cases he
  · exact h.leafSplitEek hn hbits hcursor hfresh he

/-! ## Runs -/

/-- The table after the attributes are written to the space. -/
theorem Table.Good.write (h : t.Good n bits) (hbits : bits ≤ 16) {data : List UInt8}
    (hreached : t.tree.reached inum = some block)
    (hlookup : ileafLookup bits (t.leaf block) inum = some (data.length, offset)) :
    (t.write block offset data).Good n bits ∧
      ∀ x, x ≠ inum → (t.write block offset data).lookup bits x = t.lookup bits x := by
  obtain ⟨low, b, a, hsplit, hbase, hlow, hgood, -⟩ := h.reached hreached
  have hother : ∀ y ∈ b ++ a, y.2 ≠ block := by
    intro y hy heq
    have hnodup := h.nodup
    rw [hsplit, List.map_append, List.map_cons] at hnodup
    obtain ⟨-, hla, hba⟩ := List.nodup_append.mp hnodup
    rcases List.mem_append.mp hy with hy | hy
    · exact hba y.2 (List.mem_map.mpr ⟨y, hy, rfl⟩) block List.mem_cons_self heq
    · exact (List.nodup_cons.mp hla).1 (heq ▸ List.mem_map.mpr ⟨y, hy, rfl⟩)
  set leaf' : Ileaf := { t.leaf block with
    table := fun x => if offset ≤ x ∧ x < offset + data.length then data.getD (x - offset) 0
      else (t.leaf block).table x } with hleaf'
  have hself : (t.write block offset data).leaf block = leaf' := Function.update_self _ _ _
  have hwrite : (t.write block offset data).Good n bits :=
    h.update hsplit hother hbase ⟨hgood.mono, hgood.count, hgood.fits⟩ (h.end_le hsplit)
  have hoffset : inum - (t.leaf block).ibase < (t.leaf block).icount → data.length =
      limit (t.leaf block).dict (inum - (t.leaf block).ibase + 1) - offset ∧
        offset = limit (t.leaf block).dict (inum - (t.leaf block).ibase) := by
    intro hin
    rw [ileafLookup] at hlookup
    split at hlookup
    · dsimp only at hlookup
      have hlt : limit (t.leaf block).dict (inum - (t.leaf block).ibase + 1) < 2 ^ 32 := by
        have := hgood.limit_lt hbits (inum - (t.leaf block).ibase + 1)
        omega
      rw [if_pos hin, atdict_eq (Nat.le_of_lt hin), atdict_eq hin,
        sub32_eq (hgood.mono (Nat.le_succ _)) hlt] at hlookup
      obtain ⟨h₁, h₂⟩ := Prod.mk.inj (Option.some.inj hlookup)
      exact ⟨by rw [← h₁, h₂], h₂.symm⟩
    · cases hlookup
  have hempty : ¬ inum - (t.leaf block).ibase < (t.leaf block).icount → data.length = 0 := by
    intro hin
    rw [ileafLookup] at hlookup
    split at hlookup
    · dsimp only at hlookup
      rw [if_neg hin] at hlookup
      exact (Prod.mk.inj (Option.some.inj hlookup)).1.symm
    · cases hlookup
  refine ⟨hwrite, fun x hx => h.lookup_congr hwrite hbits rfl
    (fun y hy => Function.update_of_ne hy _ _) (by rw [hself]) (fun y hy hne => ?_) hx⟩
  rw [hself, Ileaf.record, Ileaf.record]
  have hdict : leaf'.dict = (t.leaf block).dict := rfl
  have hibase : leaf'.ibase = (t.leaf block).ibase := rfl
  refine bytes_congr fun j hj => ?_
  rw [hdict, hibase] at hj
  rw [hdict, hibase, hleaf']
  dsimp only
  by_cases hin : inum - (t.leaf block).ibase < (t.leaf block).icount
  · obtain ⟨hlen, hoff⟩ := hoffset hin
    have hm := hgood.mono (show inum - (t.leaf block).ibase ≤
      inum - (t.leaf block).ibase + 1 from Nat.le_succ _)
    rw [if_neg]
    rintro ⟨h₁, h₂⟩
    rcases Nat.lt_or_gt_of_ne hne with hlt | hgt
    · have hle := hgood.mono (show y - (t.leaf block).ibase + 1 ≤ inum - (t.leaf block).ibase by
        omega)
      omega
    · have hle := hgood.mono (show inum - (t.leaf block).ibase + 1 ≤ y - (t.leaf block).ibase by
        omega)
      omega
  · rw [if_neg]
    have hzero := hempty hin
    omega

section
variable (blockbits entriesPerNode : ℕ)

/-- The tables that `tree_expand` and `ileaf_purge` build from an empty btree. The caller of
`tree_expand`, `store_attrs`, writes the attributes, whose size is far below `2 ^ 31` as the size of
an `xcache` is a `u16`. A call can fail. -/
inductive Run : Table → Prop where
  | start (node : Nodes) (leaf : ℕ → Ileaf) {rootblock leafblock : ℕ}
      (hne : rootblock ≠ leafblock) : Run (allocEmptyBtree node leaf rootblock leafblock)
  | expand {t t' : Table} {blocks : List ℕ} {cursor : Cursor} {inum newsize block offset : ℕ}
      {data : List UInt8} (h : Run t)
      (hcursor : probeFrom t.tree.node t.tree.depth t.tree.root inum = some cursor)
      (hfresh : (blocks ++ blocksOf t.tree.node t.tree.depth t.tree.root).Nodup)
      (hnew : 0 < newsize) (hint : newsize < 2 ^ 31)
      (he : treeExpand blockbits entriesPerNode t blocks cursor inum newsize =
        .space t' block offset)
      (hdata : data.length = newsize) : Run (t'.write block offset data)
  | fail {t t' : Table} {blocks : List ℕ} {cursor : Cursor} {inum newsize : ℕ} (h : Run t)
      (hcursor : probeFrom t.tree.node t.tree.depth t.tree.root inum = some cursor)
      (hfresh : (blocks ++ blocksOf t.tree.node t.tree.depth t.tree.root).Nodup)
      (he : expandEek blockbits entriesPerNode t blocks cursor inum newsize = some t') : Run t'
  | purge {t : Table} {cursor : Cursor} {inum : ℕ} (h : Run t)
      (hcursor : probeFrom t.tree.node t.tree.depth t.tree.root inum = some cursor)
      (hstored : t.stored blockbits inum ≠ []) :
      Run { t with
        leaf := Function.update t.leaf cursor.leaf (ileafPurge (t.leaf cursor.leaf) inum) }

end

theorem Table.Good.purge (h : t.Good n bits) (hbits : bits ≤ 16)
    (hcursor : probeFrom t.tree.node t.tree.depth t.tree.root inum = some cursor)
    (hstored : t.stored bits inum ≠ []) :
    ({ t with
      leaf := Function.update t.leaf cursor.leaf (ileafPurge (t.leaf cursor.leaf) inum) } :
        Table).Good n bits := by
  obtain ⟨-, har, -⟩ := h.around hcursor
  obtain ⟨hbase, hgood⟩ := h.leaf (lowKey t.tree.node cursor.path 0, cursor.leaf) (by
    rw [har.split]
    exact List.mem_append_right _ List.mem_cons_self)
  dsimp only at hbase hgood
  have hin : inum - (t.leaf cursor.leaf).ibase < (t.leaf cursor.leaf).icount := by
    by_contra hge
    rw [h.stored_eq hbits (har.reached h), record_behind (Nat.le_of_not_lt hge)] at hstored
    exact hstored rfl
  obtain ⟨hbase', hgood', hcount, -⟩ := purge_spec hgood hbits (hbase ▸ har.low_le) hin
  refine h.update har.split har.other (hbase'.trans hbase) hgood' fun y hy => ?_
  have hend := h.end_le har.split y hy
  omega

theorem start_good {rootblock leafblock : ℕ} (hn : 2 ≤ n) (hbits : 4 ≤ bits) (node : Nodes)
    (leaf : ℕ → Ileaf) (hne : rootblock ≠ leafblock) :
    (allocEmptyBtree node leaf rootblock leafblock).Good n bits := by
  have hnode : (allocEmptyBtree node leaf rootblock leafblock).tree.node rootblock =
      [⟨0, leafblock⟩] := Function.update_self _ _ _
  have hleaves : (allocEmptyBtree node leaf rootblock leafblock).leaves = [(0, leafblock)] := by
    change (keyed 0 ((allocEmptyBtree node leaf rootblock leafblock).tree.node rootblock)).flatMap
      _ = _
    rw [hnode]
    rfl
  have hleaf : (allocEmptyBtree node leaf rootblock leafblock).leaf leafblock = ileafInit :=
    Function.update_self _ _ _
  refine ⟨⟨?_, ?_, ?_⟩, fun x hx => ?_, ?_⟩
  · refine ⟨?_, ?_, fun e he => trivial⟩
    · change (allocEmptyBtree node leaf rootblock leafblock).tree.node rootblock ≠ []
      rw [hnode]
      exact List.cons_ne_nil _ _
    · change ((allocEmptyBtree node leaf rootblock leafblock).tree.node rootblock).length ≤ n
      rw [hnode]
      exact Nat.le_trans (Nat.le_succ 1) hn
  · change (rootblock :: ((allocEmptyBtree node leaf rootblock leafblock).tree.node
      rootblock).flatMap _).Nodup
    rw [hnode]
    have hne' : rootblock ∉ [leafblock] := fun h => hne (List.mem_singleton.mp h)
    exact List.nodup_cons.mpr ⟨hne', List.pairwise_singleton _ _⟩
  · change ((allocEmptyBtree node leaf rootblock leafblock).leaves.map Prod.fst).Pairwise _
    rw [hleaves]
    exact List.pairwise_singleton _ _
  · rw [hleaves] at hx
    obtain rfl := List.mem_singleton.mp hx
    rw [hleaf]
    exact ⟨rfl, ileafInit_good hbits⟩
  · rw [hleaves]
    exact List.pairwise_singleton _ _

theorem run_good (h : Run bits n t) (hn : 2 ≤ n) (hbits : bits ≤ 16) (h16 : 4 ≤ bits) :
    t.Good n bits := by
  induction h with
  | start node leaf hne => exact start_good hn h16 node leaf hne
  | expand h hcursor hfresh hnew hint he hdata ih =>
      obtain ⟨hgood, hreached, hlookup, -⟩ := ih.expand hn hbits hcursor hfresh hnew hint he
      exact (hgood.write hbits hreached (hdata ▸ hlookup)).1
  | fail h hcursor hfresh he ih => exact ih.expandEek hn hbits hcursor hfresh he
  | purge h hcursor hstored ih => exact ih.purge hbits hcursor hstored

end

end Tux3.Itable
