import Tux3.InumAlloc
import Mathlib.Data.Nat.Find

/-!
# Inode numbers in a run

`save_inode` and `purge_inum` of `inode.c`, and sequences of the three calls. Every inode that
`alloc_inum` gave a number is on the list or stored in the inode table until it is purged.
-/
namespace Tux3.Itable

open Tux3.Btree

/-- The inode table, `alloc_inodes` and the inodes that have a number. Without root, `table` is
what the volume holds. -/
structure Inums where
  table : Table
  hasRoot : Bool
  allocInodes : List Inode
  live : List Inode

namespace Inums

def itable (s : Inums) : Option Table := if s.hasRoot then some s.table else none

/-- The blocks of the inode table. -/
def blocks (s : Inums) : List ℕ :=
  if s.hasRoot then blocksOf s.table.tree.node s.table.tree.depth s.table.tree.root else []

/-- The inode table with a root, and the blocks that the allocator gives next. -/
def withRoot (s : Inums) (blocks : List ℕ) : Option (Table × List ℕ) :=
  if s.hasRoot then some (s.table, blocks)
  else
    match blocks with
    | rootblock :: leafblock :: blocks =>
        some (allocEmptyBtree s.table.tree.node s.table.leaf rootblock leafblock, blocks)
    | _ => none

end Inums

/-- How `save_inode` ends. -/
inductive Saved where
  | ok (s : Inums)
  | error (s : Inums)
  | assertion

section
variable (blockbits entriesPerNode : ℕ) (s : Inums)

/-- `save_inode`, which stores the encoded attributes. -/
def Inums.saveInode (inode : Inode) (data : List UInt8) (blocks : List ℕ) : Saved :=
  if inode.inum = logmapIno ∨ inode.inum = invalidIno then .assertion
  else
    match s.withRoot blocks with
    | none => .error s
    | some (t, blocks) =>
        let s := { s with table := t, hasRoot := true }
        match probeFrom t.tree.node t.tree.depth t.tree.root inode.inum with
        | none => .error s
        | some cursor =>
            -- paranoia check
            if inode ∉ s.allocInodes ∧ t.stored blockbits inode.inum = [] then .assertion
            else if data.length = 0 then .assertion
            else
              match treeExpand blockbits entriesPerNode t blocks cursor inode.inum data.length with
              | .space t block offset => .ok { s with
                  table := t.write block offset data
                  allocInodes := s.allocInodes.erase inode }
              | .error => .error { s with
                  table := (expandEek blockbits entriesPerNode t blocks cursor inode.inum
                    data.length).getD t }
              | .assertion => .assertion

/-- `purge_inum`; `none` where an assertion fails or the leaf has no entry for the inode. -/
def Inums.purgeInum (inode : Inode) : Option Inums :=
  if inode ∈ s.allocInodes then
    some { s with allocInodes := s.allocInodes.erase inode, live := s.live.erase inode }
  else
    match s.itable with
    | none => none
    | some t =>
        match probeFrom t.tree.node t.tree.depth t.tree.root inode.inum with
        | none => none
        | some cursor =>
            if t.stored blockbits inode.inum = [] then none
            else
              let leaf := ileafPurge (t.leaf cursor.leaf) inode.inum
              some { s with
                table := { t with leaf := Function.update t.leaf cursor.leaf leaf }
                live := s.live.erase inode }

inductive Call where
  | allocInum (id goal : ℕ)
  | saveInode (inode : Inode) (data : List UInt8) (blocks : List ℕ)
  | purgeInum (inode : Inode)

/-- One call for a new inode or one that has a number. The size of the attributes is far below
`2 ^ 31` as in `Run`. -/
inductive Step : Call → Inums → Prop where
  | allocInum {id goal rounds inum : ℕ} (hgoal : goal < 2 ^ 64) (hid : ∀ i ∈ s.live, i.id ≠ id)
      (h : allocInum blockbits s.itable s.allocInodes rounds goal = some (.inum inum)) :
      Step (.allocInum id goal) { s with
        allocInodes := s.allocInodes ++ [⟨id, inum⟩]
        live := ⟨id, inum⟩ :: s.live }
  | allocError {id goal rounds : ℕ}
      (h : allocInum blockbits s.itable s.allocInodes rounds goal = some .noSpace) :
      Step (.allocInum id goal) s
  | saveInode {inode : Inode} {data : List UInt8} {blocks : List ℕ} {s' : Inums}
      (hi : inode ∈ s.live) (hfresh : (blocks ++ s.blocks).Nodup) (hint : data.length < 2 ^ 31)
      (h : s.saveInode blockbits entriesPerNode inode data blocks = .ok s') :
      Step (.saveInode inode data blocks) s'
  | saveError {inode : Inode} {data : List UInt8} {blocks : List ℕ} {s' : Inums}
      (hi : inode ∈ s.live) (hfresh : (blocks ++ s.blocks).Nodup) (hint : data.length < 2 ^ 31)
      (h : s.saveInode blockbits entriesPerNode inode data blocks = .error s') :
      Step (.saveInode inode data blocks) s'
  | purgeInum {inode : Inode} {s' : Inums} (hi : inode ∈ s.live)
      (h : s.purgeInum blockbits inode = some s') : Step (.purgeInum inode) s'
  /-- The allocation of a block for `cursor_redirect` can fail. -/
  | purgeError {inode : Inode} (hi : inode ∈ s.live) : Step (.purgeInum inode) s

/-- A save that fails has moved no attributes: there is no block for a new leaf, or only the block
of a leaf while the leaf of the inode has no attributes at its number or above. -/
def Inums.Keeps (s : Inums) : Call → Prop
  | .saveInode inode data blocks =>
      ∀ s' t rest cursor, s.saveInode blockbits entriesPerNode inode data blocks = .error s' →
        s.withRoot blocks = some (t, rest) →
        probeFrom t.tree.node t.tree.depth t.tree.root inode.inum = some cursor →
        rest = [] ∨ rest.length = 1 ∧
          ∀ x, inode.inum ≤ x → (t.leaf cursor.leaf).record x = []
  | _ => True

/-- The states of the sequences of calls that satisfy a condition, from a table without root. -/
inductive Calls (ok : Inums → Call → Prop) : Inums → Prop where
  | start (table : Table) : Calls ok ⟨table, false, [], []⟩
  | step {s s' : Inums} {call : Call} (h : Calls ok s) (hok : ok s call)
      (hs : Step blockbits entriesPerNode s call s') : Calls ok s'

/-- The table is well-formed, and every inode with a number is on the list or stored. -/
structure Inums.Inv : Prop where
  good : ∀ t, s.itable = some t → t.Good entriesPerNode blockbits
  alloc_nodup : s.allocInodes.Nodup
  alloc_live : ∀ i ∈ s.allocInodes, i ∈ s.live
  taken : ∀ i ∈ s.live, i ∈ s.allocInodes ∨
    ∃ t, s.itable = some t ∧ t.stored blockbits i.inum ≠ []
  nodup : (s.live.map Inode.inum).Nodup

end

section
variable {s s' : Inums} {t t' : Table} {n bits x block offset : ℕ} {cursor : Cursor}
  {inode : Inode} {data : List UInt8} {blocks rest : List ℕ}

/-! ## The calls -/

theorem Keeps.stored_eq (h : Keeps bits t t' x) : t'.stored bits x = t.stored bits x := by
  rw [Keeps] at h
  rw [Table.stored, Table.stored]
  cases hl : t.lookup bits x with
  | some r =>
      rw [hl] at h
      dsimp only at h
      rw [h]
  | none =>
      rw [hl] at h
      dsimp only at h
      rcases h with h | h
      · rw [h]
      · rw [h]
        rfl

/-- What a successful save does. -/
theorem saveInode_ok (h : s.saveInode bits n inode data blocks = .ok s') :
    ∃ t rest cursor t' block offset, s.withRoot blocks = some (t, rest) ∧
      probeFrom t.tree.node t.tree.depth t.tree.root inode.inum = some cursor ∧ 0 < data.length ∧
      treeExpand bits n t rest cursor inode.inum data.length = .space t' block offset ∧
      s' = { s with
        table := t'.write block offset data
        hasRoot := true
        allocInodes := s.allocInodes.erase inode } := by
  rw [Inums.saveInode] at h
  split at h
  · cases h
  · cases hroot : s.withRoot blocks with
    | none =>
        rw [hroot] at h
        cases h
    | some r =>
        obtain ⟨t, rest⟩ := r
        rw [hroot] at h
        dsimp only at h
        cases hcursor : probeFrom t.tree.node t.tree.depth t.tree.root inode.inum with
        | none =>
            rw [hcursor] at h
            cases h
        | some cursor =>
            rw [hcursor] at h
            dsimp only at h
            split at h
            · cases h
            · split at h
              · cases h
              · next hsize =>
                  cases he : treeExpand bits n t rest cursor inode.inum data.length with
                  | space t' block offset =>
                      rw [he] at h
                      cases h
                      exact ⟨t, rest, cursor, t', block, offset, rfl, hcursor,
                        Nat.pos_of_ne_zero hsize, he, rfl⟩
                  | error =>
                      rw [he] at h
                      cases h
                  | assertion =>
                      rw [he] at h
                      cases h

/-- What a failed save leaves behind: no root, or the table of `tree_expand`. -/
theorem saveInode_error (h : s.saveInode bits n inode data blocks = .error s') :
    (s.withRoot blocks = none ∧ s' = s) ∨ ∃ t rest, s.withRoot blocks = some (t, rest) ∧
      (probeFrom t.tree.node t.tree.depth t.tree.root inode.inum = none ∨ ∃ cursor t',
        probeFrom t.tree.node t.tree.depth t.tree.root inode.inum = some cursor ∧
        expandEek bits n t rest cursor inode.inum data.length = some t' ∧
        s' = { s with table := t', hasRoot := true }) := by
  rw [Inums.saveInode] at h
  split at h
  · cases h
  · cases hroot : s.withRoot blocks with
    | none =>
        rw [hroot] at h
        cases h
        exact Or.inl ⟨rfl, rfl⟩
    | some r =>
        obtain ⟨t, rest⟩ := r
        rw [hroot] at h
        dsimp only at h
        refine Or.inr ⟨t, rest, rfl, ?_⟩
        cases hcursor : probeFrom t.tree.node t.tree.depth t.tree.root inode.inum with
        | none => exact Or.inl rfl
        | some cursor =>
            rw [hcursor] at h
            dsimp only at h
            split at h
            · cases h
            · split at h
              · cases h
              · cases he : treeExpand bits n t rest cursor inode.inum data.length with
                | space t' block offset =>
                    rw [he] at h
                    cases h
                | error =>
                    rw [he] at h
                    cases h
                    obtain ⟨t', ht'⟩ := Option.isSome_iff_exists.mp (expandEek_isSome.mpr he)
                    exact Or.inr ⟨cursor, t', rfl, ht', by rw [ht']; rfl⟩
                | assertion =>
                    rw [he] at h
                    cases h

theorem purgeInum_cases (h : s.purgeInum bits inode = some s') :
    (inode ∈ s.allocInodes ∧ s' = { s with
      allocInodes := s.allocInodes.erase inode
      live := s.live.erase inode }) ∨
    (inode ∉ s.allocInodes ∧ ∃ t cursor, s.itable = some t ∧
      probeFrom t.tree.node t.tree.depth t.tree.root inode.inum = some cursor ∧
      t.stored bits inode.inum ≠ [] ∧ s' = { s with
        table := { t with
          leaf := Function.update t.leaf cursor.leaf (ileafPurge (t.leaf cursor.leaf) inode.inum) }
        live := s.live.erase inode }) := by
  rw [Inums.purgeInum] at h
  split at h
  · next hmem => exact Or.inl ⟨hmem, (Option.some.inj h).symm⟩
  · next hmem =>
      cases ht : s.itable with
      | none =>
          rw [ht] at h
          cases h
      | some t =>
          rw [ht] at h
          dsimp only at h
          cases hcursor : probeFrom t.tree.node t.tree.depth t.tree.root inode.inum with
          | none =>
              rw [hcursor] at h
              cases h
          | some cursor =>
              rw [hcursor] at h
              dsimp only at h
              split at h
              · cases h
              · next hstored =>
                  exact Or.inr ⟨hmem, t, cursor, rfl, hcursor, hstored, (Option.some.inj h).symm⟩

/-! ## The invariant -/

theorem Inums.Inv.next {inum id : ℕ} (h : s.Inv bits n)
    (hfree : ¬ Taken bits s.itable s.allocInodes inum)
    (hid : ∀ i ∈ s.live, i.id ≠ id) : Inums.Inv bits n { s with
      allocInodes := s.allocInodes ++ [⟨id, inum⟩]
      live := ⟨id, inum⟩ :: s.live } := by
  have hnew : (⟨id, inum⟩ : Inode) ∉ s.live := fun hmem => hid _ hmem rfl
  refine ⟨h.good, ?_, fun i hi => ?_, fun i hi => ?_, List.nodup_cons.mpr ⟨fun hmem => ?_, h.nodup⟩⟩
  · rw [List.nodup_append]
    refine ⟨h.alloc_nodup, List.nodup_singleton _, fun i hi j hj => ?_⟩
    obtain rfl := List.mem_singleton.mp hj
    rintro rfl
    exact hnew (h.alloc_live _ hi)
  · rcases List.mem_append.mp hi with hi | hi
    · exact List.mem_cons_of_mem _ (h.alloc_live i hi)
    · obtain rfl := List.mem_singleton.mp hi
      exact List.mem_cons_self
  · rcases List.mem_cons.mp hi with rfl | hi
    · exact Or.inl (List.mem_append_right _ List.mem_cons_self)
    · exact (h.taken i hi).imp_left (List.mem_append_left _)
  · obtain ⟨i, hi, heq⟩ := List.mem_map.mp hmem
    rcases h.taken i hi with hdefer | ⟨t, ht, hne⟩
    · exact hfree (Or.inr ⟨i, hdefer, heq⟩)
    · obtain rfl : i.inum = inum := heq
      exact hfree (Or.inl ⟨t, ht, hne⟩)

/-- Making a root keeps what is stored, which is nothing. -/
theorem Inums.Inv.withRoot (h : s.Inv bits n) (hn : 2 ≤ n) (h4 : 4 ≤ bits)
    (hfresh : (blocks ++ s.blocks).Nodup) (hroot : s.withRoot blocks = some (t, rest)) :
    t.Good n bits ∧ (rest ++ blocksOf t.tree.node t.tree.depth t.tree.root).Nodup ∧
      ∀ i ∈ s.live, i ∈ s.allocInodes ∨ t.stored bits i.inum ≠ [] := by
  unfold Inums.withRoot at hroot
  rw [Inums.blocks] at hfresh
  cases hr : s.hasRoot with
  | true =>
      rw [hr] at hroot hfresh
      cases hroot
      have ht : s.itable = some s.table := by rw [Inums.itable, hr]; rfl
      refine ⟨h.good _ ht, hfresh, fun i hi => (h.taken i hi).imp_right ?_⟩
      rintro ⟨t, ht', hne⟩
      obtain rfl := Option.some.inj (ht.symm.trans ht')
      exact hne
  | false =>
      rw [hr] at hroot hfresh
      have ht : s.itable = none := by rw [Inums.itable, hr]; rfl
      have htaken : ∀ i ∈ s.live, i ∈ s.allocInodes := fun i hi => by
        rcases h.taken i hi with hmem | ⟨t, ht', -⟩
        · exact hmem
        · rw [ht] at ht'
          cases ht'
      rw [if_neg Bool.false_ne_true, List.append_nil] at hfresh
      rcases blocks with _ | ⟨rootblock, _ | ⟨leafblock, rest'⟩⟩
      · cases hroot
      · cases hroot
      · cases hroot
        obtain ⟨hr, hfresh⟩ := List.nodup_cons.mp hfresh
        obtain ⟨hl, hfresh⟩ := List.nodup_cons.mp hfresh
        rw [List.mem_cons, not_or] at hr
        refine ⟨start_good hn h4 _ _ hr.1, ?_, fun i hi => Or.inl (htaken i hi)⟩
        have hblocks : blocksOf (allocEmptyBtree s.table.tree.node s.table.leaf rootblock
            leafblock).tree.node 1 rootblock = [rootblock, leafblock] := by
          change rootblock :: ((allocEmptyBtree s.table.tree.node s.table.leaf rootblock
            leafblock).tree.node rootblock).flatMap _ = _
          rw [show (allocEmptyBtree s.table.tree.node s.table.leaf rootblock
            leafblock).tree.node rootblock = [⟨0, leafblock⟩] from Function.update_self _ _ _]
          rfl
        change (rest ++ blocksOf _ 1 rootblock).Nodup
        rw [hblocks, List.nodup_append]
        refine ⟨hfresh, List.nodup_cons.mpr ⟨?_, List.nodup_singleton _⟩, fun a ha b hb => ?_⟩
        · exact fun hmem => hr.1 (List.mem_singleton.mp hmem)
        · rintro rfl
          rcases List.mem_cons.mp hb with rfl | hb
          · exact hr.2 ha
          · obtain rfl := List.mem_singleton.mp hb
            exact hl ha

theorem Inums.Inv.keep (h : s.Inv bits n) (ht : t.Good n bits)
    (htaken : ∀ i ∈ s.live, i ∈ s.allocInodes ∨ t.stored bits i.inum ≠ []) :
    Inums.Inv bits n { s with table := t, hasRoot := true } :=
  ⟨fun t' ht' => by cases ht'; exact ht, h.alloc_nodup, h.alloc_live,
    fun i hi => (htaken i hi).imp_right fun hne => ⟨t, rfl, hne⟩, h.nodup⟩

theorem Inums.Inv.inum_ne {i : Inode} (h : s.Inv bits n) (hi : i ∈ s.live) (hinode : inode ∈ s.live)
    (hne : i ≠ inode) : i.inum ≠ inode.inum :=
  fun heq => hne (List.inj_on_of_nodup_map h.nodup hi hinode heq)

theorem Inums.Inv.saved (h : s.Inv bits n) (hn : 2 ≤ n) (hbits : 4 ≤ bits ∧ bits ≤ 16)
    (hi : inode ∈ s.live) (hfresh : (blocks ++ s.blocks).Nodup) (hint : data.length < 2 ^ 31)
    (hs : s.saveInode bits n inode data blocks = .ok s') : s'.Inv bits n := by
  obtain ⟨t, rest, cursor, t', block, offset, hroot, hcursor, hnew, he, rfl⟩ := saveInode_ok hs
  obtain ⟨hgood, hfresh', htaken⟩ := h.withRoot hn hbits.1 hfresh hroot
  obtain ⟨hgood', hreached, hlookup, -, -, hkeeps⟩ :=
    hgood.expand hn hbits.2 hcursor hfresh' hnew hint he
  obtain ⟨hwrite, hother⟩ := hgood'.write hbits.2 hreached hlookup
  have hself : ((t'.write block offset data).stored bits inode.inum).length = data.length := by
    have hleaf : ileafLookup bits ((t'.write block offset data).leaf block) inode.inum =
        some (data.length, offset) := by
      rw [show (t'.write block offset data).leaf block = _ from Function.update_self _ _ _]
      exact hlookup
    rw [Table.stored, Table.lookup,
      show (t'.write block offset data).tree.reached inode.inum = some block from hreached]
    dsimp only
    rw [hleaf, Option.map_some, Option.getD_some, bytes_length]
  refine ⟨fun t ht => by cases ht; exact hwrite, h.alloc_nodup.erase _,
    fun i hmem => h.alloc_live i (List.mem_of_mem_erase hmem), fun i hmem => ?_, h.nodup⟩
  by_cases heq : i = inode
  · subst heq
    refine Or.inr ⟨_, rfl, fun hnil => ?_⟩
    change (t'.write block offset data).stored bits i.inum = [] at hnil
    rw [hnil, List.length_nil] at hself
    omega
  · refine (htaken i hmem).imp (fun hdefer => (List.mem_erase_of_ne heq).mpr hdefer)
      fun hne => ⟨_, rfl, ?_⟩
    have hstored : (t'.write block offset data).stored bits i.inum = t.stored bits i.inum := by
      rw [Table.stored, hother _ (h.inum_ne hmem hi heq)]
      exact (hkeeps _ (h.inum_ne hmem hi heq)).stored_eq
    change (t'.write block offset data).stored bits i.inum ≠ []
    rw [hstored]
    exact hne

/-- A failed `tree_expand` that has moved nothing keeps the attributes of all inodes. -/
theorem expandEek_keeps (h : t.Good n bits) (hbits : bits ≤ 16) {inum newsize : ℕ}
    (hcursor : probeFrom t.tree.node t.tree.depth t.tree.root inum = some cursor)
    (hfresh : (rest ++ blocksOf t.tree.node t.tree.depth t.tree.root).Nodup)
    (he : expandEek bits n t rest cursor inum newsize = some t')
    (hmoved : rest = [] ∨ rest.length = 1 ∧ ∀ x, inum ≤ x → (t.leaf cursor.leaf).record x = []) :
    ∀ x, t'.stored bits x = t.stored bits x := by
  unfold expandEek at he
  split at he
  · cases he
  · rcases hmoved with rfl | ⟨hlen, hmoved⟩
    · cases he
      exact fun x => rfl
    · obtain ⟨newbuf, rfl⟩ := List.length_eq_one_iff.mp hlen
      obtain ⟨-, har, -⟩ := h.around hcursor
      have hbase := (h.leaf (lowKey t.tree.node cursor.path 0, cursor.leaf) (by
        rw [har.split]
        exact List.mem_append_right _ List.mem_cons_self)).1
      obtain ⟨tree, htree, rfl⟩ := leafSplitEek_cases (hbase ▸ har.low_le) he
      obtain rfl := eek_nil htree
      exact (splitLeaf_keeps h hbits hcursor (List.nodup_cons.mp hfresh).1 rfl).mpr hmoved

theorem Inums.Inv.failed (h : s.Inv bits n) (hn : 2 ≤ n) (hbits : 4 ≤ bits ∧ bits ≤ 16)
    (hfresh : (blocks ++ s.blocks).Nodup)
    (hkeeps : s.Keeps bits n (.saveInode inode data blocks))
    (hs : s.saveInode bits n inode data blocks = .error s') : s'.Inv bits n := by
  rcases saveInode_error hs with ⟨-, rfl⟩ | ⟨t, rest, hroot, hcase⟩
  · exact h
  · obtain ⟨hgood, hfresh', htaken⟩ := h.withRoot hn hbits.1 hfresh hroot
    rcases hcase with hnone | ⟨cursor, t', hcursor, he, rfl⟩
    · obtain ⟨c, hc, -⟩ := probe_spec hgood.tree.sized hgood.tree.sorted (Nat.zero_le inode.inum)
      rw [hnone] at hc
      cases hc
    · have hstored := expandEek_keeps hgood hbits.2 hcursor hfresh' he
        (hkeeps _ t rest cursor hs hroot hcursor)
      refine h.keep (hgood.expandEek hn hbits.2 hcursor hfresh' he) fun i hi => ?_
      rw [hstored]
      exact htaken i hi

theorem Inums.Inv.purged (h : s.Inv bits n) (hbits : bits ≤ 16) (hi : inode ∈ s.live)
    (hs : s.purgeInum bits inode = some s') : s'.Inv bits n := by
  have hnodup : s.live.Nodup := h.nodup.of_map _
  have hlive : ((s.live.erase inode).map Inode.inum).Nodup :=
    h.nodup.sublist ((List.erase_sublist).map _)
  rcases purgeInum_cases hs with ⟨hmem, rfl⟩ | ⟨hmem, t, cursor, ht, hcursor, hstored, rfl⟩
  · refine ⟨h.good, h.alloc_nodup.erase _, fun i hi' => ?_, fun i hi' => ?_, hlive⟩
    · obtain ⟨hne, hi'⟩ := (h.alloc_nodup.mem_erase_iff).mp hi'
      exact (List.mem_erase_of_ne hne).mpr (h.alloc_live i hi')
    · obtain ⟨hne, hi'⟩ := (hnodup.mem_erase_iff).mp hi'
      exact (h.taken i hi').imp_left (List.mem_erase_of_ne hne).mpr
  · have hgood := h.good t ht
    have hpurge := hgood.purge hbits hcursor hstored
    have hroot : s.hasRoot = true := by
      by_contra hne
      rw [Inums.itable, if_neg hne] at ht
      cases ht
    obtain ⟨-, har, -⟩ := hgood.around hcursor
    obtain ⟨hbase, hleaf⟩ := hgood.leaf (lowKey t.tree.node cursor.path 0, cursor.leaf) (by
      rw [har.split]
      exact List.mem_append_right _ List.mem_cons_self)
    dsimp only at hbase hleaf
    have hin : inode.inum - (t.leaf cursor.leaf).ibase < (t.leaf cursor.leaf).icount := by
      by_contra hge
      rw [hgood.stored_eq hbits (har.reached hgood),
        record_behind (Nat.le_of_not_lt hge)] at hstored
      exact hstored rfl
    obtain ⟨hibase, -, -, -, hrecord⟩ := purge_spec hleaf hbits (hbase ▸ har.low_le) hin
    generalize ileafPurge (t.leaf cursor.leaf) inode.inum = leaf' at hpurge hibase hrecord ⊢
    have hnew : ({ s with
        table := { t with leaf := Function.update t.leaf cursor.leaf leaf' }
        live := s.live.erase inode } : Inums).itable =
          some { t with leaf := Function.update t.leaf cursor.leaf leaf' } := if_pos hroot
    refine ⟨fun t' ht' => ?_, h.alloc_nodup, fun i hi' => ?_, fun i hi' => ?_, hlive⟩
    · obtain rfl := Option.some.inj (hnew.symm.trans ht')
      exact hpurge
    · have hne : i ≠ inode := by
        rintro rfl
        exact hmem hi'
      exact (List.mem_erase_of_ne hne).mpr (h.alloc_live i hi')
    · obtain ⟨hne, hi'⟩ := (hnodup.mem_erase_iff).mp hi'
      refine (h.taken i hi').imp_right ?_
      rintro ⟨t', ht', hne'⟩
      obtain rfl := Option.some.inj (ht.symm.trans ht')
      refine ⟨_, hnew, ?_⟩
      have hself : Function.update t.leaf cursor.leaf leaf' cursor.leaf = leaf' :=
        Function.update_self _ _ _
      rw [Table.stored, @Table.Good.lookup_congr t _ _ _ inode.inum cursor.leaf _ hgood hpurge
        hbits rfl
        (fun y hy => Function.update_of_ne hy _ _) (by dsimp only; rw [hself, hibase])
        (fun x hx hxne => by dsimp only; rw [hself]; exact hrecord x hx hxne)
        (h.inum_ne hi' hi hne)]
      exact hne'

/-! ## Runs -/

theorem calls_inv (hn : 2 ≤ n) (hbits : 4 ≤ bits ∧ bits ≤ 16)
    (h : Calls bits n (fun s call => s.Keeps bits n call) s) : s.Inv bits n := by
  induction h with
  | start table =>
      exact ⟨fun t ht => (nomatch ht), List.nodup_nil, fun i hi => (nomatch hi),
        fun i hi => (nomatch hi), List.nodup_nil⟩
  | step h hok hs ih =>
      cases hs with
      | allocInum hgoal hid ha => exact ih.next (allocInum_free ih.good hbits.2 ha) hid
      | allocError ha => exact ih
      | saveInode hi hfresh hint hs => exact ih.saved hn hbits hi hfresh hint hs
      | saveError hi hfresh hint hs => exact ih.failed hn hbits hfresh hok hs
      | purgeInum hi hs => exact ih.purged hbits.2 hi hs
      | purgeError hi => exact ih

/-- With a free number from the goal on, `alloc_inum` ends and assigns the least one; and in a run
whose failing saves have moved nothing, no two inodes have the same number. -/
theorem allocInum_exact (hn : 2 ≤ n) (hbits : 4 ≤ bits ∧ bits ≤ 16) :
    (∀ (table : Option Table) (allocInodes : List Inode) (goal : ℕ),
      (∀ t, table = some t → Run bits n t) →
      ((∃ m, goal ≤ m ∧ m < 2 ^ 64 ∧ ¬ Taken bits table allocInodes m) →
        ∃ rounds₀, ∀ rounds, rounds₀ ≤ rounds →
          allocInum bits table allocInodes rounds goal ≠ none) ∧
      ∀ rounds inum, allocInum bits table allocInodes rounds goal = some (.inum inum) →
        (IsNext bits table allocInodes goal inum ↔
          ∃ m, goal ≤ m ∧ m < 2 ^ 64 ∧ ¬ Taken bits table allocInodes m)) ∧
    ∀ s, Calls bits n (fun s call => s.Keeps bits n call) s → (s.live.map Inode.inum).Nodup := by
  refine ⟨fun table allocInodes goal hrun => ?_, fun s h => (calls_inv hn hbits h).nodup⟩
  have hgood : ∀ t, table = some t → t.Good n bits := fun t ht =>
    run_good (hrun t ht) hn hbits.2 hbits.1
  have hleast : (∃ m, goal ≤ m ∧ m < 2 ^ 64 ∧ ¬ Taken bits table allocInodes m) →
      ∃ m, IsNext bits table allocInodes goal m := fun hfree => by
    classical
    exact ⟨Nat.find hfree, Nat.find_spec hfree, fun x hx => Nat.find_min' hfree hx⟩
  refine ⟨fun hfree => ?_, fun rounds inum h => ⟨fun hnext => ⟨inum, hnext.1⟩, fun hfree => ?_⟩⟩
  · obtain ⟨m, hm⟩ := hleast hfree
    refine ⟨roundsFor table goal m + 1, fun rounds hle hnone => ?_⟩
    have hrounds := (allocInum_spec hgood hbits.2 hm).1 hnone
    omega
  · obtain ⟨m, hm⟩ := hleast hfree
    rcases (allocInum_spec hgood hbits.2 hm).2 _ h with heq | ⟨hno, -⟩
    · cases heq
      exact hm
    · exact absurd rfl (hno inum)

/-- Inode 0 is stored, 1 is on the list, and the next one gets 2; and after two saves the numbers of
the inodes differ. -/
theorem allocInum_exact_two : (∃ t, Run 8 2 t ∧ t.stored 8 0 = [7] ∧
      IsNext 8 (some t) [⟨0, 1⟩] 0 2) ∧
    ∃ s, Calls 8 2 (fun s call => s.Keeps 8 2 call) s ∧ s.live.length = 2 ∧
      (s.live.map Inode.inum).Nodup := by
  have hbits : 4 ≤ 8 ∧ 8 ≤ 16 := by decide
  obtain ⟨hnext, hnodup⟩ := allocInum_exact (Nat.le_refl 2) hbits
  constructor
  · have h₀ : Run 8 2 (allocEmptyBtree (fun _ => []) (fun _ => ileafInit) 1 2) :=
      Run.start (fun _ => []) (fun _ => ileafInit) (by decide)
    have h₁ := @Run.expand _ _ _ _ [] _ 0 1 _ _ [7] h₀ rfl (by decide) (by decide) (by decide)
      rfl rfl
    obtain ⟨-, hleast⟩ := hnext (some _) [⟨0, 1⟩] 0 fun t ht => Option.some.inj ht ▸ h₁
    refine ⟨_, h₁, rfl, (hleast 9 2 rfl).mpr ⟨2, by decide, by decide, ?_⟩⟩
    rintro (⟨t, ht, hstored⟩ | ⟨i, hi, heq⟩)
    · cases ht
      exact hstored rfl
    · obtain rfl := List.mem_singleton.mp hi
      cases heq
  · have h₀ : Calls 8 2 (fun s call => s.Keeps 8 2 call) _ :=
      Calls.start ⟨⟨fun _ => [], 0, 0⟩, fun _ => ileafInit⟩
    have h₁ := h₀.step (by trivial) (@Step.allocInum 8 2 _ 0 0 9 0 (by decide) (by decide) rfl)
    have h₂ := h₁.step (by intro _ _ _ _ herr; cases herr) (@Step.saveInode 8 2 _ ⟨0, 0⟩
      (List.replicate 9 0) [1, 2] _ (by decide) (by decide) (by decide) rfl)
    have h₃ := h₂.step (by trivial) (@Step.allocInum 8 2 _ 1 0 9 1 (by decide) (by decide) rfl)
    have h₄ := h₃.step (by intro _ _ _ _ herr; cases herr) (@Step.saveInode 8 2 _ ⟨1, 1⟩
      (List.replicate 9 0) [] _ (by decide) (by decide) (by decide) rfl)
    exact ⟨_, h₄, rfl, hnodup _ h₄⟩

/-- Inode 1 is in the leaf that a failed save of it has cut off, and its number is given to another
inode. -/
theorem inum_twice : ∃ s, Calls 8 2 (fun _ _ => True) s ∧ ¬ (s.live.map Inode.inum).Nodup := by
  have h₀ : Calls 8 2 (fun _ _ => True) _ :=
    Calls.start ⟨⟨fun _ => [], 0, 0⟩, fun _ => ileafInit⟩
  have h₁ := h₀.step trivial (@Step.allocInum 8 2 _ 0 0 9 0 (by decide) (by decide) rfl)
  have h₂ := h₁.step trivial (@Step.saveInode 8 2 _ ⟨0, 0⟩ (List.replicate 100 0) [1, 2] _
    (by decide) (by decide) (by decide) rfl)
  have h₃ := h₂.step trivial (@Step.allocInum 8 2 _ 1 1 9 1 (by decide) (by decide) rfl)
  have h₄ := h₃.step trivial (@Step.saveInode 8 2 _ ⟨1, 1⟩ (List.replicate 100 0) [] _
    (by decide) (by decide) (by decide) rfl)
  have h₅ := h₄.step trivial (@Step.allocInum 8 2 _ 2 5 9 5 (by decide) (by decide) rfl)
  have h₆ := h₅.step trivial (@Step.saveInode 8 2 _ ⟨2, 5⟩ (List.replicate 9 0) [3] _
    (by decide) (by decide) (by decide) rfl)
  have h₇ := h₆.step trivial (@Step.saveError 8 2 _ ⟨1, 1⟩ (List.replicate 150 0) [9] _
    (by decide) (by decide) (by decide) rfl)
  have h₈ := h₇.step trivial (@Step.allocInum 8 2 _ 3 1 9 1 (by decide) (by decide) rfl)
  exact ⟨_, h₈, by decide⟩

end

end Tux3.Itable
