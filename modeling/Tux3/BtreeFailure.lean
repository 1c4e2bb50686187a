import Tux3.BtreeCursor
import Mathlib.Data.List.Flatten

/-!
# Failed index insertion

A split moves half of a node into a block that only the level above links. When the next node
cannot be allocated, the leaves below that block are cut off from the tree, and there is an old one
among them.
-/
namespace Tux3.Btree

section
variable {node : Nodes} {depth block low : ℕ}

/-! ## Leaves and their blocks -/

theorem leaves_snd (low low' : ℕ) :
    (leaves node depth low block).map Prod.snd = (leaves node depth low' block).map Prod.snd := by
  induction depth generalizing block low low' with
  | zero => rfl
  | succ depth ih =>
      rw [leaves, leaves, List.map_flatMap, List.map_flatMap]
      have hsame : ∀ l, (keyed l (node block)).flatMap
          (fun e => (leaves node depth e.key e.block).map Prod.snd) =
            (node block).flatMap fun e => (leaves node depth 0 e.block).map Prod.snd := by
        intro l
        rw [← @keyed_flatMap l _ _ fun b => (leaves node depth 0 b).map Prod.snd]
        exact List.flatMap_congr fun e _ => ih e.key 0
      rw [hsame, hsame]

theorem leaves_sublist (low : ℕ) :
    ((leaves node depth low block).map Prod.snd).Sublist (blocksOf node depth block) := by
  induction depth generalizing block low with
  | zero => exact List.Sublist.refl _
  | succ depth ih =>
      rw [leaves, blocksOf, List.map_flatMap]
      refine List.Sublist.cons _ ?_
      have hsame : (keyed low (node block)).flatMap
          (fun e => (leaves node depth e.key e.block).map Prod.snd) =
            (node block).flatMap fun e => (leaves node depth 0 e.block).map Prod.snd := by
        rw [← @keyed_flatMap low _ _ fun b => (leaves node depth 0 b).map Prod.snd]
        exact List.flatMap_congr fun e _ => leaves_snd e.key 0
      rw [hsame]
      exact List.Sublist.flatMap_right _ fun e _ => ih 0

theorem length_le_leaves {n : ℕ} (hs : Sized node n (depth + 1) block) (low : ℕ) :
    (node block).length ≤ (leaves node (depth + 1) low block).length := by
  rw [leaves, ← @keyed_length low]
  have hsub : ∀ e ∈ keyed low (node block), 0 < (leaves node depth e.key e.block).length := by
    intro e he
    obtain ⟨e', he', heq⟩ := keyed_mem he
    obtain ⟨b, rest, hl⟩ := leaves_ne_nil (heq ▸ hs.2.2 e' he') e.key
    rw [hl, List.length_cons]
    exact Nat.succ_pos _
  generalize keyed low (node block) = es at hsub
  induction es with
  | nil => exact Nat.zero_le _
  | cons e es ih =>
      have he := hsub e List.mem_cons_self
      have hrest := ih fun x hx => hsub x (List.mem_cons_of_mem e hx)
      rw [List.flatMap_cons, List.length_append, List.length_cons]
      omega

end

section
variable {node node' : Nodes} {n depth block leaf : ℕ} {path : List PathLevel} {s : Loop}
  {child c : Child} {blocks used : List ℕ}

/-! ## The child that stays behind -/

/-- The new node of a split has two entries, or there are entries to the right of the cursor. -/
theorem pending_wide {next : ℕ} {e : IndexEntry} (hn : 2 ≤ n)
    (hs : Sized node n (depth + 1) block) (hnext : 0 < next)
    (hentry : (node block)[next - 1]? = some e) (hpath : OnPath node depth e.block path leaf)
    (hnodup : (child.block :: blocks ++ blocksOf node (depth + 1) block).Nodup)
    (h : insertLevels node n blocks child (⟨block, next⟩ :: path) = some s) (hc : s.child = some c) :
    2 ≤ (s.node c.block).length ∨ next < (node block).length := by
  obtain ⟨s₀, hs₀, hlevel⟩ := insertLevels_cons h
  rcases hlevel with ⟨hnone, rfl⟩ | ⟨c₀, hc₀, hlevel⟩
  · dsimp only at hc
    rw [hnone] at hc
    cases hc
  · have he : e ∈ node block := List.mem_of_getElem? hentry
    obtain ⟨hsub, hfresh, hself⟩ := level_nodup he hnodup
    obtain ⟨used, hI⟩ := insertLevels_spec hn (hs.2.2 e he) hpath hsub hs₀
    have hnode : s₀.node block = node block := by
      refine hI.frame block (fun hx => hself (hpath.blocks_sub block hx)) fun hx => hfresh ?_
      exact List.mem_cons_of_mem _ (hI.blocks_eq ▸ List.mem_append_left _ hx)
    have hfresh₀ : block ∉ s₀.blocks := fun hx =>
      hfresh (List.mem_cons_of_mem _ (hI.blocks_eq ▸ List.mem_append_right _ hx))
    have hlt := (List.getElem?_eq_some_iff.mp hentry).1
    rcases Nat.lt_or_ge (s₀.node block).length n with hroom | hfull
    · rw [insertLevel_room (by exact hroom)] at hlevel
      obtain rfl := Option.some.inj hlevel
      cases hc
    · obtain ⟨newbuf, l, r, -, -, hchild, -, hr, -, hhalves⟩ :=
        insertLevel_split (by exact hfull) (by exact hfresh₀) hlevel
      obtain rfl := Option.some.inj (hc.symm.trans hchild)
      dsimp only at hhalves hr ⊢
      rw [hnode] at hhalves
      split at hhalves
      · next hleft => exact Or.inr (by omega)
      · next hright =>
          left
          rw [hr, hhalves.2.1, addChild_length, List.length_drop]
          omega

theorem inserted_nodup (hpath : OnPath node depth block path leaf)
    (hnodup : (child.block :: blocks ++ blocksOf node depth block).Nodup) (low : ℕ) :
    ((before node depth path low ++ (lowKey node path low, leaf) :: (child.key, child.block) ::
      after node depth path).map Prod.snd).Nodup := by
  have hold := @leaves_sublist node depth block low
  obtain ⟨hnew, htree, hdisj⟩ := List.nodup_append.mp hnodup
  have hfresh : child.block ∉ (leaves node depth low block).map Prod.snd := fun hx =>
    hdisj _ List.mem_cons_self _ (hold.subset hx) rfl
  have hall : (child.block :: (leaves node depth low block).map Prod.snd).Nodup :=
    List.nodup_cons.mpr ⟨hfresh, htree.sublist hold⟩
  rw [leaves_path hpath low] at hall
  refine (List.Perm.nodup_iff ?_).mp hall
  refine List.perm_iff_count.mpr fun x => ?_
  simp only [List.map_append, List.map_cons, List.count_append, List.count_cons]
  omega

/-- Below a child that still waits there is an old leaf. -/
theorem pending_old {next : ℕ} {e : IndexEntry} (hn : 2 ≤ n)
    (hs : Sized node n (depth + 1) block) (hnext : 0 < next)
    (hentry : (node block)[next - 1]? = some e) (hpath : OnPath node depth e.block path leaf)
    (hnodup : (child.block :: blocks ++ blocksOf node (depth + 1) block).Nodup)
    (h : insertLevels node n blocks child (⟨block, next⟩ :: path) = some s) (hc : s.child = some c) :
    ∃ y ∈ leaves s.node (depth + 1) c.key c.block, y.2 ≠ child.block := by
  have hlevel := OnPath.level hnext hentry hpath
  obtain ⟨used, hI⟩ := insertLevels_spec hn hs hlevel hnodup h
  have hwide := pending_wide hn hs hnext hentry hpath hnodup h hc
  have hleaves := hI.leaves_eq 0
  have hdiff := inserted_nodup hlevel hnodup 0
  have hsized := hI.sized 0 ⟨c.key, c.block⟩ (by
    rw [hc]
    exact List.mem_cons_of_mem _ List.mem_cons_self)
  rw [← hleaves] at hdiff
  simp only [hc, grown, Option.map_some, Option.toList_some, List.flatMap_cons, List.flatMap_nil,
    List.append_nil] at hleaves hdiff
  set q := leaves s.node (depth + 1) c.key c.block with hq
  by_contra hno
  have hsame : ∀ y ∈ q, y.2 = child.block := fun y hy => by
    by_contra hne
    exact hno ⟨y, hy, hne⟩
  rcases hwide with hwide | hright
  · have hlen : 2 ≤ q.length := Nat.le_trans hwide (length_le_leaves hsized c.key)
    rw [List.map_append] at hdiff
    have hqdiff := (List.nodup_append.mp hdiff).2.1
    obtain ⟨a, q', hq₁⟩ := List.exists_cons_of_length_pos (l := q) (by omega)
    rw [hq₁] at hlen hsame hqdiff
    obtain ⟨b, rest, hq₂⟩ := List.exists_cons_of_length_pos (l := q') (by
      rw [List.length_cons] at hlen
      omega)
    rw [hq₂] at hsame hqdiff
    refine (List.nodup_cons.mp hqdiff).1 ?_
    rw [hsame a List.mem_cons_self, ← hsame b (List.mem_cons_of_mem _ List.mem_cons_self)]
    exact List.mem_cons_self
  · -- the last leaf is to the right of the cursor
    have hafter : after node (depth + 1) (⟨block, next⟩ :: path) ≠ [] := by
      intro hnil
      rw [after, List.append_eq_nil_iff] at hnil
      obtain ⟨x, hx⟩ := List.exists_mem_of_ne_nil _
        (List.ne_nil_of_length_pos (l := (node block).drop next) (by rw [List.length_drop]; omega))
      obtain ⟨b, rest, hl⟩ := leaves_ne_nil (hs.2.2 x (List.mem_of_mem_drop hx)) x.key
      have hnil' := List.flatMap_eq_nil_iff.mp hnil.2 x hx
      rw [hl] at hnil'
      cases hnil'
    obtain ⟨b, rest, hl⟩ := leaves_ne_nil hsized c.key
    have hqne : q ≠ [] := by
      rw [hq, hl]
      exact List.cons_ne_nil _ _
    have hlast := congrArg List.getLast? hleaves
    rw [List.getLast?_append_of_ne_nil _ hqne, List.getLast?_append_of_ne_nil _ (List.cons_ne_nil _ _),
      List.getLast?_cons_cons, List.getLast?_cons_of_ne_nil hafter,
      List.getLast?_eq_some_getLast hafter] at hlast
    have hold : ((after node (depth + 1) (⟨block, next⟩ :: path)).getLast hafter).2 ∈
        blocksOf node (depth + 1) block := by
      refine (leaves_sublist 0).subset (List.mem_map.mpr ⟨_, ?_, rfl⟩)
      rw [leaves_path hlevel]
      exact List.mem_append_right _ (List.mem_cons_of_mem _ (List.getLast_mem hafter))
    refine (List.nodup_append.mp hnodup).2.2 _ List.mem_cons_self _ hold ?_
    exact (hsame _ (List.mem_of_getLast? hlast)).symm

/-! ## What is left -/

/-- What a failed insertion leaves below a block: the leaves with the new one, but for a segment. -/
structure Cut (node : Nodes) (n depth block leaf : ℕ) (path : List PathLevel) (child : Child)
    (blocks : List ℕ) (node' : Nodes) : Prop where
  frame : ∀ x, x ∉ path.map PathLevel.block → x ∉ blocks → node' x = node x
  leaves_eq : ∃ m r, m ≠ [] ∧ (blocks ≠ [] → ∃ y ∈ m, y.2 ≠ child.block) ∧ ∀ low, ∃ l,
    before node depth path low ++
      (lowKey node path low, leaf) :: (child.key, child.block) :: after node depth path =
        l ++ m ++ r ∧ leaves node' depth low block = l ++ r
  count : ∀ x, (blocksOf node' depth block).count x ≤
    (child.block :: blocks ++ blocksOf node depth block).count x
  sized : Sized node' n depth block

/-- The child that finds no block for the split of the level above. -/
theorem cut_pending (hn : 2 ≤ n) (hs : Sized node n depth block)
    (hpath : OnPath node depth block path leaf)
    (hnodup : (child.block :: blocks ++ blocksOf node depth block).Nodup)
    (h : insertLevels node n blocks child path = some s) (hc : s.child = some c)
    (hblocks : s.blocks = []) : Cut node n depth block leaf path child blocks s.node := by
  obtain ⟨used, hI⟩ := insertLevels_spec hn hs hpath hnodup h
  have hused : used = blocks := by rw [hI.blocks_eq, hblocks, List.append_nil]
  subst hused
  have hleaves := hI.leaves_eq
  have hperm := hI.perm 0
  have hsized := hI.sized 0
  simp only [hc, grown, Option.map_some, Option.toList_some, List.flatMap_cons, List.flatMap_nil,
    List.append_nil] at hleaves hperm hsized
  have hnew : Sized s.node n depth c.block :=
    hsized ⟨c.key, c.block⟩ (List.mem_cons_of_mem _ List.mem_cons_self)
  refine ⟨hI.frame, ⟨leaves s.node depth c.key c.block, [], ?_, fun hne => ?_, fun low =>
    ⟨leaves s.node depth low block, ?_, ?_⟩⟩, fun x => ?_, hsized _ List.mem_cons_self⟩
  · obtain ⟨b, rest, hl⟩ := leaves_ne_nil hnew c.key
    rw [hl]
    exact List.cons_ne_nil _ _
  · cases hpath with
    | leaf =>
        obtain rfl := Option.some.inj h
        exact absurd hblocks hne
    | level hnext hentry hpath => exact pending_old hn hs hnext hentry hpath hnodup h hc
  · rw [List.append_nil]
    exact (hleaves low).symm
  · rw [List.append_nil]
  · rw [← hperm.count_eq, List.count_append]
    exact Nat.le_add_right _ _

/-- The level above a level with missing leaves. -/
theorem Cut.level {next : ℕ} {e : IndexEntry} (hs : Sized node n (depth + 1) block)
    (hnext : 0 < next) (hentry : (node block)[next - 1]? = some e)
    (hpath : OnPath node depth e.block path leaf)
    (hnodup : (child.block :: blocks ++ blocksOf node (depth + 1) block).Nodup)
    (h : Cut node n depth e.block leaf path child blocks node') :
    Cut node n (depth + 1) block leaf (⟨block, next⟩ :: path) child blocks node' := by
  have he : e ∈ node block := List.mem_of_getElem? hentry
  obtain ⟨hsub, hfresh, hself⟩ := level_nodup he hnodup
  have hnode : node' block = node block :=
    h.frame block (fun hx => hself (hpath.blocks_sub block hx))
      fun hx => hfresh (List.mem_cons_of_mem _ hx)
  have hsplit := split_at hnext hentry
  set L := ((node block).take (next - 1)).flatMap fun x => blocksOf node depth x.block with hL
  set S := blocksOf node depth e.block with hS
  set R := ((node block).drop next).flatMap fun x => blocksOf node depth x.block with hR
  have hB : blocksOf node (depth + 1) block = block :: (L ++ (S ++ R)) := by
    rw [blocksOf]
    conv_lhs => rw [hsplit]
    rw [List.flatMap_append, List.flatMap_cons]
  rw [hB] at hnodup
  obtain ⟨-, htree, hdisj⟩ := List.nodup_append.mp hnodup
  obtain ⟨hblock, htree⟩ := List.nodup_cons.mp htree
  obtain ⟨-, hSR, hdisjL⟩ := List.nodup_append.mp htree
  obtain ⟨-, -, hdisjR⟩ := List.nodup_append.mp hSR
  have hside : ∀ x, x ∈ L ∨ x ∈ R → node' x = node x := by
    intro x hx
    refine h.frame x (fun hp => ?_) fun hb => ?_
    · have hxS := hpath.blocks_sub x hp
      rcases hx with hx | hx
      · exact hdisjL x hx x (List.mem_append_left _ hxS) rfl
      · exact hdisjR x hxS x hx rfl
    · refine hdisj x (List.mem_cons_of_mem _ hb) x (List.mem_cons_of_mem _ ?_) rfl
      rcases hx with hx | hx
      · exact List.mem_append_left _ hx
      · exact List.mem_append_right _ (List.mem_append_right _ hx)
  have hleft : ∀ a ∈ (node block).take (next - 1), ∀ x ∈ blocksOf node depth a.block,
      node' x = node x := fun a ha x hx => hside x (Or.inl (List.mem_flatMap.mpr ⟨a, ha, hx⟩))
  have hright : ∀ a ∈ (node block).drop next, ∀ x ∈ blocksOf node depth a.block,
      node' x = node x := fun a ha x hx => hside x (Or.inr (List.mem_flatMap.mpr ⟨a, ha, hx⟩))
  obtain ⟨m, r, hm, hold, hleaves⟩ := h.leaves_eq
  refine ⟨fun x hx hxb => ?_, ⟨m, r ++ ((node block).drop next).flatMap
    fun e => leaves node depth e.key e.block, hm, hold, fun low => ?_⟩, fun x => ?_, ?_, ?_, ?_⟩
  · rw [List.map_cons, List.mem_cons, not_or] at hx
    exact h.frame x hx.2 hxb
  · obtain ⟨l, hT, hl⟩ := hleaves (if next = 1 then low else e.key)
    refine ⟨((keyed low (node block)).take (next - 1)).flatMap
      (fun e => leaves node depth e.key e.block) ++ l, ?_, ?_⟩
    · rw [before, lowKey, after]
      dsimp only
      rw [hentry]
      have hT' := congrArg (· ++ ((node block).drop next).flatMap
        fun e => leaves node depth e.key e.block) hT
      simp only [Option.map_some, Option.getD_some, List.append_assoc, List.cons_append] at hT' ⊢
      rw [hT']
    · rw [leaves_entry hnext (hnode ▸ hentry), hl, hnode, List.append_assoc, List.append_assoc,
        List.flatMap_congr (g := fun a => leaves node depth a.key a.block)
          (l := (node block).drop next) fun a ha => (subtree_congr (hright a ha)).2.1 a.key,
        List.flatMap_congr (g := fun a => leaves node depth a.key a.block)
          (l := (keyed low (node block)).take (next - 1)) fun a ha => ?_]
      rw [keyed_take] at ha
      obtain ⟨a', ha', heq⟩ := keyed_mem ha
      exact (subtree_congr (heq ▸ hleft a' ha')).2.1 a.key
  · have hB' : blocksOf node' (depth + 1) block =
        block :: (L ++ (blocksOf node' depth e.block ++ R)) := by
      rw [blocksOf, hnode]
      conv_lhs => rw [hsplit]
      rw [List.flatMap_append, List.flatMap_cons,
        List.flatMap_congr (g := fun a => blocksOf node depth a.block)
          (l := (node block).drop next) fun a ha => (subtree_congr (hright a ha)).1,
        List.flatMap_congr (g := fun a => blocksOf node depth a.block)
          (l := (node block).take (next - 1)) fun a ha => (subtree_congr (hleft a ha)).1]
    have hc : (blocksOf node' depth e.block).count x ≤ (child.block :: blocks ++ S).count x :=
      h.count x
    rw [hB, hB']
    simp only [List.count_append, List.count_cons] at hc ⊢
    omega
  · rw [hnode]
    exact hs.1
  · rw [hnode]
    exact hs.2.1
  · intro a ha
    rw [hnode, hsplit, List.mem_append, List.mem_cons] at ha
    rcases ha with ha | rfl | ha
    · exact ((subtree_congr (hleft a ha)).2.2 n).mpr (hs.2.2 a (List.mem_of_mem_take ha))
    · exact h.sized
    · exact ((subtree_congr (hright a ha)).2.2 n).mpr (hs.2.2 a (List.mem_of_mem_drop ha))

theorem eekLevels_cut (hn : 2 ≤ n) (hs : Sized node n depth block)
    (hpath : OnPath node depth block path leaf)
    (hnodup : (child.block :: blocks ++ blocksOf node depth block).Nodup)
    (h : eekLevels node n blocks child path = some node') :
    Cut node n depth block leaf path child blocks node' := by
  induction hpath with
  | leaf block => cases h
  | @level depth block next e path leaf hnext hentry hpath ih =>
      have he : e ∈ node block := List.mem_of_getElem? hentry
      obtain ⟨hsub, -, -⟩ := level_nodup he hnodup
      refine Cut.level hs hnext hentry hpath hnodup ?_
      rw [eekLevels] at h
      cases hl : insertLevels node n blocks child path with
      | none =>
          rw [hl] at h
          exact ih (hs.2.2 e he) hsub h
      | some s =>
          rw [hl] at h
          dsimp only at h
          cases hc : s.child with
          | none =>
              rw [hc] at h
              cases h
          | some c =>
              rw [hc] at h
              dsimp only at h
              cases hlevel : insertLevel n ⟨block, next⟩ s c with
              | some s' =>
                  rw [hlevel] at h
                  cases h
              | none =>
                  rw [hlevel] at h
                  obtain rfl := Option.some.inj h
                  refine cut_pending hn (hs.2.2 e he) hpath hsub hl hc ?_
                  unfold insertLevel at hlevel
                  dsimp only at hlevel
                  split at hlevel
                  · cases hlevel
                  · split at hlevel
                    · next hblocks => exact hblocks
                    · cases hlevel

end

section
variable {t t' : Tree} {n q k leafbuf : ℕ} {blocks : List ℕ} {cursor : Cursor} {keep : Bool}

/-! ## The tree -/

/-- `insert_leaf` fails exactly when it gets to `eek`. -/
theorem eek_isSome : (eek t n blocks cursor k leafbuf keep).isSome ↔
    insertLeaf t n blocks cursor k leafbuf keep = none := by
  have hlevels : ∀ path, (eekLevels t.node n blocks ⟨k, leafbuf, keep⟩ path).isSome ↔
      insertLevels t.node n blocks ⟨k, leafbuf, keep⟩ path = none := by
    intro path
    induction path with
    | nil => simp [eekLevels, insertLevels]
    | cons at' rest ih =>
        rw [eekLevels, insertLevels]
        cases hl : insertLevels t.node n blocks ⟨k, leafbuf, keep⟩ rest with
        | none => simpa [hl] using ih
        | some s =>
            cases hc : s.child with
            | none => simp [hc]
            | some c => cases hs : insertLevel n at' s c <;> simp [hc, hs]
  rw [eek, insertLeaf]
  cases hl : insertLevels t.node n blocks ⟨k, leafbuf, keep⟩ cursor.path with
  | none => simpa using (hlevels cursor.path).mpr hl
  | some s =>
      cases hc : s.child with
      | none => simp [hc]
      | some c => cases hb : s.blocks <;> simp [hc, hb]

theorem eek_cut (hn : 2 ≤ n) (hw : t.WellFormed n)
    (hpath : OnPath t.node t.depth t.root cursor.path cursor.leaf)
    (hfresh : (leafbuf :: blocks ++ blocksOf t.node t.depth t.root).Nodup)
    (h : eek t n blocks cursor k leafbuf keep = some t') :
    t'.root = t.root ∧ t'.depth = t.depth ∧
      Cut t.node n t.depth t.root cursor.leaf cursor.path ⟨k, leafbuf, keep⟩ blocks t'.node := by
  rw [eek] at h
  cases hl : insertLevels t.node n blocks ⟨k, leafbuf, keep⟩ cursor.path with
  | none =>
      rw [hl] at h
      obtain ⟨node', hnode', rfl⟩ := Option.map_eq_some_iff.mp h
      exact ⟨rfl, rfl, eekLevels_cut hn hw.sized hpath hfresh hnode'⟩
  | some s =>
      rw [hl] at h
      dsimp only at h
      split at h
      · next c hc hb =>
          obtain rfl := Option.some.inj h
          exact ⟨rfl, rfl, cut_pending hn hw.sized hpath hfresh hl hc hb⟩
      · cases h

/-- The tree that is left is well-formed, with a part of the leaves. -/
theorem eek_wellFormed (hn : 2 ≤ n) (hw : t.WellFormed n)
    (hpath : OnPath t.node t.depth t.root cursor.path cursor.leaf)
    (hfresh : (leafbuf :: blocks ++ blocksOf t.node t.depth t.root).Nodup)
    (hlow : lowKey t.node cursor.path 0 ≤ k) (hafter : ∀ x ∈ after t.node t.depth cursor.path, k ≤ x.1)
    (h : eek t n blocks cursor k leafbuf keep = some t') :
    t'.WellFormed n ∧ (leaves t'.node t'.depth 0 t'.root).Sublist
      (before t.node t.depth cursor.path 0 ++ (lowKey t.node cursor.path 0, cursor.leaf) ::
        (k, leafbuf) :: after t.node t.depth cursor.path) := by
  obtain ⟨hroot, hdepth, hcut⟩ := eek_cut hn hw hpath hfresh h
  obtain ⟨m, r, -, -, hleaves⟩ := hcut.leaves_eq
  obtain ⟨l, hT, hl⟩ := hleaves 0
  have hsub : (leaves t'.node t'.depth 0 t'.root).Sublist
      (before t.node t.depth cursor.path 0 ++ (lowKey t.node cursor.path 0, cursor.leaf) ::
        (k, leafbuf) :: after t.node t.depth cursor.path) := by
    rw [hdepth, hroot, hl, hT, List.append_assoc]
    exact (List.sublist_append_right m r).append_left l
  refine ⟨⟨?_, ?_, ?_⟩, hsub⟩
  · rw [hdepth, hroot]
    exact hcut.sized
  · rw [hdepth, hroot, List.nodup_iff_count_le_one]
    exact fun x => Nat.le_trans (hcut.count x) (List.nodup_iff_count_le_one.mp hfresh x)
  · have hsorted := hw.sorted
    rw [leaves_path hpath] at hsorted
    exact (sorted_insert hsorted hlow hafter).sublist (hsub.map Prod.fst)

theorem insertLevels_nil {node : Nodes} {child : Child} {path : List PathLevel} {s : Loop}
    (h : insertLevels node n [] child path = some s) :
    s.blocks = [] ∧ (s.child ≠ none → s.node = node) := by
  induction path generalizing s with
  | nil =>
      obtain rfl := Option.some.inj h
      exact ⟨rfl, fun _ => rfl⟩
  | cons at' rest ih =>
      obtain ⟨s₀, hs₀, hlevel⟩ := insertLevels_cons h
      obtain ⟨hblocks, hnode⟩ := ih hs₀
      rcases hlevel with ⟨hnone, rfl⟩ | ⟨c, -, hlevel⟩
      · exact ⟨hblocks, fun hc => absurd hnone hc⟩
      · unfold insertLevel at hlevel
        dsimp only at hlevel
        rw [hblocks] at hlevel
        split at hlevel
        · obtain rfl := Option.some.inj hlevel
          exact ⟨rfl, fun hc => absurd rfl hc⟩
        · cases hlevel

/-- Without a new block nothing has changed. -/
theorem eek_nil (h : eek t n [] cursor k leafbuf keep = some t') : t' = t := by
  have hlevels : ∀ path node', eekLevels t.node n [] ⟨k, leafbuf, keep⟩ path = some node' →
      node' = t.node := by
    intro path
    induction path with
    | nil =>
        intro node' h
        cases h
    | cons at' rest ih =>
        intro node' h
        rw [eekLevels] at h
        cases hl : insertLevels t.node n [] ⟨k, leafbuf, keep⟩ rest with
        | none =>
            rw [hl] at h
            exact ih node' h
        | some s =>
            rw [hl] at h
            dsimp only at h
            split at h
            · cases h
            · next c hc =>
                split at h
                · obtain rfl := Option.some.inj h
                  exact (insertLevels_nil hl).2 (by rw [hc]; exact Option.some_ne_none c)
                · cases h
  rw [eek] at h
  cases hl : insertLevels t.node n [] ⟨k, leafbuf, keep⟩ cursor.path with
  | none =>
      rw [hl] at h
      obtain ⟨node', hnode', rfl⟩ := Option.map_eq_some_iff.mp h
      rw [hlevels _ _ hnode']
  | some s =>
      rw [hl] at h
      dsimp only at h
      split at h
      · next c hc _ =>
          obtain rfl := Option.some.inj h
          rw [(insertLevels_nil hl).2 (by rw [hc]; exact Option.some_ne_none c)]
      · cases h

theorem probe_onPath {node : Nodes} {depth block : ℕ} {c : Cursor}
    (h : probeFrom node depth block q = some c) : OnPath node depth block c.path c.leaf := by
  induction depth generalizing block c with
  | zero =>
      obtain rfl := Option.some.inj h
      exact OnPath.leaf block
  | succ depth ih =>
      rw [probeFrom] at h
      split at h
      · cases h
      · next e he =>
          obtain ⟨c', hc', rfl⟩ := Option.map_eq_some_iff.mp h
          exact OnPath.level probeNext_pos he (ih hc')

theorem Tree.reached_mem {b : ℕ} (h : t.reached q = some b) :
    b ∈ (leaves t.node t.depth 0 t.root).map Prod.snd := by
  obtain ⟨c, hc, rfl⟩ := Option.map_eq_some_iff.mp h
  rw [leaves_path (probe_onPath hc), List.map_append, List.map_cons]
  exact List.mem_append_right _ List.mem_cons_self

theorem Tree.WellFormed.reached_self (hw : t.WellFormed n)
    (hstrict : ((leaves t.node t.depth 0 t.root).map Prod.fst).Nodup) {y : ℕ × ℕ}
    (hy : y ∈ leaves t.node t.depth 0 t.root) : t.reached y.1 = some y.2 := by
  obtain ⟨b, a, hsplit⟩ := List.append_of_mem hy
  have hsorted := hw.sorted
  rw [hsplit, List.map_append, List.map_cons] at hsorted hstrict
  have hle := (List.pairwise_cons.mp (List.pairwise_append.mp hsorted).2.1).1
  have hne := (List.nodup_cons.mp (List.nodup_append.mp hstrict).2.1).1
  have hright : a.filter (fun x => decide (x.1 ≤ y.1)) = [] := by
    refine List.filter_eq_nil_iff.mpr fun x hx => ?_
    have hmem : x.1 ∈ a.map Prod.fst := List.mem_map.mpr ⟨x, hx, rfl⟩
    have hlt := Nat.lt_of_le_of_ne (hle x.1 hmem) fun heq => hne (heq ▸ hmem)
    simp only [decide_eq_true_eq]
    omega
  rw [hw.reached_eq, hsplit, List.filter_append, List.filter_cons_of_pos (by simp), hright,
    List.getLast?_append]
  rfl

/-- A failed insertion keeps every leaf exactly when no node was split. -/
theorem eek_keeps (hn : 2 ≤ n) (hw : t.WellFormed n)
    (hstrict : ((leaves t.node t.depth 0 t.root).map Prod.fst).Nodup)
    (hcursor : probeFrom t.node t.depth t.root q = some cursor)
    (hfresh : (leafbuf :: blocks ++ blocksOf t.node t.depth t.root).Nodup)
    (h : eek t n blocks cursor k leafbuf keep = some t') :
    (∀ x, t'.reached x = t.reached x) ↔ blocks = [] := by
  constructor
  · intro hsame
    by_contra hne
    have hpath := probe_onPath hcursor
    obtain ⟨hroot, hdepth, hcut⟩ := eek_cut hn hw hpath hfresh h
    obtain ⟨m, r, -, hold, hleaves⟩ := hcut.leaves_eq
    obtain ⟨y, hy, hyold⟩ := hold hne
    obtain ⟨l, hT, hl⟩ := hleaves 0
    have hdiff := @inserted_nodup _ _ _ _ _ ⟨k, leafbuf, keep⟩ _ hpath hfresh 0
    have hyT : y ∈ l ++ m ++ r := List.mem_append_left _ (List.mem_append_right _ hy)
    have hyt : y ∈ leaves t.node t.depth 0 t.root := by
      rw [leaves_path hpath, List.mem_append, List.mem_cons]
      rw [← hT, List.mem_append, List.mem_cons, List.mem_cons] at hyT
      rcases hyT with hb | rfl | rfl | ha
      · exact Or.inl hb
      · exact Or.inr (Or.inl rfl)
      · exact absurd rfl hyold
      · exact Or.inr (Or.inr ha)
    have hreached := (hsame y.1).trans (hw.reached_self hstrict hyt)
    have hmem := Tree.reached_mem hreached
    rw [hdepth, hroot, hl, List.map_append, List.mem_append] at hmem
    rw [hT, List.map_append, List.map_append] at hdiff
    obtain ⟨hlm, -, hr⟩ := List.nodup_append.mp hdiff
    have hym : y.2 ∈ m.map Prod.snd := List.mem_map.mpr ⟨y, hy, rfl⟩
    rcases hmem with hmem | hmem
    · exact (List.nodup_append.mp hlm).2.2 _ hmem _ hym rfl
    · exact hr _ (List.mem_append_right _ hym) _ hmem rfl
  · rintro rfl
    rw [eek_nil h]
    exact fun _ => rfl

end

end Tux3.Btree
