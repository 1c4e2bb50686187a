import Tux3.MapExact
import Tux3.BtreeFailure

/-!
# Failed packing

When no leaf can be had for the packing, the leaf of the region is chopped already. What the piece
that is not packed says is lost, or the extents behind the region are, or a leaf of the tree.
-/
namespace Tux3.Btree

theorem Steady.path_of_none {t : Tree} {n k leafbuf room : ℕ} {blocks : List ℕ} {cursor : Cursor}
    (h : Steady t n (room + 1) cursor) (hdepth : 0 < t.depth)
    (hinsert : insertLeaf t n blocks cursor k leafbuf false = none) :
    OnPath t.node t.depth t.root cursor.path cursor.leaf := by
  obtain ⟨path, hpath, hlast, rfl | hroom⟩ := h
  · exact hpath
  · obtain ⟨d, hd⟩ := Nat.exists_eq_succ_of_ne_zero (Nat.ne_of_gt hdepth)
    obtain ⟨⟨x, next⟩, hx⟩ : ∃ a, path.getLast? = some a := by
      rw [hd] at hpath
      cases hpath with
      | level => exact ⟨_, List.getLast?_eq_some_getLast (List.cons_ne_nil _ _)⟩
    have hle := hroom _ hx
    obtain ⟨upper, hupper⟩ := List.getLast?_eq_some_iff.mp (hlast ▸ hx)
    have hlt : (t.node x).length < n := by
      dsimp only at hle
      omega
    rw [show cursor = ⟨upper ++ [⟨x, next⟩], cursor.leaf⟩ by rw [← hupper],
      insertLeaf_room hlt] at hinsert
    cases hinsert

end Tux3.Btree

namespace Tux3.MapRegion

open Btree Dleaf TreeChop

section
variable {blocksize n next : ℕ} {a mapped done : List (ℕ × ℕ)} {stock old : List ℕ} {p : Piece}
  {ps : List Piece} {s s' : PackState} {tree : Dtree} {ok : ℕ × Extent → Prop}

/-! ## Leaves without extents -/

/-- A leaf without extents is an old one, or the one of the cursor. -/
def EmptiesIn (old : List ℕ) (s : PackState) : Prop :=
  ∀ y ∈ s.tree.leafList, (s.tree.leaf y.2).pairs = [] → y.2 ∈ old ∨ y.2 = s.cursor.leaf

/-- A leaf that is left behind is full. -/
theorem Front.spill_empties (h : Front ok blocksize n a mapped stock done next (p :: ps) s)
    (hfull : dleafFree (s.tree.leaf s.cursor.leaf) < DLEAF_MAX_EXTENT_SIZE) (hn : 15 ≤ n)
    (hlen : (n + 1) / 2 + (p :: ps).length / 15 + 2 ≤ n) (hblocksize : 256 ≤ blocksize)
    (hold : EmptiesIn old s)
    (hinsert : insertNewLeaf n p.key (dleafInit blocksize) s = some (.linked s')) :
    EmptiesIn old s' := by
  obtain ⟨leafbuf, blocks, leaves, tree, cursor', hleaves, hinsert', rfl⟩ :=
    insertNewLeaf_linked hinsert
  obtain ⟨b, low, hlist, -, -⟩ := h.place
  have hsteady := h.room.full hfull
  have hadd := leafAdded_of_insert (dleafInit blocksize) (by omega) h.good.wellFormed hlist
    (by omega) hsteady (h.fresh hleaves) hinsert'
  have hmem : (low, s.cursor.leaf) ∈ s.tree.leafList := by
    rw [hlist]
    exact List.mem_append_right b List.mem_cons_self
  have hne := pairs_of_full (h.good.wellFormed.sound _ hmem) hblocksize hfull
  intro y hy hnil
  dsimp only at hy hnil ⊢
  by_cases hnew : y.2 = leafbuf
  · exact .inr (hnew.trans hadd.cursor.symm)
  · rw [hadd.leafList, List.append_cons, List.mem_append, List.mem_cons] at hy
    have hin : y ∈ s.tree.leafList := by
      rw [hlist, List.append_cons, List.mem_append]
      rcases hy with hy | rfl | hy
      · exact .inl hy
      · exact absurd rfl hnew
      · exact .inr hy
    rw [Function.update_of_ne hnew] at hnil
    refine (hold y hin hnil).imp_right fun heq => absurd ?_ hne
    rw [← heq]
    exact hnil

theorem Front.round_empties (h : Front ok blocksize n a mapped stock done next (p :: ps) s)
    (hn : 15 ≤ n) (hlen : (n + 1) / 2 + (p :: ps).length / 15 + 2 ≤ n)
    (hblocksize : 256 ≤ blocksize) (hold : EmptiesIn old s)
    (hround : packPiece blocksize n p s = some (.done s')) : EmptiesIn old s' := by
  have hadded : ∀ {s₁ : PackState}, EmptiesIn old s₁ →
      (dwalkAdd blocksize (s₁.tree.leaf s₁.cursor.leaf) s₁.walk p.index p.extent).map (fun r =>
        Packed.done { s₁ with
          tree := { s₁.tree with leaf := Function.update s₁.tree.leaf s₁.cursor.leaf r.1 }
          walk := r.2 }) = some (.done s') →
      EmptiesIn old s' := by
    intro s₁ hold₁ hmap
    obtain ⟨⟨leaf', walk'⟩, -, heq⟩ := Option.map_eq_some_iff.mp hmap
    cases heq
    intro y hy hnil
    by_cases hat : y.2 = s₁.cursor.leaf
    · exact .inr hat
    · dsimp only at hnil
      rw [Function.update_of_ne hat] at hnil
      exact hold₁ y hy hnil
  unfold packPiece at hround
  dsimp only at hround
  split at hround
  · next hfull =>
      split at hround
      · cases hround
      · cases hround
      · cases hround
      · next s₁ hinsert =>
          exact hadded (h.spill_empties hfull hn hlen hblocksize hold hinsert) hround
  · exact hadded hold hround

/-! ## The rounds -/

theorem packPiece_failed (h : packPiece blocksize n p s = some (.failed tree)) : tree = s.tree := by
  have hadded : ∀ s₁ : PackState,
      (dwalkAdd blocksize (s₁.tree.leaf s₁.cursor.leaf) s₁.walk p.index p.extent).map (fun r =>
        Packed.done { s₁ with
          tree := { s₁.tree with leaf := Function.update s₁.tree.leaf s₁.cursor.leaf r.1 }
          walk := r.2 }) ≠ some (.failed tree) := by
    intro s₁ hmap
    obtain ⟨r, -, heq⟩ := Option.map_eq_some_iff.mp hmap
    cases heq
  unfold packPiece at h
  dsimp only at h
  split at h
  · split at h
    · cases h
    · cases h
      rfl
    · cases h
    · exact absurd h (hadded _)
  · exact absurd h (hadded s)

section
variable (hn : 15 ≤ n) (hblocksize : 256 ≤ blocksize)
include hn hblocksize

theorem Front.rounds_empties (h : Front ok blocksize n a mapped stock done next ps s)
    (hpack : Packable ok a next ps) (hlen : (n + 1) / 2 + ps.length / 15 + 2 ≤ n)
    (hfirst : ∀ p ∈ ps.head?, p.key = p.index ∨
      DLEAF_MAX_EXTENT_SIZE ≤ dleafFree (s.tree.leaf s.cursor.leaf))
    (hkeys : ∀ p ∈ ps.tail, p.key = p.index) (hold : EmptiesIn old s)
    (hrun : packAll blocksize n ps s = some (.done s')) : EmptiesIn old s' := by
  induction ps generalizing s done next with
  | nil =>
      rw [packAll] at hrun
      cases hrun
      exact hold
  | cons p ps ih =>
      rw [packAll] at hrun
      split at hrun
      · next s₁ hround =>
          obtain ⟨hfront, -⟩ := h.round hn hblocksize hpack hlen (hfirst p rfl) hround
          have hlen' : (n + 1) / 2 + ps.length / 15 + 2 ≤ n := by
            rw [List.length_cons] at hlen
            omega
          exact ih hfront hpack.tail hlen' (fun q hq => .inl (hkeys q (List.mem_of_mem_head? hq)))
            (fun q hq => hkeys q (List.mem_of_mem_tail hq))
            (h.round_empties hn hlen hblocksize hold hround) hrun
      · next hother => exact absurd hrun (hother s')

/-- The blocks of the piece that is not packed are not mapped. -/
theorem Front.rounds_failed (h : Front ok blocksize n a mapped stock done next ps s)
    (hpack : Packable ok a next ps) (hlen : (n + 1) / 2 + ps.length / 15 + 2 ≤ n)
    (hfirst : ∀ p ∈ ps.head?, p.key = p.index ∨
      DLEAF_MAX_EXTENT_SIZE ≤ dleafFree (s.tree.leaf s.cursor.leaf))
    (hkeys : ∀ p ∈ ps.tail, p.key = p.index)
    (hrun : packAll blocksize n ps s = some (.failed tree)) :
    ∃ p ∈ ps, ∀ x ∈ extentBlocks p.pair, x ∉ tree.mapping.map Prod.snd := by
  induction ps generalizing s done next with
  | nil =>
      rw [packAll] at hrun
      cases hrun
  | cons p ps ih =>
      rw [packAll] at hrun
      split at hrun
      · next s₁ hround =>
          obtain ⟨hfront, -⟩ := h.round hn hblocksize hpack hlen (hfirst p rfl) hround
          have hlen' : (n + 1) / 2 + ps.length / 15 + 2 ≤ n := by
            rw [List.length_cons] at hlen
            omega
          obtain ⟨q, hq, hlost⟩ := ih hfront hpack.tail hlen'
            (fun q hq => .inl (hkeys q (List.mem_of_mem_head? hq)))
            (fun q hq => hkeys q (List.mem_of_mem_tail hq)) hrun
          exact ⟨q, List.mem_cons_of_mem p hq, hlost⟩
      · obtain rfl := packPiece_failed hrun
        refine ⟨p, List.mem_cons_self, fun x hx hin => ?_⟩
        have hdisj := (List.nodup_append.mp h.nodup).2.2
        refine hdisj x (List.mem_append_right _ hin) x (List.mem_append_left _ ?_) rfl
        exact List.mem_flatMap.mpr ⟨p, List.mem_cons_self, hx⟩

end

/-! ## The extents behind the region -/

theorem insertNewLeaf_failed {key : ℕ} {content : Leaf} {r : Inserted}
    (h : insertNewLeaf n key content s = some r) (hr : ∀ s', r ≠ .linked s') :
    r = .refused ∨ ∃ leafbuf blocks leaves tree, s.leaves = (leafbuf, blocks) :: leaves ∧
      insertLeaf s.tree.toTree n blocks s.cursor key leafbuf false = none ∧
      eek s.tree.toTree n blocks s.cursor key leafbuf false = some tree ∧
      r = .unlinked ⟨tree, Function.update s.tree.leaf leafbuf content⟩ := by
  unfold insertNewLeaf at h
  split at h
  · cases h
    exact .inl rfl
  · next leafbuf blocks leaves hleaves =>
      dsimp only at h
      split at h
      · next hinsert =>
          obtain ⟨tree, heek, rfl⟩ := Option.map_eq_some_iff.mp h
          exact .inr ⟨leafbuf, blocks, leaves, tree, hleaves, hinsert, heek, rfl⟩
      · obtain ⟨-, h⟩ := Option.ite_none_right_eq_some.mp h
        cases h
        exact absurd rfl (hr _)

theorem packTail_failed {tailkey : ℕ} {tail : Leaf}
    (h : packTail blocksize n tailkey tail s = some (.failed tree)) :
    tree = s.tree ∨ insertNewLeaf n tailkey tail s = some (.unlinked tree) := by
  unfold packTail at h
  dsimp only at h
  split at h
  · obtain ⟨r, -, heq⟩ := Option.map_eq_some_iff.mp h
    cases heq
  · split at h
    · cases h
    · split at h
      · cases h
      · cases h
        exact .inl rfl
      · next hinsert =>
          cases h
          exact .inr hinsert
      · cases h

theorem lost_of_cut {leaf : ℕ → Leaf} {l m r : List (ℕ × ℕ)}
    (hnodup : ((leavesMapping leaf (l ++ m ++ r)).map Prod.snd).Nodup) {y : ℕ × ℕ} (hy : y ∈ m)
    {x : ℕ × ℕ} (hx : x ∈ (leaf y.2).mapping) :
    x ∈ leavesMapping leaf (l ++ m ++ r) ∧
      x.2 ∉ (leavesMapping leaf (l ++ r)).map Prod.snd := by
  have hin : x ∈ leavesMapping leaf m := List.mem_flatMap.mpr ⟨y, hy, hx⟩
  rw [leavesMapping_append, leavesMapping_append] at hnodup ⊢
  refine ⟨List.mem_append_left _ (List.mem_append_right _ hin), fun hout => ?_⟩
  rw [List.map_append, List.map_append] at hnodup
  obtain ⟨hlm, -, hr⟩ := List.nodup_append.mp hnodup
  have hin' := List.mem_map_of_mem (f := Prod.snd) hin
  rw [leavesMapping_append, List.map_append] at hout
  rcases List.mem_append.mp hout with hout | hout
  · exact (List.nodup_append.mp hlm).2.2 _ hout _ hin' rfl
  · exact hr _ (List.mem_append_right _ hin') _ hout rfl

theorem pairs_eq_nil {leaf : Leaf} (h : leaf.Ordered) (hnil : leaf.mapping = []) :
    leaf.pairs = [] := by
  refine List.eq_nil_iff_forall_not_mem.mpr fun p hp => ?_
  have hpos := (h.counts p hp).1
  have hin : (p.1, p.2.block) ∈ leaf.mapping :=
    List.mem_flatMap.mpr ⟨p, hp, mem_indexBlocks.mpr ⟨0, hpos, rfl, rfl⟩⟩
  rw [hnil] at hin
  cases hin

section
variable {tailkey : ℕ} {tail : Leaf}
  (h : Front ok blocksize n a mapped (tail.mapping.map Prod.snd) done next [] s)
include h

theorem Front.mapping_eq : s.tree.mapping = done ++ mapped := by
  obtain ⟨b, low, hlist, -, hdone⟩ := h.place
  rw [Dtree.mapping, hlist, List.append_cons, leavesMapping_append, hdone, h.rest]

theorem Front.tail_nodup : ((done ++ tail.mapping ++ mapped).map Prod.snd).Nodup := by
  have hnodup : ((s.tree.mapping.map Prod.snd) ++ tail.mapping.map Prod.snd).Nodup := by
    refine h.nodup.sublist (List.Sublist.append (List.sublist_append_right _ _) ?_)
    rw [List.flatMap_nil, List.nil_append]
    exact List.sublist_append_left _ _
  rw [h.mapping_eq] at hnodup
  refine (List.Perm.nodup_iff (List.perm_iff_count.mpr fun x => ?_)).mp hnodup
  simp only [List.map_append, List.count_append]
  omega

theorem Front.tail_refused (htail : tail.mapping ≠ []) :
    ∃ x ∈ done ++ tail.mapping ++ mapped, x.2 ∉ s.tree.mapping.map Prod.snd := by
  obtain ⟨x, hx⟩ := List.exists_mem_of_ne_nil _ htail
  refine ⟨x, List.mem_append_left _ (List.mem_append_right _ hx), fun hin => ?_⟩
  rw [h.mapping_eq] at hin
  have hnodup : ((done ++ mapped).map Prod.snd ++ tail.mapping.map Prod.snd).Nodup := by
    refine (List.Perm.nodup_iff (List.perm_iff_count.mpr fun x => ?_)).mp h.tail_nodup
    simp only [List.map_append, List.count_append]
    omega
  exact (List.nodup_append.mp hnodup).2.2 _ hin _ (List.mem_map_of_mem hx) rfl

/-- The leaves that a failed insertion cuts off: they have extents, or one of them is old. -/
theorem Front.tail_unlinked {leafbuf : ℕ} {blocks : List ℕ} {leaves : List (ℕ × List ℕ)}
    {tree' : Tree} (hn : 2 ≤ n) (htail : tail.mapping ≠ [])
    (hne : (s.tree.leaf s.cursor.leaf).pairs ≠ []) (hold : EmptiesIn old s)
    (hleaves : s.leaves = (leafbuf, blocks) :: leaves)
    (hnone : insertLeaf s.tree.toTree n blocks s.cursor tailkey leafbuf false = none)
    (heek : eek s.tree.toTree n blocks s.cursor tailkey leafbuf false = some tree') :
    (∃ x ∈ done ++ tail.mapping ++ mapped,
        x.2 ∉ (Dtree.mapping ⟨tree', Function.update s.tree.leaf leafbuf tail⟩).map Prod.snd) ∨
      ∃ y ∈ old,
        y ∉ (Dtree.leafList ⟨tree', Function.update s.tree.leaf leafbuf tail⟩).map Prod.snd := by
  obtain ⟨b, low, hlist, -, hdone⟩ := h.place
  have hdata := h.tail_nodup
  have hfresh := h.fresh hleaves
  have hnew : leafbuf ∉ s.tree.blocks := fun hin =>
    (List.nodup_append.mp hfresh).2.2 leafbuf List.mem_cons_self leafbuf hin rfl
  have hsteady : Steady s.tree.toTree n (0 + 1) s.cursor :=
    h.room.steady fun added _ => Nat.le_add_left _ _
  have hpath := hsteady.path_of_none h.good.wellFormed.depth hnone
  obtain ⟨hroot, hdepth, hcut⟩ := eek_cut hn h.good.wellFormed.index hpath hfresh heek
  obtain ⟨m, r, hm, -, hrest⟩ := hcut.leaves_eq
  obtain ⟨l, hT, hl⟩ := hrest 0
  have hdiff := @inserted_nodup _ _ _ _ _ ⟨tailkey, leafbuf, false⟩ _ hpath hfresh 0
  obtain ⟨hb, hlow, ha⟩ := h.good.wellFormed.path_split hlist hpath
  dsimp only at hT hdiff
  rw [← hb, ← hlow, ← ha] at hT hdiff
  have htree : Dtree.leafList ⟨tree', Function.update s.tree.leaf leafbuf tail⟩ = l ++ r := by
    rw [← hl, ← hroot, ← hdepth]
    rfl
  -- what the leaves would map with the new one
  have hmapping : leavesMapping (Function.update s.tree.leaf leafbuf tail) (l ++ m ++ r) =
      done ++ tail.mapping ++ mapped := by
    have hsame : ∀ k : List (ℕ × ℕ), (∀ x ∈ k, x ∈ s.tree.leafList) →
        leavesMapping (Function.update s.tree.leaf leafbuf tail) k =
          leavesMapping s.tree.leaf k :=
      fun k hk => leavesMapping_congr fun x hx => leaf_same hnew (hk x hx)
    rw [← hT, List.append_cons, leavesMapping_append, leavesMapping_cons, hsame, hsame, hdone,
      h.rest, Function.update_self, List.append_assoc]
    · intro x hx
      rw [hlist]
      exact List.mem_append_right _ (List.mem_cons_of_mem _ hx)
    · intro x hx
      rw [hlist, List.append_cons]
      exact List.mem_append_left _ hx
  obtain ⟨y, hy⟩ := List.exists_mem_of_ne_nil m hm
  cases hmap : (Function.update s.tree.leaf leafbuf tail y.2).mapping with
  | cons x xs =>
      refine .inl ⟨x, ?_⟩
      rw [← hmapping] at hdata ⊢
      rw [Dtree.mapping, htree]
      exact lost_of_cut hdata hy (hmap ▸ List.mem_cons_self)
  | nil =>
      have hother : y.2 ≠ leafbuf := by
        intro heq
        rw [heq, Function.update_self] at hmap
        exact htail hmap
      have hin : y ∈ s.tree.leafList := by
        have hyT : y ∈ b ++ (low, s.cursor.leaf) :: (tailkey, leafbuf) :: a :=
          hT ▸ List.mem_append_left _ (List.mem_append_right _ hy)
        rw [List.append_cons, List.mem_append, List.mem_cons] at hyT
        rw [hlist, List.append_cons, List.mem_append]
        rcases hyT with hyT | rfl | hyT
        · exact .inl hyT
        · exact absurd rfl hother
        · exact .inr hyT
      rw [Function.update_of_ne hother] at hmap
      have hnil := pairs_eq_nil (h.good.wellFormed.ordered y hin) hmap
      have hyold : y.2 ∈ old := (hold y hin hnil).resolve_right fun heq => hne (heq ▸ hnil)
      refine .inr ⟨y.2, hyold, fun hout => ?_⟩
      rw [htree, List.map_append] at hout
      rw [hT, List.map_append, List.map_append] at hdiff
      obtain ⟨hlm, -, hr⟩ := List.nodup_append.mp hdiff
      have hym := List.mem_map_of_mem (f := Prod.snd) hy
      rcases List.mem_append.mp hout with hout | hout
      · exact (List.nodup_append.mp hlm).2.2 _ hout _ hym rfl
      · exact hr _ (List.mem_append_right _ hym) _ hout rfl

theorem Front.tail_failed (hn : 2 ≤ n) (htail : tail.mapping ≠ [])
    (hne : (s.tree.leaf s.cursor.leaf).pairs ≠ []) (hold : EmptiesIn old s)
    (hrun : packTail blocksize n tailkey tail s = some (.failed tree)) :
    (∃ x ∈ done ++ tail.mapping ++ mapped, x.2 ∉ tree.mapping.map Prod.snd) ∨
      ∃ y ∈ old, y ∉ tree.leafList.map Prod.snd := by
  rcases packTail_failed hrun with rfl | hinsert
  · exact .inl (h.tail_refused htail)
  · obtain hrefused | ⟨leafbuf, blocks, leaves, tree', hleaves, hnone, heek, heq⟩ :=
      insertNewLeaf_failed hinsert fun s' hlinked => by cases hlinked
    · cases hrefused
    · cases heq
      exact h.tail_unlinked hn htail hne hold hleaves hnone heek

end

end

/-! ## The packing -/

section
variable {blocksize n k m low next : ℕ} {t tree : Dtree} {gs : List Bunch} {a b : List (ℕ × ℕ)}
  {ps : List Piece} {cursor : Cursor} {leaves : List (ℕ × List ℕ)} {ok : ℕ × Extent → Prop}

/-- Packing that fails loses something of the mapping that it was for, or a leaf of the tree. -/
theorem Repackable.failed
    (hr : Repackable ok blocksize n t cursor b a low gs k m next ps leaves)
    (h : t.GoodFor ok blocksize n) (hn : 15 ≤ n) (hblocksize : 256 ≤ blocksize)
    (hrun : repack blocksize n ps (spot gs m) (spot gs k) leaves t cursor = some (.failed tree)) :
    (∃ x ∈ leavesMapping t.leaf b ++ ((pairsOf gs).take k).flatMap indexBlocks ++
        (ps.flatMap fun p => indexBlocks p.pair) ++ ((pairsOf gs).drop m).flatMap indexBlocks ++
        leavesMapping t.leaf a, x.2 ∉ tree.mapping.map Prod.snd) ∨
      ∃ y ∈ t.leafList.map Prod.snd, y ∉ tree.leafList.map Prod.snd := by
  obtain ⟨tail, s₀, hcopy, hlist, hfront, hstart, hcase⟩ := hr.split h hrun
  rcases hcase with ⟨s₁, hpacked, hrun⟩ | ⟨hpacked, -⟩
  · obtain ⟨next', hfront', hne', -⟩ := hfront.rounds hn hblocksize hr.packable hr.short hstart
      hr.keys hpacked
    have hempties := hfront.rounds_empties hn hblocksize hr.packable hr.short hstart hr.keys
      (fun y hy _ => .inl (List.mem_map_of_mem (hlist ▸ hy))) hpacked
    split at hrun
    · cases hrun
    · next hlt =>
        have hlt := Nat.lt_of_le_of_ne hr.m_le hlt
        obtain ⟨hfit, hpairs, hmapping, -⟩ := hr.tail_fits h hlt hcopy
        have htail : tail.mapping ≠ [] := by
          intro hnil
          rw [pairs_eq_nil hfit.ordered hnil] at hpairs
          have hlen := congrArg List.length hpairs
          rw [List.length_nil, List.length_drop, pairsOf_length] at hlen
          omega
        rw [← hmapping] at hfront' ⊢
        exact hfront'.tail_failed (by omega) htail (hne' hr.nonempty) hempties hrun
  · obtain ⟨p, hp, hlost⟩ := hfront.rounds_failed hn hblocksize hr.packable hr.short hstart
      hr.keys hpacked
    have hpos := (hr.packable.counts p hp).1
    refine .inl ⟨(p.index, p.extent.block), ?_, hlost _ (List.mem_range'_1.mpr ⟨Nat.le_refl _, ?_⟩)⟩
    · refine List.mem_append_left _ (List.mem_append_left _ (List.mem_append_right _ ?_))
      exact List.mem_flatMap.mpr ⟨p, hp, mem_indexBlocks.mpr ⟨0, hpos, rfl, rfl⟩⟩
    · exact Nat.lt_add_of_pos_right hpos

end

end Tux3.MapRegion
