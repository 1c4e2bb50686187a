import Tux3.TreeChopNodes
import Tux3.DleafChop
import Mathlib.Logic.Relation

/-!
# Emptying the subtrees right of a path

Every leaf right of the key is empty after the chop, so that it merges into the leaf before it, and
every node there ends up empty and merges into the node before it. What is left of the work on such
a subtree is that its entry in the node above is gone.
-/
namespace Tux3.TreeChop

open Btree Dleaf Relation

section
variable (node : Nodes) (leaf : ℕ → Leaf) (key : ℕ)

/-- The leaves below a block. -/
def leafBlocks : ℕ → ℕ → List ℕ
  | 0, block => [block]
  | depth + 1, block => (node block).flatMap fun e => leafBlocks depth e.block

/-- The calls of `bfree` while the subtree of a block is removed. -/
def freedBelow : ℕ → ℕ → List (ℕ × ℕ)
  | 0, block => (leaf block).pairs.filterMap (freedFrom key) ++ [(block, 1)]
  | depth + 1, block => (node block).flatMap (fun e => freedBelow depth e.block) ++ [(block, 1)]

end

section
variable (blocksize entriesPerNode key : ℕ)

/-- One round of the loops. -/
def Step (c c' : Chop × Control) : Prop := chopStep blocksize entriesPerNode key c = some c'

/-- The chop keeps nothing of a leaf. -/
def Empties (leaf : Leaf) : Prop :=
  dleafChop blocksize leaf key =
    some (dleafInit blocksize, leaf.pairs.filterMap (freedFrom key))

/-- Entries of a node whose subtrees the chop empties, with blocks that are not held. -/
structure Doomed (s : Chop) (depth : ℕ) (es : List IndexEntry) (held : List ℕ) : Prop where
  sized : ∀ e ∈ es, Sized s.node entriesPerNode depth e.block
  nodup : (es.flatMap fun e => blocksOf s.node depth e.block).Nodup
  apart : ∀ x ∈ held, ∀ e ∈ es, x ∉ blocksOf s.node depth e.block
  empties : ∀ e ∈ es, ∀ b ∈ leafBlocks s.node depth e.block, Empties blocksize key (s.leaf b)

end

/-- The variables at a level with so many levels below it. -/
structure Ready (s : Chop) (level below leafbuf : ℕ) : Prop where
  depth : s.depth = level + 1 + below
  prev : ∀ i < below, ∃ p, s.prev[level + 1 + i]? = some (some p)
  leafprev : s.leafprev = some leafbuf

/-- The work on entries from `n` on of a node `x`, with the blocks below. -/
structure Cleared (s s' : Chop) (x n : ℕ) (upper : List PathLevel) (entries : List IndexEntry)
    (below : List ℕ) (freed : List (ℕ × ℕ)) : Prop where
  entries : s'.node x = entries
  kept : ∀ y, y ≠ x → y ∉ below → Kept upper s.node s'.node y
  other : n ≠ 0 → ∀ y, y ≠ x → y ∉ below → s'.node y = s.node y
  leaf : ∀ y, y ∉ below → s'.leaf y = s.leaf y
  freed : s'.freed = s.freed ++ freed
  root : s'.root = s.root
  depth : s'.depth = s.depth
  prev : s'.prev = s.prev
  leafprev : s'.leafprev = s.leafprev

section
variable {node node' : Nodes} {leaf leaf' : ℕ → Leaf} {key depth block : ℕ}

/-! ## Frames -/

theorem leafBlocks_subset {b : ℕ} (h : b ∈ leafBlocks node depth block) :
    b ∈ blocksOf node depth block := by
  induction depth generalizing block with
  | zero => exact h
  | succ depth ih =>
      obtain ⟨e, he, hb⟩ := List.mem_flatMap.mp h
      exact mem_child he (ih hb)

theorem mem_blocksOf : block ∈ blocksOf node depth block := by
  cases depth with
  | zero => exact List.mem_singleton_self block
  | succ depth => exact List.mem_cons_self

theorem freedBelow_congr (h : ∀ x ∈ blocksOf node depth block, node' x = node x)
    (hleaf : ∀ x ∈ blocksOf node depth block, leaf' x = leaf x) :
    leafBlocks node' depth block = leafBlocks node depth block ∧
      freedBelow node' leaf' key depth block = freedBelow node leaf key depth block := by
  induction depth generalizing block with
  | zero =>
      refine ⟨rfl, ?_⟩
      rw [freedBelow, freedBelow, hleaf block mem_blocksOf]
  | succ depth ih =>
      have hchild := fun e (he : e ∈ node block) =>
        ih (fun x hx => h x (mem_child he hx)) (fun x hx => hleaf x (mem_child he hx))
      constructor
      · rw [leafBlocks, leafBlocks, h block mem_blocksOf]
        exact List.flatMap_congr fun e he => (hchild e he).1
      · rw [freedBelow, freedBelow, h block mem_blocksOf]
        congr 1
        exact List.flatMap_congr fun e he => (hchild e he).2

end

section
variable {blocksize entriesPerNode key depth x n leafbuf : ℕ} {s s' s'' : Chop}
  {upper : List PathLevel} {e : IndexEntry} {es entries entries' : List IndexEntry}
  {held below below' : List ℕ} {freed freed' : List (ℕ × ℕ)}

theorem Cleared.ready (h : Cleared s s' x n upper entries below freed) {level : ℕ}
    (hready : Ready s level depth leafbuf) : Ready s' level depth leafbuf where
  depth := h.depth.trans hready.depth
  prev := by
    rw [h.prev]
    exact hready.prev
  leafprev := h.leafprev.trans hready.leafprev

theorem Cleared.refl (x n : ℕ) (upper : List PathLevel) :
    Cleared s s x n upper (s.node x) [] [] where
  entries := rfl
  kept _ _ _ := .inl rfl
  other _ _ _ _ := rfl
  leaf _ _ := rfl
  freed := (List.append_nil _).symm
  root := rfl
  depth := rfl
  prev := rfl
  leafprev := rfl

theorem Cleared.trans (h : Cleared s s' x n upper entries below freed)
    (h' : Cleared s' s'' x n upper entries' below' freed') :
    Cleared s s'' x n upper entries' (below ++ below') (freed ++ freed') where
  entries := h'.entries
  kept y hy hbelow := by
    rw [List.mem_append, not_or] at hbelow
    exact (h.kept y hy hbelow.1).trans (h'.kept y hy hbelow.2)
  other hn y hy hbelow := by
    rw [List.mem_append, not_or] at hbelow
    exact (h'.other hn y hy hbelow.2).trans (h.other hn y hy hbelow.1)
  leaf y hbelow := by
    rw [List.mem_append, not_or] at hbelow
    exact (h'.leaf y hbelow.2).trans (h.leaf y hbelow.1)
  freed := by rw [h'.freed, h.freed, List.append_assoc]
  root := h'.root.trans h.root
  depth := h'.depth.trans h.depth
  prev := h'.prev.trans h.prev
  leafprev := h'.leafprev.trans h.leafprev

theorem Cleared.frame (h : Cleared s s' x n upper entries below freed)
    {y : ℕ} (hx : y ≠ x) (hupper : ∀ p ∈ upper, p.block ≠ y) (hbelow : y ∉ below) :
    s'.node y = s.node y ∧ s'.leaf y = s.leaf y :=
  ⟨(h.kept y hx hbelow).of_notMem hupper, h.leaf y hbelow⟩

/-- Doomed entries stay so while their blocks are as before. -/
theorem Doomed.frame (h : Doomed blocksize entriesPerNode key s depth es held)
    (hframe : ∀ e ∈ es, ∀ y ∈ blocksOf s.node depth e.block,
      s'.node y = s.node y ∧ s'.leaf y = s.leaf y) :
    Doomed blocksize entriesPerNode key s' depth es held ∧
      (es.flatMap fun e => blocksOf s'.node depth e.block) =
        (es.flatMap fun e => blocksOf s.node depth e.block) ∧
      (es.flatMap fun e => freedBelow s'.node s'.leaf key depth e.block) =
        es.flatMap fun e => freedBelow s.node s.leaf key depth e.block := by
  have hblocks : ∀ e ∈ es, blocksOf s'.node depth e.block = blocksOf s.node depth e.block :=
    fun e he => (subtree_congr fun y hy => (hframe e he y hy).1).1
  have hfreed := fun e he => @freedBelow_congr _ _ _ _ key _ _
    (fun y hy => (hframe e he y hy).1) (fun y hy => (hframe e he y hy).2)
  have hflat := List.flatMap_congr hblocks
  refine ⟨⟨?_, ?_, ?_, ?_⟩, hflat, List.flatMap_congr fun e he => (hfreed e he).2⟩
  · intro e he
    exact ((subtree_congr fun y hy => (hframe e he y hy).1).2.2 _).mpr (h.sized e he)
  · rw [hflat]
    exact h.nodup
  · intro y hy e he
    rw [hblocks e he]
    exact h.apart y hy e he
  · intro e he b hb
    rw [(hfreed e he).1] at hb
    rw [(hframe e he b (leafBlocks_subset hb)).2]
    exact h.empties e he b hb

theorem Doomed.tail (h : Doomed blocksize entriesPerNode key s depth (e :: es)
      (x :: upper.map PathLevel.block))
    (hclear : Cleared s s' x n upper entries (blocksOf s.node depth e.block) freed) :
    Doomed blocksize entriesPerNode key s' depth es (x :: upper.map PathLevel.block) ∧
      (es.flatMap fun e => blocksOf s'.node depth e.block) =
        (es.flatMap fun e => blocksOf s.node depth e.block) ∧
      (es.flatMap fun e => freedBelow s'.node s'.leaf key depth e.block) =
        es.flatMap fun e => freedBelow s.node s.leaf key depth e.block := by
  obtain ⟨hsized, hnodup, hapart, hempties⟩ := h
  rw [List.flatMap_cons, List.nodup_append] at hnodup
  refine Doomed.frame ⟨?_, hnodup.2.1, ?_, ?_⟩ ?_
  · exact fun e' he' => hsized e' (List.mem_cons_of_mem e he')
  · exact fun y hy e' he' => hapart y hy e' (List.mem_cons_of_mem e he')
  · exact fun e' he' => hempties e' (List.mem_cons_of_mem e he')
  · intro e' he' y hy
    have hmem := List.mem_cons_of_mem e he'
    refine hclear.frame ?_ ?_ ?_
    · rintro rfl
      exact hapart y List.mem_cons_self e' hmem hy
    · rintro p hp rfl
      exact hapart p.block (by simp [List.mem_map_of_mem hp]) e' hmem hy
    · intro hin
      exact hnodup.2.2 y hin y (List.mem_flatMap.mpr ⟨e', he', hy⟩) rfl

theorem Doomed.node (h : Doomed blocksize entriesPerNode key s (depth + 1) (e :: es)
      (x :: upper.map PathLevel.block)) :
    Doomed blocksize entriesPerNode key s depth (s.node e.block)
      (e.block :: (⟨x, n⟩ :: upper : List PathLevel).map PathLevel.block) := by
  obtain ⟨hsized, hnodup, hapart, hempties⟩ := h
  rw [List.flatMap_cons, List.nodup_append, blocksOf, List.nodup_cons] at hnodup
  refine ⟨(hsized e List.mem_cons_self).2.2, hnodup.1.2, ?_, ?_⟩
  · intro y hy e' he' hin
    have hmem : y ∈ (s.node e.block).flatMap fun e => blocksOf s.node depth e.block :=
      List.mem_flatMap.mpr ⟨e', he', hin⟩
    rcases List.mem_cons.mp hy with rfl | hy
    · exact hnodup.1.1 hmem
    · refine hapart y ?_ e List.mem_cons_self (List.mem_cons_of_mem _ hmem)
      exact hy
  · intro e' he' b hb
    exact hempties e List.mem_cons_self b (List.mem_flatMap.mpr ⟨e', he', hb⟩)

/-! ## An entry -/

/-- Removing the entry before `->next`, with the blocks below. -/
theorem Cleared.remove (hleaf : ∀ y, y ∉ below → s'.leaf y = s.leaf y)
    (hfreed : s'.freed = s.freed ++ freed)
    (hroot : s'.root = s.root) (hdepth : s'.depth = s.depth) (hprev : s'.prev = s.prev)
    (hleafprev : s'.leafprev = s.leafprev)
    (hself : s'.node x = (s.node x).eraseIdx n)
    (hother : ∀ y, y ≠ x → y ∉ below →
      Kept upper s.node s'.node y ∧ (n ≠ 0 → s'.node y = s.node y)) :
    Cleared s s' x n upper ((s.node x).eraseIdx n) below freed where
  entries := hself
  kept y hy hbelow := (hother y hy hbelow).1
  other hn y hy hbelow := (hother y hy hbelow).2 hn
  leaf := hleaf
  freed := hfreed
  root := hroot
  depth := hdepth
  prev := hprev
  leafprev := hleafprev

theorem chopLeaf_empties {b : ℕ} (hleafprev : s.leafprev = some leafbuf)
    (hempties : Empties blocksize key (s.leaf b)) :
    chopLeaf blocksize key s (⟨x, n + 1⟩ :: upper) b =
      some ({ s with
        node := (removeIndex s.node (⟨x, n + 1⟩ :: upper)).1
        leaf := Function.update s.leaf b (dleafInit blocksize)
        freed := s.freed ++ (s.leaf b).pairs.filterMap (freedFrom key) ++ [(b, 1)] },
        .popping (⟨x, n⟩ :: upper)) := by
  have hneed : dleafNeed blocksize (dleafInit blocksize) = 0 := by
    rw [dleafNeed, dleafFree, dleafInit]
    dsimp only
    omega
  have hmerge : ∀ leaf : Leaf, dleafMerge blocksize leaf (dleafInit blocksize) = some leaf :=
    fun leaf => if_pos rfl
  rw [chopLeaf, hempties]
  dsimp only
  rw [hleafprev]
  dsimp only
  rw [hneed, if_pos (Nat.zero_le _), hmerge, Option.map_some, removeIndex_path,
    Function.update_eq_self]

/-- An entry of a lowest node is removed with its leaf. -/
theorem leaf_cleared (hready : Ready s upper.length 0 leafbuf)
    (hdoomed : Doomed blocksize entriesPerNode key s 0 (e :: es)
      (x :: upper.map PathLevel.block))
    (hupper : ∀ p ∈ upper, p.block ≠ x) (hentry : (s.node x)[n]? = some e) :
    ∃ s', ReflTransGen (Step blocksize entriesPerNode key) (s, .popping (⟨x, n⟩ :: upper))
        (s', .popping (⟨x, n⟩ :: upper)) ∧
      Cleared s s' x n upper ((s.node x).eraseIdx n) (blocksOf s.node 0 e.block)
        (freedBelow s.node s.leaf key 0 e.block) := by
  have hlt := (List.getElem?_eq_some_iff.mp hentry).1
  have hempties := hdoomed.empties e List.mem_cons_self e.block (List.mem_singleton_self _)
  have hchop := @chopLeaf_empties _ _ x n _ _ upper _ hready.leafprev hempties
  have hdown : Step blocksize entriesPerNode key (s, .popping (⟨x, n⟩ :: upper))
      (s, .atLeaf (⟨x, n + 1⟩ :: upper) e.block) := by
    rw [Step, chopStep, if_neg (Nat.ne_of_lt hlt), hready.depth, Nat.add_zero, Nat.sub_self,
      descend, hentry]
    rfl
  refine ⟨_, (ReflTransGen.single hdown).tail hchop, Cleared.remove ?_ ?_ rfl rfl rfl rfl
    (removeIndex_self hupper) fun y hy _ => removeIndex_other hy⟩
  · intro y hy
    exact Function.update_of_ne (fun h => hy (List.mem_singleton.mpr h)) _ _
  · exact List.append_assoc _ _ _

/-- An entry is removed with its node when the entries of the node are gone. -/
theorem node_cleared (hready : Ready s upper.length (depth + 1) leafbuf)
    (hdoomed : Doomed blocksize entriesPerNode key s (depth + 1) (e :: es)
      (x :: upper.map PathLevel.block))
    (hupper : ∀ p ∈ upper, p.block ≠ x) (hentry : (s.node x)[n]? = some e)
    (hsteps : ReflTransGen (Step blocksize entriesPerNode key)
      (s, .popping (⟨e.block, 0⟩ :: ⟨x, n + 1⟩ :: upper))
      (s', .popping (⟨e.block, 0⟩ :: ⟨x, n + 1⟩ :: upper)))
    (hclear : Cleared s s' e.block 0 (⟨x, n + 1⟩ :: upper) []
      ((s.node e.block).flatMap fun e => blocksOf s.node depth e.block)
      ((s.node e.block).flatMap fun e => freedBelow s.node s.leaf key depth e.block)) :
    ∃ s'', ReflTransGen (Step blocksize entriesPerNode key) (s, .popping (⟨x, n⟩ :: upper))
        (s'', .popping (⟨x, n⟩ :: upper)) ∧
      Cleared s s'' x n upper ((s.node x).eraseIdx n) (blocksOf s.node (depth + 1) e.block)
        (freedBelow s.node s.leaf key (depth + 1) e.block) := by
  have hlt := (List.getElem?_eq_some_iff.mp hentry).1
  have hne := (hdoomed.sized e List.mem_cons_self).1
  have hx : x ∉ blocksOf s.node (depth + 1) e.block :=
    hdoomed.apart x List.mem_cons_self e List.mem_cons_self
  rw [blocksOf, List.mem_cons, not_or] at hx
  -- both places of control go down to the first leaf below the entry
  have hsame : chopStep blocksize entriesPerNode key (s, .popping (⟨x, n⟩ :: upper)) =
      chopStep blocksize entriesPerNode key
        (s, .popping (⟨e.block, 0⟩ :: ⟨x, n + 1⟩ :: upper)) := by
    have hlen : 0 ≠ (s.node e.block).length := fun h =>
      hne (List.eq_nil_of_length_eq_zero h.symm)
    rw [chopStep, chopStep, if_neg (Nat.ne_of_lt hlt), if_neg hlen, hready.depth,
      List.length_cons, Nat.add_sub_cancel_left, Nat.add_right_comm _ 1 (depth + 1),
      show upper.length + (depth + 1) + 1 - (upper.length + 1 + 1) = depth by omega, descend,
      hentry]
  have hsteps' : ReflTransGen (Step blocksize entriesPerNode key)
      (s, .popping (⟨x, n⟩ :: upper))
      (s', .popping (⟨e.block, 0⟩ :: ⟨x, n + 1⟩ :: upper)) := by
    rcases ReflTransGen.cases_head hsteps with heq | ⟨c, hstep, hrest⟩
    · have hnode := hclear.entries
      rw [← (Prod.mk.inj heq).1] at hnode
      exact absurd hnode hne
    · exact ReflTransGen.head (hsame.trans hstep) hrest
  obtain ⟨p, hp⟩ := hready.prev 0 (Nat.succ_pos depth)
  have hpop : Step blocksize entriesPerNode key
      (s', .popping (⟨e.block, 0⟩ :: ⟨x, n + 1⟩ :: upper))
      ({ s' with
        node := (removeIndex s'.node (⟨x, n + 1⟩ :: upper)).1
        freed := s'.freed ++ [(e.block, 1)] }, .popping (⟨x, n⟩ :: upper)) := by
    have hentries := hclear.entries
    rw [Step, chopStep, if_pos (by rw [hentries]; rfl), popLevel, List.length_cons, hclear.prev,
      show upper.length + 1 = upper.length + 1 + 0 from rfl, hp]
    dsimp only [Option.join_some]
    rw [if_neg (Nat.succ_ne_zero _), hentries, List.length_nil, if_pos (Nat.zero_le _),
      List.append_nil,
      Function.update_eq_self, removeIndex_path]
    rfl
  have hxnode : (s'.node x).eraseIdx n = (s.node x).eraseIdx n := by
    have hkept := hclear.kept x hx.1 hx.2
    by_cases hn : n + 1 - 1 = 0
    · rw [(hkept.of_first hn).of_notMem hupper]
    · rcases hkept.of_stop hn with h | ⟨-, h⟩
      · rw [h]
      · exact h.eraseIdx
  refine ⟨_, hsteps'.tail hpop, Cleared.remove ?_ ?_ hclear.root hclear.depth hclear.prev
    hclear.leafprev ((removeIndex_self hupper).trans hxnode) ?_⟩
  · intro y hy
    rw [blocksOf, List.mem_cons, not_or] at hy
    exact hclear.leaf y hy.2
  · dsimp only
    rw [hclear.freed, List.append_assoc]
    rfl
  · intro y hy hbelow
    rw [blocksOf, List.mem_cons, not_or] at hbelow
    have hkept := hclear.kept y hbelow.1 hbelow.2
    obtain ⟨hremoved, hsame⟩ := @removeIndex_other s'.node upper _ n _ hy
    by_cases hn : n + 1 - 1 = 0
    · exact ⟨(hkept.of_first hn).trans hremoved, fun h => absurd hn h⟩
    · have hnode : s'.node y = s.node y := by
        rcases hkept.of_stop hn with h | ⟨h, -⟩
        · exact h
        · exact absurd h.symm hy
      have hnode' := (hsame hn).trans hnode
      exact ⟨.inl hnode', fun _ => hnode'⟩

/-! ## All entries -/

/-- The entries go one after the other. -/
theorem entries_of_first
    (hfirst : ∀ {s e es}, Ready s upper.length depth leafbuf →
      Doomed blocksize entriesPerNode key s depth (e :: es)
        (x :: upper.map PathLevel.block) → (s.node x)[n]? = some e →
      ∃ s', ReflTransGen (Step blocksize entriesPerNode key) (s, .popping (⟨x, n⟩ :: upper))
          (s', .popping (⟨x, n⟩ :: upper)) ∧
        Cleared s s' x n upper ((s.node x).eraseIdx n) (blocksOf s.node depth e.block)
          (freedBelow s.node s.leaf key depth e.block))
    (hready : Ready s upper.length depth leafbuf)
    (hdoomed : Doomed blocksize entriesPerNode key s depth es
      (x :: upper.map PathLevel.block))
    (hes : (s.node x).drop n = es) :
    ∃ s', ReflTransGen (Step blocksize entriesPerNode key) (s, .popping (⟨x, n⟩ :: upper))
        (s', .popping (⟨x, n⟩ :: upper)) ∧
      Cleared s s' x n upper ((s.node x).take n)
        (es.flatMap fun e => blocksOf s.node depth e.block)
        (es.flatMap fun e => freedBelow s.node s.leaf key depth e.block) := by
  induction es generalizing s with
  | nil =>
      refine ⟨s, ReflTransGen.refl, ?_⟩
      rw [List.take_of_length_le (List.drop_eq_nil_iff.mp hes)]
      exact Cleared.refl x n upper
  | cons e es ih =>
      have hentry : (s.node x)[n]? = some e := by
        rw [← List.head?_drop, hes]
        rfl
      have hlt := (List.getElem?_eq_some_iff.mp hentry).1
      have hlen : ((s.node x).take n).length = n := by
        rw [List.length_take, Nat.min_eq_left (Nat.le_of_lt hlt)]
      obtain ⟨s', hsteps, hclear⟩ := hfirst hready hdoomed hentry
      obtain ⟨hdoomed', hblocks, hfreed⟩ := hdoomed.tail hclear
      have herase := hclear.entries
      rw [List.eraseIdx_eq_take_drop_succ] at herase
      have hes' : (s'.node x).drop n = es := by
        rw [herase, List.drop_left' hlen, ← List.tail_drop, hes, List.tail_cons]
      obtain ⟨s'', hsteps', hclear'⟩ := ih (hclear.ready hready) hdoomed' hes'
      refine ⟨s'', hsteps.trans hsteps', ?_⟩
      have htrans := hclear.trans hclear'
      rw [herase, List.take_left' hlen, hblocks, hfreed] at htrans
      exact htrans

/-- The entries from `n` on are removed with their subtrees. -/
theorem entries_cleared (hupper : ∀ p ∈ upper, p.block ≠ x)
    (hready : Ready s upper.length depth leafbuf)
    (hdoomed : Doomed blocksize entriesPerNode key s depth es
      (x :: upper.map PathLevel.block))
    (hes : (s.node x).drop n = es) :
    ∃ s', ReflTransGen (Step blocksize entriesPerNode key) (s, .popping (⟨x, n⟩ :: upper))
        (s', .popping (⟨x, n⟩ :: upper)) ∧
      Cleared s s' x n upper ((s.node x).take n)
        (es.flatMap fun e => blocksOf s.node depth e.block)
        (es.flatMap fun e => freedBelow s.node s.leaf key depth e.block) := by
  induction depth generalizing s x n upper es with
  | zero =>
      refine entries_of_first ?_ hready hdoomed hes
      intro s e es hready hdoomed hentry
      exact leaf_cleared hready hdoomed hupper hentry
  | succ depth ih =>
      refine entries_of_first ?_ hready hdoomed hes
      intro s e es hready hdoomed hentry
      have hupper' : ∀ p ∈ (⟨x, n + 1⟩ :: upper : List PathLevel), p.block ≠ e.block := by
        rintro p hp heq
        refine hdoomed.apart p.block ?_ e List.mem_cons_self (heq ▸ mem_blocksOf)
        rcases List.mem_cons.mp hp with rfl | hp
        · exact List.mem_cons_self
        · simp [List.mem_map_of_mem hp]
      have hready' : Ready s (⟨x, n + 1⟩ :: upper : List PathLevel).length depth leafbuf := by
        refine ⟨?_, fun i hi => ?_, hready.leafprev⟩
        · rw [hready.depth, List.length_cons]
          omega
        · obtain ⟨p, hp⟩ := hready.prev (i + 1) (Nat.succ_lt_succ hi)
          refine ⟨p, ?_⟩
          rw [← hp, List.length_cons]
          congr 1
          omega
      obtain ⟨s', hsteps, hclear⟩ := ih hupper' hready' (hdoomed.node (n := n + 1))
        List.drop_zero
      exact node_cleared hready hdoomed hupper hentry hsteps hclear

end

end Tux3.TreeChop
