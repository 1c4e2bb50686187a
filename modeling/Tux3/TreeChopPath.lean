import Tux3.TreeChopClear
import Tux3.BtreeInsert

/-!
# Trimming a path

The levels of the path of the key are popped from the lowest one up. Each loses the entries right of
the path, and with its entries up to the path it stays in `prev`.
-/
namespace Tux3.TreeChop

open Btree Dleaf Relation

section
variable (node : Nodes) (leaf : ℕ → Leaf) (key : ℕ)

/-- The blocks below the entries right of a path. -/
def blocksAfter : ℕ → List PathLevel → List ℕ
  | _, [] => []
  | 0, _ => []
  | depth + 1, at' :: rest =>
      blocksAfter depth rest ++
        ((node at'.block).drop at'.next).flatMap fun e => blocksOf node depth e.block

/-- The calls of `bfree` for them. -/
def freedAfter : ℕ → List PathLevel → List (ℕ × ℕ)
  | _, [] => []
  | 0, _ => []
  | depth + 1, at' :: rest =>
      freedAfter depth rest ++
        ((node at'.block).drop at'.next).flatMap fun e => freedBelow node leaf key depth e.block

end

/-- The levels of a path are popped, below the entries `tops` of `prev`. -/
structure Trimmed (s s' : Chop) (tops : List (Option ℕ)) (path : List PathLevel)
    (gone : List ℕ) (freed : List (ℕ × ℕ)) : Prop where
  taken : ∀ p ∈ path, s'.node p.block = (s.node p.block).take p.next
  node : ∀ y, y ∉ path.map PathLevel.block → y ∉ gone → s'.node y = s.node y
  leaf : ∀ y, y ∉ gone → s'.leaf y = s.leaf y
  freed : s'.freed = s.freed ++ freed
  prev : s'.prev = tops ++ path.map fun p => some p.block
  root : s'.root = s.root
  depth : s'.depth = s.depth
  leafprev : s'.leafprev = s.leafprev

section
variable {node : Nodes} {depth block leafbuf : ℕ} {path : List PathLevel}

theorem leaves_leafBlocks (low : ℕ) :
    (leaves node depth low block).map Prod.snd = leafBlocks node depth block := by
  induction depth generalizing low block with
  | zero => rfl
  | succ depth ih =>
      rw [leaves, leafBlocks, List.map_flatMap]
      simp only [ih]
      exact keyed_flatMap _

/-- The entry of a path in its node, apart from the entries right and left of it. -/
theorem entry_apart {next : ℕ} {e : IndexEntry} (hnodup : (blocksOf node (depth + 1) block).Nodup)
    (hnext : 0 < next) (hentry : (node block)[next - 1]? = some e) :
    block ∉ blocksOf node depth e.block ∧ (blocksOf node depth e.block).Nodup ∧
      (((node block).drop next).flatMap fun e => blocksOf node depth e.block).Nodup ∧
      (∀ e' ∈ (node block).drop next, ∀ y ∈ blocksOf node depth e'.block,
        y ≠ block ∧ y ∉ blocksOf node depth e.block) ∧
      ∀ e' ∈ (node block).take (next - 1), ∀ y ∈ blocksOf node depth e'.block,
        y ≠ block ∧ y ∉ blocksOf node depth e.block ∧
          y ∉ ((node block).drop next).flatMap fun e => blocksOf node depth e.block := by
  rw [blocksOf, List.nodup_cons] at hnodup
  obtain ⟨hself, hnodup⟩ := hnodup
  rw [split_at hnext hentry, List.flatMap_append, List.flatMap_cons, List.nodup_append,
    List.nodup_append] at hnodup
  obtain ⟨-, ⟨hentrynodup, hrest, hright⟩, hleft⟩ := hnodup
  have hnot : ∀ e' ∈ node block, ∀ y ∈ blocksOf node depth e'.block, y ≠ block := by
    rintro e' he' y hy rfl
    exact hself (List.mem_flatMap.mpr ⟨e', he', hy⟩)
  refine ⟨fun hin => hnot e (List.mem_of_getElem? hentry) _ hin rfl, hentrynodup, hrest,
    fun e' he' y hy => ⟨hnot e' (List.mem_of_mem_drop he') y hy, fun hin => ?_⟩,
    fun e' he' y hy => ⟨hnot e' (List.mem_of_mem_take he') y hy, fun hin => ?_, fun hin => ?_⟩⟩
  · exact hright y hin y (List.mem_flatMap.mpr ⟨e', he', hy⟩) rfl
  · exact hleft y (List.mem_flatMap.mpr ⟨e', he', hy⟩) y (List.mem_append_left _ hin) rfl
  · exact hleft y (List.mem_flatMap.mpr ⟨e', he', hy⟩) y (List.mem_append_right _ hin) rfl

theorem path_length (h : OnPath node depth block path leafbuf) : path.length = depth := by
  induction h with
  | leaf block => rfl
  | level hnext hentry h ih => exact congrArg (· + 1) ih

theorem blocksAfter_subset (h : OnPath node depth block path leafbuf) :
    ∀ y ∈ blocksAfter node depth path, y ∈ blocksOf node depth block := by
  induction h with
  | leaf block =>
      intro y hy
      cases hy
  | @level depth block next e path leaf hnext hentry h ih =>
      intro y hy
      rw [blocksAfter, List.mem_append] at hy
      rcases hy with hy | hy
      · exact mem_child (List.mem_of_getElem? hentry) (ih y hy)
      · obtain ⟨e', he', hy⟩ := List.mem_flatMap.mp hy
        exact mem_child (List.mem_of_mem_drop he') hy

end

section
variable {blocksize entriesPerNode key depth block next leafbuf leaf : ℕ} {s s' : Chop}
  {path acc : List PathLevel} {tops : List (Option ℕ)} {e : IndexEntry}

theorem doomed_right (hsized : Sized s.node entriesPerNode (depth + 1) block)
    (hnodup : (blocksOf s.node (depth + 1) block).Nodup)
    (hupper : ∀ p ∈ acc, p.block ∉ blocksOf s.node (depth + 1) block)
    (hnext : 0 < next) (hentry : (s.node block)[next - 1]? = some e)
    (hempties : ∀ y ∈ ((s.node block).drop next).flatMap
      (fun e => leaves s.node depth e.key e.block), Empties blocksize key (s.leaf y.2)) :
    Doomed blocksize entriesPerNode key s depth ((s.node block).drop next)
      (block :: acc.map PathLevel.block) := by
  obtain ⟨-, -, hrest, hapart, -⟩ := entry_apart hnodup hnext hentry
  refine ⟨fun e' he' => hsized.2.2 e' (List.mem_of_mem_drop he'), hrest, ?_, ?_⟩
  · intro y hy e' he' hin
    rcases List.mem_cons.mp hy with rfl | hy
    · exact (hapart e' he' y hin).1 rfl
    · obtain ⟨p, hp, rfl⟩ := List.mem_map.mp hy
      exact hupper p hp (mem_child (List.mem_of_mem_drop he') hin)
  · intro e' he' b hb
    rw [← leaves_leafBlocks e'.key] at hb
    obtain ⟨y, hy, rfl⟩ := List.mem_map.mp hb
    exact hempties y (List.mem_flatMap.mpr ⟨e', he', hy⟩)

/-- A level of the path loses the entries right of it and is popped. -/
theorem level_popped (hsized : Sized s.node entriesPerNode (depth + 1) block)
    (hnodup : (blocksOf s.node (depth + 1) block).Nodup)
    (hupper : ∀ p ∈ acc, p.block ∉ blocksOf s.node (depth + 1) block)
    (hnext : 0 < next) (hentry : (s.node block)[next - 1]? = some e)
    (hpath : OnPath s.node depth e.block path leaf)
    (hempties : ∀ y ∈ after s.node (depth + 1) (⟨block, next⟩ :: path),
      Empties blocksize key (s.leaf y.2))
    (hdepth : s.depth = acc.length + (depth + 1)) (htops : tops.length = acc.length)
    (hleafprev : s.leafprev = some leafbuf)
    (htrim : Trimmed s s' (tops ++ [none]) path (blocksAfter s.node depth path)
      (freedAfter s.node s.leaf key depth path)) :
    ∃ s₁ s₂, ReflTransGen (Step blocksize entriesPerNode key)
        (s', .popping (⟨block, next⟩ :: acc)) (s₁, .popping (⟨block, next⟩ :: acc)) ∧
      chopStep blocksize entriesPerNode key (s₁, .popping (⟨block, next⟩ :: acc)) =
        popped s₂ acc ∧
      Trimmed s s₂ tops (⟨block, next⟩ :: path)
        (blocksAfter s.node (depth + 1) (⟨block, next⟩ :: path))
        (freedAfter s.node s.leaf key (depth + 1) (⟨block, next⟩ :: path)) := by
  obtain ⟨hself, -, -, hapart, -⟩ := entry_apart hnodup hnext hentry
  have hpathsub := hpath.blocks_sub
  have hgonesub := blocksAfter_subset hpath
  have hlt := (List.getElem?_eq_some_iff.mp hentry).1
  have hframe : ∀ y, y ∉ blocksOf s.node depth e.block →
      s'.node y = s.node y ∧ s'.leaf y = s.leaf y := fun y hy =>
    ⟨htrim.node y (fun h => hy (hpathsub y h)) (fun h => hy (hgonesub y h)),
      htrim.leaf y fun h => hy (hgonesub y h)⟩
  have hnode : s'.node block = s.node block := (hframe block hself).1
  have hdoomed := doomed_right hsized hnodup hupper hnext hentry fun y hy =>
    hempties y (List.mem_append_right _ hy)
  obtain ⟨hdoomed', hblocks, hfreed⟩ := @Doomed.frame _ _ _ _ _ s' _ _ hdoomed
    fun e' he' y hy =>
    hframe y (hapart e' he' y hy).2
  have hlen : path.length = depth := path_length hpath
  have hready : Ready s' acc.length depth leafbuf := by
    refine ⟨?_, fun i hi => ?_, htrim.leafprev.trans hleafprev⟩
    · rw [htrim.depth, hdepth]
      omega
    · have hi' : i < path.length := hlen ▸ hi
      refine ⟨path[i].block, ?_⟩
      have htops' : (tops ++ [none]).length = acc.length + 1 := by
        rw [List.length_append, htops]
        rfl
      rw [htrim.prev, List.getElem?_append_right (by rw [htops']; exact Nat.le_add_right _ _),
        htops', Nat.add_sub_cancel_left, List.getElem?_map, List.getElem?_eq_getElem hi']
      rfl
  obtain ⟨s₁, hsteps, hclear⟩ := entries_cleared (n := next)
    (fun p hp heq => hupper p hp (heq ▸ mem_blocksOf)) hready hdoomed'
    (by rw [hnode])
  rw [hblocks, hfreed, hnode] at hclear
  have hprev : s₁.prev = tops ++ none :: path.map fun p => some p.block := by
    rw [hclear.prev, htrim.prev, List.append_assoc]
    rfl
  have hother := hclear.other (Nat.ne_of_gt hnext)
  have hgone : ∀ {y}, y ∉ blocksAfter s.node (depth + 1) (⟨block, next⟩ :: path) →
      y ∉ blocksAfter s.node depth path ∧
        y ∉ ((s.node block).drop next).flatMap fun e => blocksOf s.node depth e.block := by
    intro y hy
    rwa [blocksAfter, List.mem_append, not_or] at hy
  refine ⟨s₁, { s₁ with prev := tops ++ some block :: path.map fun p => some p.block }, hsteps,
    ?_, ⟨?_, fun y hpathy hy => ?_, fun y hy => ?_, ?_, rfl, hclear.root.trans htrim.root,
      hclear.depth.trans htrim.depth, hclear.leafprev.trans htrim.leafprev⟩⟩
  · have hfinished : next = (s₁.node block).length := by
      rw [hclear.entries, List.length_take]
      omega
    rw [chopStep, if_pos hfinished, popLevel, hprev, ← htops,
      List.getElem?_append_right (Nat.le_refl _), Nat.sub_self, List.getElem?_cons_zero]
    dsimp only [Option.join_some]
    rw [List.set_append_right _ _ (Nat.le_refl _), Nat.sub_self, List.set_cons_zero]
  · intro p hp
    rcases List.mem_cons.mp hp with rfl | hp
    · exact hclear.entries
    · have hin := hpathsub p.block (List.mem_map_of_mem hp)
      refine (hother p.block (fun h => hself (h ▸ hin)) fun h => ?_).trans (htrim.taken p hp)
      obtain ⟨e', he', hy⟩ := List.mem_flatMap.mp h
      exact (hapart e' he' _ hy).2 hin
  · rw [List.map_cons, List.mem_cons, not_or] at hpathy
    exact (hother y hpathy.1 (hgone hy).2).trans (htrim.node y hpathy.2 (hgone hy).1)
  · exact (hclear.leaf y (hgone hy).2).trans (htrim.leaf y (hgone hy).1)
  · dsimp only
    rw [hclear.freed, htrim.freed, freedAfter, List.append_assoc]

/-- The levels below `acc` are popped. -/
theorem path_popped (h : OnPath s.node depth block path leaf)
    (hsized : Sized s.node entriesPerNode depth block)
    (hnodup : (blocksOf s.node depth block).Nodup)
    (hupper : ∀ p ∈ acc, p.block ∉ blocksOf s.node depth block)
    (hempties : ∀ y ∈ after s.node depth path, Empties blocksize key (s.leaf y.2))
    (hdepth : s.depth = acc.length + depth) (htops : tops.length = acc.length)
    (hprev : s.prev = tops ++ List.replicate depth none)
    (hleafprev : s.leafprev = some leafbuf) (hacc : acc ≠ []) :
    ∃ s', ReflTransGen (Step blocksize entriesPerNode key)
        (s, .popping (path.reverse ++ acc)) (s', .popping acc) ∧
      Trimmed s s' tops path (blocksAfter s.node depth path)
        (freedAfter s.node s.leaf key depth path) := by
  induction h generalizing acc tops with
  | leaf block =>
      refine ⟨s, ReflTransGen.refl, ⟨?_, fun _ _ _ => rfl, fun _ _ => rfl, ?_, hprev, rfl, rfl,
        rfl⟩⟩
      · intro p hp
        cases hp
      · exact (List.append_nil _).symm
  | @level depth block next e path leaf hnext hentry h ih =>
      have hmem := List.mem_of_getElem? hentry
      obtain ⟨hself, hnodup', -⟩ := entry_apart hnodup hnext hentry
      obtain ⟨s', hsteps, htrim⟩ := @ih (⟨block, next⟩ :: acc) (tops ++ [none])
        (hsized.2.2 e hmem) hnodup'
        (by
          intro p hp hin
          rcases List.mem_cons.mp hp with rfl | hp
          · exact hself hin
          · exact hupper p hp (mem_child hmem hin))
        (fun y hy => hempties y (List.mem_append_left _ hy))
        (by rw [hdepth, List.length_cons]; omega)
        (by rw [List.length_append, List.length_cons, htops]; rfl)
        (by rw [hprev, List.replicate_succ, List.append_assoc]; rfl)
        (List.cons_ne_nil _ _)
      obtain ⟨s₁, s₂, hsteps', hpop, htrim'⟩ := level_popped hsized hnodup hupper hnext hentry h
        hempties hdepth htops hleafprev htrim
      refine ⟨s₂, ?_, htrim'⟩
      rw [List.reverse_cons, List.append_assoc]
      refine (hsteps.trans hsteps').tail (hpop.trans ?_)
      obtain ⟨p, upper, rfl⟩ := List.exists_cons_of_ne_nil hacc
      rfl

end

end Tux3.TreeChop
