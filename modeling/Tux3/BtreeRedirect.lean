import Tux3.BtreeWalk
import Tux3.BtreeFailure

/-!
# Copy on write

`cursor_redirect` as `ATOMIC` builds compile it. The clean buffers of a path are cloned from the
leaf up, and a clone is linked when the level above is cloned: a dirty level in between stops the
climb and keeps the entry of the old block.
-/
namespace Tux3.Btree

/-- The log records of a redirect. -/
inductive RedirectLog where
  | leafRedirect (oldblock newblock : ℕ)
  | bnodeRedirect (oldblock newblock : ℕ)
  | bnodeUpdate (parent child key : ℕ)
  deriving DecidableEq, Repr

/-- A btree in the volume map, with leaves of any content: which buffers are dirty, the stashes of
deferred frees, the log, and the blocks that the allocator gives next. -/
structure Volume (α : Type) where
  tree : Tree
  leaf : ℕ → α
  dirty : ℕ → Bool
  defree : List ℕ
  derollup : List ℕ
  log : List RedirectLog
  blocks : List ℕ

section
variable {α : Type}

/-- `level_redirect_blockput` and what follows it at an index level: the clone has the entry before
`->next` point to the cloned child. -/
def redirectNode (v : Volume α) (at' : PathLevel) (child clone : ℕ) (blocks : List ℕ) : Volume α :=
  let entries := v.tree.node at'.block
  let key := (entries[at'.next - 1]?.map IndexEntry.key).getD 0
  { v with
    tree := { v.tree with
      node := Function.update v.tree.node clone
        (entries.modify (at'.next - 1) fun entry => { entry with block := child }) }
    dirty := Function.update v.dirty clone true
    derollup := v.derollup ++ [at'.block]
    log := v.log ++ [.bnodeRedirect at'.block clone, .bnodeUpdate clone child key]
    blocks := blocks }

/-- The loop of `cursor_redirect` above a cloned level: the levels above, lowest first, the block
before and after, and the levels done. -/
def redirectLevels : List PathLevel → ℕ → ℕ → List PathLevel → Volume α →
    Option (Volume α × List PathLevel)
  | [], oldblock, newblock, done, v =>
      -- `assert(oldblock == btree->root.block)`
      if oldblock = v.tree.root then some ({ v with tree := { v.tree with root := newblock } }, done)
      else none
  | at' :: upper, _, child, done, v =>
      if v.dirty at'.block then some (v, (at' :: upper).reverse ++ done)
      else
        match v.blocks with
        | [] => none
        | clone :: blocks =>
            redirectLevels upper at'.block clone (⟨clone, at'.next⟩ :: done)
              (redirectNode v at' child clone blocks)

/-- `cursor_redirect`; `none` is a failed allocation. -/
def cursorRedirect (v : Volume α) (cursor : Cursor) : Option (Volume α × Cursor) :=
  if v.dirty cursor.leaf then some (v, cursor)
  else
    match v.blocks with
    | [] => none
    | clone :: blocks =>
        let v := { v with
          leaf := Function.update v.leaf clone (v.leaf cursor.leaf)
          dirty := Function.update v.dirty clone true
          defree := v.defree ++ [cursor.leaf]
          log := v.log ++ [.leafRedirect cursor.leaf clone]
          blocks := blocks }
        (redirectLevels cursor.path.reverse cursor.leaf clone [] v).map fun r => (r.1, ⟨r.2, clone⟩)

/-- The blocks that a redirect replaced, from a list of levels before and after it. -/
def replaced (old new : List ℕ) : List ℕ :=
  ((old.zip new).filter fun p => p.1 ≠ p.2).map Prod.fst

/-- What a redirect has to keep. -/
structure Redirected (v v' : Volume α) (cursor cursor' : Cursor) : Prop where
  dirty : v'.dirty cursor'.leaf = true
  check : cursorCheck v'.tree cursor' = true
  content : ∀ key, (v'.tree.reached key).map v'.leaf = (v.tree.reached key).map v.leaf
  defree : v'.defree = v.defree ++ replaced [cursor.leaf] [cursor'.leaf]
  derollup : v'.derollup = v.derollup ++
    replaced (cursor.path.reverse.map PathLevel.block) (cursor'.path.reverse.map PathLevel.block)

end

section
variable {node node' : Nodes} {n depth block key leaf child : ℕ} {path : List PathLevel}

/-! ## Paths and changed nodes -/

theorem checkFrom_congr (h : ∀ x ∈ path.map PathLevel.block, node' x = node x) :
    checkFrom node' key block path leaf = checkFrom node key block path leaf := by
  induction path generalizing key block with
  | nil => rfl
  | cons at' rest ih =>
      rw [checkFrom, checkFrom, h at'.block List.mem_cons_self]
      congr 1
      cases (node at'.block)[at'.next - 1]? with
      | none => rfl
      | some e =>
          dsimp only
          rw [ih fun x hx => h x (List.mem_cons_of_mem _ hx)]

theorem checkFrom_top (h : checkFrom node key block path leaf = true) : topBlock path leaf = block := by
  cases path with
  | nil => exact beq_iff_eq.mp h
  | cons at' rest =>
      rw [checkFrom] at h
      simp only [Bool.and_eq_true, beq_iff_eq] at h
      exact h.1.1.1

theorem modify_parts {es : List IndexEntry} {next : ℕ} {e : IndexEntry} (f : IndexEntry → IndexEntry)
    (hnext : 0 < next) (hentry : es[next - 1]? = some e) :
    (es.modify (next - 1) f)[next - 1]? = some (f e) ∧
      (es.modify (next - 1) f).take (next - 1) = es.take (next - 1) ∧
      (es.modify (next - 1) f).drop next = es.drop next := by
  refine ⟨?_, ?_, List.drop_modify_of_lt f _ _ es (Nat.sub_lt hnext Nat.one_pos)⟩
  · rw [List.getElem?_modify_eq, hentry]
    rfl
  · rw [List.take_modify, List.modify_eq_self]
    rw [List.length_take]
    exact Nat.min_le_left _ _

end

section
variable {α : Type} {v v' : Volume α} {n depth block leaf child : ℕ} {path : List PathLevel}

/-! ## Clean levels -/

/-- The levels of a clean path after the climb: clones with the same leaves but for the last. -/
structure Cloned (v : Volume α) (depth block leaf : ℕ) (path : List PathLevel) (child : ℕ)
    (v' : Volume α) (child' : ℕ) (path' : List PathLevel) : Prop where
  onPath : OnPath v'.tree.node depth child' path' child
  sized : ∀ n, Sized v.tree.node n depth block → Sized v'.tree.node n depth child'
  leaves_eq : ∀ low, leaves v'.tree.node depth low child' =
    before v.tree.node depth path low ++
      (lowKey v.tree.node path low, child) :: after v.tree.node depth path
  check : ∀ key, KeysInOrder v.tree.node depth key block →
    checkFrom v'.tree.node key child' path' child = true
  top : child' ∈ child :: v.blocks
  sub : ∀ x ∈ blocksOf v'.tree.node depth child', x ∈ blocksOf v.tree.node depth block ∨
    x = child ∨ x ∈ v.blocks ∧ x ∉ v'.blocks
  frame : ∀ x, x ∉ v.blocks → v'.tree.node x = v.tree.node x ∧ v'.dirty x = v.dirty x
  used : ∃ u, v.blocks = u ++ v'.blocks
  replaced_eq : ∀ l l', replaced (path.reverse.map PathLevel.block ++ l)
    (path'.reverse.map PathLevel.block ++ l') = path.reverse.map PathLevel.block ++ replaced l l'
  derollup : v'.derollup = v.derollup ++ path.reverse.map PathLevel.block
  rest : v'.leaf = v.leaf ∧ v'.defree = v.defree ∧ v'.tree.root = v.tree.root ∧
    v'.tree.depth = v.tree.depth

/-- One more clean level. -/
theorem Cloned.level {next child₁ clone : ℕ} {e : IndexEntry} {blocks : List ℕ} {v₁ : Volume α}
    {path₁ : List PathLevel} (hnext : 0 < next)
    (hentry : (v.tree.node block)[next - 1]? = some e)
    (hfresh : (child :: v.blocks ++ blocksOf v.tree.node (depth + 1) block).Nodup)
    (h : Cloned v depth e.block leaf path child v₁ child₁ path₁) (hblocks : v₁.blocks = clone :: blocks) :
    Cloned v (depth + 1) block leaf (⟨block, next⟩ :: path) child
      (redirectNode v₁ ⟨block, next⟩ child₁ clone blocks) clone (⟨clone, next⟩ :: path₁) := by
  obtain ⟨hnew, htree, hdisj⟩ := List.nodup_append.mp hfresh
  obtain ⟨hchild, hnewblocks⟩ := List.nodup_cons.mp hnew
  obtain ⟨u, hu⟩ := h.used
  rw [hblocks] at hu
  have hclone : clone ∈ v.blocks := hu ▸ List.mem_append_right _ List.mem_cons_self
  have hself : block ∉ v.blocks := fun hx =>
    hdisj block (List.mem_cons_of_mem _ hx) block List.mem_cons_self rfl
  have hes : v₁.tree.node block = v.tree.node block := (h.frame block hself).1
  set v₂ := redirectNode v₁ ⟨block, next⟩ child₁ clone blocks with hv₂
  have hnode : v₂.tree.node clone = (v.tree.node block).modify (next - 1)
      fun entry => { entry with block := child₁ } := by
    rw [hv₂, redirectNode]
    dsimp only
    rw [Function.update_self, hes]
  have hother : ∀ x, x ≠ clone → v₂.tree.node x = v₁.tree.node x := fun x hx =>
    Function.update_of_ne hx _ _
  obtain ⟨hget, htake, hdrop⟩ := modify_parts
    (fun entry => ({ entry with block := child₁ } : IndexEntry)) hnext hentry
  rw [← hnode] at hget htake hdrop
  have hfreshTree : ∀ x ∈ blocksOf v.tree.node (depth + 1) block, x ∉ v.blocks := fun x hx hb =>
    hdisj x (List.mem_cons_of_mem _ hb) x hx rfl
  have hside : ∀ a ∈ v.tree.node block, ∀ x ∈ blocksOf v.tree.node depth a.block,
      v₂.tree.node x = v.tree.node x := by
    intro a ha x hx
    have hb := hfreshTree x (mem_child ha hx)
    rw [hother x fun heq => hb (heq ▸ hclone), (h.frame x hb).1]
  -- the clone is not below the level before
  have hbelow : ∀ x ∈ blocksOf v₁.tree.node depth child₁, v₂.tree.node x = v₁.tree.node x := by
    intro x hx
    refine hother x fun heq => ?_
    rw [heq] at hx
    rcases h.sub clone hx with hc | hc | hc
    · exact hfreshTree clone (mem_child (List.mem_of_getElem? hentry) hc) hclone
    · exact hchild (hc ▸ hclone)
    · exact hc.2 (hblocks ▸ List.mem_cons_self)
  obtain ⟨hblocksOf, hleaves, hsized⟩ := subtree_congr hbelow
  have hpathBlocks : ∀ x ∈ path₁.map PathLevel.block, v₂.tree.node x = v₁.tree.node x :=
    fun x hx => hbelow x (h.onPath.blocks_sub x hx)
  refine ⟨OnPath.level hnext hget (h.onPath.congr hpathBlocks), fun n hs => ?_, fun low => ?_,
    fun key hkeys => ?_, List.mem_cons_of_mem _ hclone, fun x hx => ?_, fun x hx => ?_,
    ⟨u ++ [clone], by rw [hu, List.append_assoc]; rfl⟩, fun l l' => ?_, ?_, h.rest⟩
  · obtain ⟨hne, hlen, hsub⟩ := hs
    have hlength : (v₂.tree.node clone).length = (v.tree.node block).length := by
      rw [hnode, List.length_modify]
    refine ⟨fun hnil => hne ?_, hlength ▸ hlen, fun a ha => ?_⟩
    · rw [hnil] at hlength
      exact List.eq_nil_of_length_eq_zero hlength.symm
    · rw [split_at hnext hget, htake, hdrop, List.mem_append, List.mem_cons] at ha
      rcases ha with ha | rfl | ha
      · exact ((subtree_congr (hside a (List.mem_of_mem_take ha))).2.2 n).mpr
          (hsub a (List.mem_of_mem_take ha))
      · exact (hsized n).mpr (h.sized n (hsub e (List.mem_of_getElem? hentry)))
      · exact ((subtree_congr (hside a (List.mem_of_mem_drop ha))).2.2 n).mpr
          (hsub a (List.mem_of_mem_drop ha))
  · rw [leaves_entry hnext hget, before, lowKey, after, keyed_take, htake, hdrop, keyed_take]
    dsimp only
    rw [hentry, hleaves, h.leaves_eq,
      List.flatMap_congr (g := fun a => leaves v.tree.node depth a.key a.block)
        (l := keyed low ((v.tree.node block).take (next - 1))) fun a ha => ?_,
      List.flatMap_congr (g := fun a => leaves v.tree.node depth a.key a.block)
        (l := (v.tree.node block).drop next) fun a ha =>
          (subtree_congr (hside a (List.mem_of_mem_drop ha))).2.1 a.key]
    · simp only [Option.map_some, Option.getD_some, List.append_assoc, List.cons_append]
    · obtain ⟨a', ha', heq⟩ := keyed_mem ha
      exact (subtree_congr (heq ▸ hside a' (List.mem_of_mem_take ha'))).2.1 a.key
  · have hmem := List.mem_of_getElem? hentry
    have hlt := (List.getElem?_eq_some_iff.mp hget).1
    rw [checkFrom]
    dsimp only
    rw [hget]
    simp only [Bool.and_eq_true, decide_eq_true_eq, beq_self_eq_true, true_and]
    exact ⟨⟨hnext, by omega⟩, hkeys.le hmem, (checkFrom_congr hpathBlocks).trans
      (h.check e.key (hkeys.2.2 e hmem))⟩
  · rw [blocksOf, List.mem_cons] at hx
    have hgone : clone ∉ blocks := by
      rw [hu] at hnewblocks
      exact (List.nodup_cons.mp (List.nodup_append.mp hnewblocks).2.1).1
    rcases hx with rfl | hx
    · exact Or.inr (Or.inr ⟨hclone, hgone⟩)
    · obtain ⟨a, ha, hxa⟩ := List.mem_flatMap.mp hx
      rw [split_at hnext hget, htake, hdrop, List.mem_append, List.mem_cons] at ha
      rcases ha with ha | rfl | ha
      · have ha' := List.mem_of_mem_take ha
        rw [(subtree_congr (hside a ha')).1] at hxa
        exact Or.inl (mem_child ha' hxa)
      · dsimp only at hxa
        rw [hblocksOf] at hxa
        rcases h.sub x hxa with hc | hc | hc
        · exact Or.inl (mem_child (List.mem_of_getElem? hentry) hc)
        · exact Or.inr (Or.inl hc)
        · refine Or.inr (Or.inr ⟨hc.1, fun hb => hc.2 ?_⟩)
          exact hblocks ▸ List.mem_cons_of_mem _ hb
      · have ha' := List.mem_of_mem_drop ha
        rw [(subtree_congr (hside a ha')).1] at hxa
        exact Or.inl (mem_child ha' hxa)
  · have hne : x ≠ clone := fun heq => hx (heq ▸ hclone)
    refine ⟨(hother x hne).trans (h.frame x hx).1, ?_⟩
    rw [← (h.frame x hx).2, hv₂, redirectNode]
    exact Function.update_of_ne hne _ _
  · have hne : block ≠ clone := fun heq => hself (heq ▸ hclone)
    simp only [List.reverse_cons, List.map_append, List.map_cons, List.map_nil, List.append_assoc]
    rw [h.replaced_eq]
    congr 1
    simp [replaced, hne]
  · rw [hv₂, redirectNode]
    dsimp only
    rw [h.derollup, List.reverse_cons, List.map_append, List.append_assoc]
    rfl

theorem redirectLevels_clean (h : OnPath v.tree.node depth block path leaf)
    (hclean : ∀ a ∈ path, v.dirty a.block = false)
    (hfresh : (child :: v.blocks ++ blocksOf v.tree.node depth block).Nodup)
    (acc done : List PathLevel) :
    redirectLevels (path.reverse ++ acc) leaf child done v = none ∨
      ∃ v' child' path', Cloned v depth block leaf path child v' child' path' ∧
        redirectLevels (path.reverse ++ acc) leaf child done v =
          redirectLevels acc block child' (path' ++ done) v' := by
  induction h generalizing acc with
  | leaf block =>
      refine Or.inr ⟨v, child, [], ⟨OnPath.leaf child, fun _ _ => trivial, fun low => rfl, ?_,
        List.mem_cons_self, fun x hx => Or.inr (Or.inl (List.mem_singleton.mp hx)),
        fun _ _ => ⟨rfl, rfl⟩, ⟨[], rfl⟩, fun _ _ => rfl, (List.append_nil _).symm,
        rfl, rfl, rfl, rfl⟩, rfl⟩
      exact fun key _ => beq_self_eq_true child
  | @level depth block next e path leaf hnext hentry hpath ih =>
      have he := List.mem_of_getElem? hentry
      obtain ⟨hsub, hself, -⟩ := @level_nodup _ _ _ ⟨0, child, true⟩ _ _ he hfresh
      have happend : (⟨block, next⟩ :: path).reverse ++ acc = path.reverse ++ ⟨block, next⟩ :: acc := by
        rw [List.reverse_cons, List.append_assoc]
        rfl
      rw [happend]
      rcases ih (fun a ha => hclean a (List.mem_cons_of_mem _ ha)) hsub (⟨block, next⟩ :: acc) with
        hnone | ⟨v₁, child₁, path₁, hC, heq⟩
      · exact Or.inl hnone
      · have hdirty : v₁.dirty block = false :=
          (hC.frame block fun hx => hself (List.mem_cons_of_mem _ hx)).2.trans
            (hclean ⟨block, next⟩ List.mem_cons_self)
        rw [heq, redirectLevels]
        dsimp only
        rw [hdirty]
        cases hblocks : v₁.blocks with
        | nil => exact Or.inl rfl
        | cons clone blocks =>
            exact Or.inr ⟨_, clone, ⟨clone, next⟩ :: path₁,
              hC.level hnext hentry hfresh hblocks, rfl⟩

/-! ## Dirty levels -/

/-- A dirty level stops the climb with the entry of the old block. -/
theorem redirectLevels_dirty (h : OnPath v.tree.node depth block path leaf)
    (hdirty : ∃ a ∈ path, v.dirty a.block = true)
    (hfresh : (child :: v.blocks ++ blocksOf v.tree.node depth block).Nodup)
    (acc done : List PathLevel) :
    redirectLevels (path.reverse ++ acc) leaf child done v = none ∨
      ∃ v' path', redirectLevels (path.reverse ++ acc) leaf child done v =
          some (v', acc.reverse ++ (path' ++ done)) ∧
        (∀ x, x ∉ v.blocks → v'.tree.node x = v.tree.node x) ∧
        v'.tree.root = v.tree.root ∧
        ∀ key, checkFrom v'.tree.node key block path' child = false := by
  induction h generalizing acc with
  | leaf block =>
      obtain ⟨a, ha, -⟩ := hdirty
      cases ha
  | @level depth block next e path leaf hnext hentry hpath ih =>
      have he := List.mem_of_getElem? hentry
      obtain ⟨hsub, hself, -⟩ := @level_nodup _ _ _ ⟨0, child, true⟩ _ _ he hfresh
      have hself' : block ∉ v.blocks := fun hx => hself (List.mem_cons_of_mem _ hx)
      have happend : (⟨block, next⟩ :: path).reverse ++ acc = path.reverse ++ ⟨block, next⟩ :: acc := by
        rw [List.reverse_cons, List.append_assoc]
        rfl
      -- the entry of the level above does not change, so it decides
      have hcheck : ∀ (node : Nodes) (path' : List PathLevel), node block = v.tree.node block →
          checkFrom node e.key e.block path' child = false →
          ∀ key, checkFrom node key block (⟨block, next⟩ :: path') child = false := by
        intro node path' hnode hfalse key
        rw [checkFrom, hnode, hentry]
        dsimp only
        rw [hfalse, Bool.and_false, Bool.and_false]
      rw [happend]
      by_cases hlow : ∃ a ∈ path, v.dirty a.block = true
      · rcases ih hlow hsub (⟨block, next⟩ :: acc) with hnone | ⟨v', path', heq, hframe, hroot, hfalse⟩
        · exact Or.inl hnone
        · refine Or.inr ⟨v', ⟨block, next⟩ :: path', ?_, hframe, hroot,
            hcheck _ path' (hframe block hself') (hfalse e.key)⟩
          rw [heq, List.reverse_cons, List.append_assoc]
          rfl
      · have hclean : ∀ a ∈ path, v.dirty a.block = false := fun a ha =>
          Bool.eq_false_iff.mpr fun htrue => hlow ⟨a, ha, htrue⟩
        have hblock : v.dirty block = true := by
          obtain ⟨a, ha, htrue⟩ := hdirty
          rcases List.mem_cons.mp ha with rfl | ha
          · exact htrue
          · exact absurd ⟨a, ha, htrue⟩ hlow
        rcases redirectLevels_clean hpath hclean hsub (⟨block, next⟩ :: acc) done with
          hnone | ⟨v₁, child₁, path₁, hC, heq⟩
        · exact Or.inl hnone
        · refine Or.inr ⟨v₁, ⟨block, next⟩ :: path₁, ?_, fun x hx => (hC.frame x hx).1, hC.rest.2.2.1,
            hcheck _ path₁ (hC.frame block hself').1 (Bool.eq_false_iff.mpr fun htrue => ?_)⟩
          · rw [heq, redirectLevels]
            dsimp only
            rw [(hC.frame block hself').2, hblock, List.reverse_cons, List.append_assoc]
            rfl
          · have htop : child₁ = e.block := hC.onPath.topBlock_eq.symm.trans (checkFrom_top htrue)
            have hold : e.block ∈ blocksOf v.tree.node depth e.block := by
              cases depth with
              | zero => exact List.mem_singleton_self _
              | succ depth => exact List.mem_cons_self
            exact (List.nodup_append.mp hsub).2.2 child₁ hC.top e.block hold htop

end

section
variable {α : Type} {v v' : Volume α} {n q : ℕ} {cursor cursor' : Cursor}

/-! ## The redirect -/

theorem replaced_self (l : List ℕ) : replaced l l = [] := by
  induction l with
  | nil => rfl
  | cons a l ih =>
      rw [replaced] at ih
      simpa [replaced] using ih

theorem reached_content {t : Tree} (leaf : ℕ → α) (hs : Sized t.node n t.depth t.root)
    (hsorted : ((leaves t.node t.depth 0 t.root).map Prod.fst).Pairwise (· ≤ ·)) (key : ℕ) :
    (t.reached key).map leaf =
      ((((leaves t.node t.depth 0 t.root).map fun y => (y.1, leaf y.2)).filter
        fun y => y.1 ≤ key).getLast?).map Prod.snd := by
  rw [Tree.reached, probe_leaf hs hsorted (Nat.zero_le key), List.filter_map, List.getLast?_map,
    Option.map_map, Option.map_map]
  rfl

/-- The clones find the contents that were there before. -/
theorem Cloned.content {clone child : ℕ} {v₀ v₁ : Volume α} {path' : List PathLevel}
    (h : Cloned v₀ v.tree.depth v.tree.root cursor.leaf cursor.path clone v₁ child path')
    (hw : v.tree.WellFormed n)
    (hpath : OnPath v.tree.node v.tree.depth v.tree.root cursor.path cursor.leaf)
    (hclone : ∀ b ∈ blocksOf v.tree.node v.tree.depth v.tree.root, clone ≠ b)
    (htree : v₀.tree = v.tree)
    (hleaf : v₁.leaf = Function.update v.leaf clone (v.leaf cursor.leaf))
    (hdepth : v₁.tree.depth = v.tree.depth) (key : ℕ) :
    (Tree.reached { v₁.tree with root := child } key).map v₁.leaf =
      (v.tree.reached key).map v.leaf := by
  have hnew := h.leaves_eq 0
  have hsized := h.sized n
  rw [htree] at hnew hsized
  have hold := leaves_path hpath 0
  have hsorted := hw.sorted
  rw [hold, List.map_append, List.map_cons] at hsorted
  have hother : ∀ y ∈ leaves v.tree.node v.tree.depth 0 v.tree.root, v₁.leaf y.2 = v.leaf y.2 := by
    intro y hy
    rw [hleaf]
    refine Function.update_of_ne (fun heq => ?_) _ _
    exact hclone y.2 ((leaves_sublist 0).subset (List.mem_map.mpr ⟨y, hy, rfl⟩)) heq.symm
  rw [hold] at hother
  rw [reached_content v.leaf hw.sized hw.sorted, hold]
  rw [reached_content v₁.leaf (n := n)]
  · dsimp only
    rw [hdepth, hnew, List.map_append, List.map_append, List.map_cons, List.map_cons]
    have hself : v₁.leaf clone = v.leaf cursor.leaf := by
      rw [hleaf]
      exact Function.update_self _ _ _
    rw [hself, List.map_congr_left fun y hy => ?_, List.map_congr_left (g := fun y => (y.1, v.leaf y.2))
      (l := after _ _ _) fun y hy => ?_]
    · rw [hother y (List.mem_append_right _ (List.mem_cons_of_mem _ hy))]
    · rw [hother y (List.mem_append_left _ hy)]
  · dsimp only
    rw [hdepth]
    exact hsized hw.sized
  · dsimp only
    rw [hdepth, hnew, List.map_append, List.map_cons]
    exact hsorted

/-- `cursor_redirect` keeps the tree exactly when the leaf is dirty or the whole path is clean. -/
theorem redirected_iff (hw : v.tree.WellFormed n)
    (hkeys : KeysInOrder v.tree.node v.tree.depth 0 v.tree.root)
    (hcursor : probeFrom v.tree.node v.tree.depth v.tree.root q = some cursor)
    (hfresh : (v.blocks ++ blocksOf v.tree.node v.tree.depth v.tree.root).Nodup)
    (h : cursorRedirect v cursor = some (v', cursor')) :
    Redirected v v' cursor cursor' ↔
      v.dirty cursor.leaf = true ∨ ∀ at' ∈ cursor.path, v.dirty at'.block = false := by
  have hpath := probe_onPath hcursor
  rw [cursorRedirect] at h
  cases hleaf : v.dirty cursor.leaf with
  | true =>
      rw [hleaf] at h
      obtain ⟨rfl, rfl⟩ := Prod.mk.inj (Option.some.inj h)
      refine iff_of_true ⟨hleaf, hpath.check hkeys, fun _ => rfl, ?_, ?_⟩ (Or.inl rfl)
      · rw [replaced_self, List.append_nil]
      · rw [replaced_self, List.append_nil]
  | false =>
      rw [hleaf] at h
      cases hblocks : v.blocks with
      | nil =>
          rw [hblocks] at h
          cases h
      | cons clone blocks =>
          rw [hblocks] at h hfresh
          dsimp only at h
          obtain ⟨⟨w, path'⟩, hlevels, hpair⟩ := Option.map_eq_some_iff.mp h
          obtain ⟨rfl, rfl⟩ := Prod.mk.inj hpair
          rw [← List.append_nil cursor.path.reverse] at hlevels
          set v₀ : Volume α := { v with
            leaf := Function.update v.leaf clone (v.leaf cursor.leaf)
            dirty := Function.update v.dirty clone true
            defree := v.defree ++ [cursor.leaf]
            log := v.log ++ [.leafRedirect cursor.leaf clone]
            blocks := blocks } with hv₀
          obtain ⟨hnew, -, hdisj⟩ := List.nodup_append.mp hfresh
          have hsame : ∀ at' ∈ cursor.path, v₀.dirty at'.block = v.dirty at'.block := by
            intro at' hat
            refine Function.update_of_ne (fun heq => ?_) _ _
            exact hdisj clone List.mem_cons_self _
              (hpath.blocks_sub _ (List.mem_map.mpr ⟨at', hat, rfl⟩)) heq.symm
          constructor
          · intro hR
            right
            by_contra hno
            have hdirty : ∃ a ∈ cursor.path, v₀.dirty a.block = true := by
              by_contra hnone
              refine hno fun at' hat => Bool.eq_false_iff.mpr fun htrue => hnone ⟨at', hat, ?_⟩
              rw [hsame at' hat, htrue]
            rcases @redirectLevels_dirty _ v₀ _ _ _ clone _ hpath hdirty hfresh [] [] with
              hnone | ⟨v', path'', heq, -, hroot, hfalse⟩
            · rw [hnone] at hlevels
              cases hlevels
            · rw [heq] at hlevels
              obtain ⟨rfl, rfl⟩ := Prod.mk.inj (Option.some.inj hlevels)
              have hcheck := hR.check
              rw [cursorCheck] at hcheck
              dsimp only at hcheck
              rw [List.reverse_nil, List.nil_append, List.append_nil, hroot, hfalse 0] at hcheck
              cases hcheck
          · rintro (hfalse | hclean)
            · cases hfalse
            · rcases @redirectLevels_clean _ v₀ _ _ _ clone _ hpath
                (fun a ha => (hsame a ha).trans (hclean a ha)) hfresh [] [] with
                hnone | ⟨v₁, child, path'', hC, heq⟩
              · rw [hnone] at hlevels
                cases hlevels
              · obtain ⟨hleafEq, hdefree, hroot, hdepth⟩ := hC.rest
                rw [heq, redirectLevels, List.append_nil, hroot, if_pos rfl] at hlevels
                obtain ⟨rfl, rfl⟩ := Prod.mk.inj (Option.some.inj hlevels)
                have hclone : clone ∉ v₀.blocks := (List.nodup_cons.mp hnew).1
                refine ⟨?_, ?_, fun key => ?_, ?_, ?_⟩
                · exact (hC.frame clone hclone).2.trans (Function.update_self _ _ _)
                · exact hC.check 0 hkeys
                · exact hC.content hw hpath (hdisj clone List.mem_cons_self) rfl hleafEq hdepth key
                · rw [hdefree]
                  have hne : cursor.leaf ≠ clone := fun heq =>
                    hdisj clone List.mem_cons_self _ hpath.leaf_mem heq.symm
                  simp [v₀, replaced, hne]
                · have hreplaced := hC.replaced_eq [] []
                  rw [List.append_nil, List.append_nil, replaced_self, List.append_nil] at hreplaced
                  dsimp only
                  rw [hreplaced, hC.derollup]

theorem redirected_clean : ∃ v' cursor',
    cursorRedirect (⟨⟨fun b => if b = 1 then [⟨0, 10⟩, ⟨5, 11⟩] else [], 1, 1⟩, id, fun _ => false, [],
      [], [], [20, 21]⟩ : Volume ℕ) ⟨[⟨1, 1⟩], 10⟩ = some (v', cursor') ∧
    Redirected ⟨⟨fun b => if b = 1 then [⟨0, 10⟩, ⟨5, 11⟩] else [], 1, 1⟩, id, fun _ => false, [], [], [],
      [20, 21]⟩ v' ⟨[⟨1, 1⟩], 10⟩ cursor' := by
  obtain ⟨r, hr⟩ : ∃ r, cursorRedirect (⟨⟨fun b => if b = 1 then [⟨0, 10⟩, ⟨5, 11⟩] else [], 1, 1⟩, id,
      fun _ => false, [], [], [], [20, 21]⟩ : Volume ℕ) ⟨[⟨1, 1⟩], 10⟩ = some r := ⟨_, rfl⟩
  refine ⟨r.1, r.2, hr, (redirected_iff (n := 2) (q := 4) ⟨?_, ?_, ?_⟩ ?_ rfl ?_ hr).mpr
    (Or.inr fun _ _ => rfl)⟩
  · simp [Sized]
  · decide
  · decide
  · simp [KeysInOrder]
  · decide

/-- A clean leaf below a dirty root. -/
theorem dirty_parent : ∃ (v v' : Volume ℕ) (cursor cursor' : Cursor), v.tree.WellFormed 2 ∧
    KeysInOrder v.tree.node v.tree.depth 0 v.tree.root ∧
    probeFrom v.tree.node v.tree.depth v.tree.root 4 = some cursor ∧
    (v.blocks ++ blocksOf v.tree.node v.tree.depth v.tree.root).Nodup ∧
    cursorRedirect v cursor = some (v', cursor') ∧ ¬ Redirected v v' cursor cursor' := by
  refine ⟨⟨⟨fun b => if b = 1 then [⟨0, 10⟩, ⟨5, 11⟩] else [], 1, 1⟩, id, fun b => b == 1, [], [], [],
    [20, 21]⟩, _, ⟨[⟨1, 1⟩], 10⟩, _, ⟨?_, ?_, ?_⟩, ?_, rfl, ?_, rfl, fun h => ?_⟩
  · simp [Sized]
  · decide
  · decide
  · simp [KeysInOrder]
  · decide
  · have hcheck := h.check
    revert hcheck
    decide

end

end Tux3.Btree
