import Tux3.BtreeCursor

/-!
# Insertions behind a new leaf

A cursor that `insert_leaf` moved to the new leaf may be stray above its lowest level. The next
insertions read the lowest level only, as long as that has room.
-/
namespace Tux3.Btree

section
variable {node : Nodes} {n depth block leaf : ℕ} {path : List PathLevel} {at' : PathLevel}
  {child : Child} {s s' : Loop} {blocks : List ℕ}

theorem insertLevel_halves (hlen : (s.node at'.block).length ≤ n)
    (hfull : n ≤ (s.node at'.block).length) (hfresh : at'.block ∉ s.blocks)
    (h : insertLevel n at' s child = some s') :
    ∀ a ∈ s'.path.head?, (s'.node a.block).length ≤ (n + 1) / 2 + 1 := by
  obtain ⟨newbuf, l, r, -, -, -, hl, hr, -, hhalves⟩ := insertLevel_split hfull hfresh h
  intro a ha
  split at hhalves
  · obtain ⟨hleft, -, hpath⟩ := hhalves
    rw [hpath] at ha
    cases ha
    rw [hl, hleft, addChild_length, List.length_take]
    omega
  · obtain ⟨-, hright, hpath⟩ := hhalves
    rw [hpath] at ha
    cases ha
    rw [hr, hright, addChild_length, List.length_drop]
    omega

/-- What the levels below have become is apart from the level and from the blocks that are left. -/
theorem Inserted.apart {used : List ℕ} {e : IndexEntry}
    (hI : Inserted node n depth e.block leaf path child blocks s used)
    (hnodup : (child.block :: blocks ++ blocksOf node depth e.block).Nodup)
    (hfresh : block ∉ child.block :: blocks) (hself : block ∉ blocksOf node depth e.block) {low : ℕ}
    {a : IndexEntry} (ha : a ∈ grown ⟨low, e.block⟩ s.child) {x : ℕ}
    (hx : x ∈ blocksOf s.node depth a.block) : x ≠ block ∧ x ∉ s.blocks := by
  have hmem := (hI.perm low).mem_iff.mp (List.mem_flatMap.mpr ⟨a, ha, hx⟩)
  obtain ⟨hnew, -, hdisj⟩ := List.nodup_append.mp hnodup
  obtain ⟨hchild, hblocks⟩ := List.nodup_cons.mp hnew
  have hrest : ∀ y ∈ s.blocks, y ∈ blocks := fun y hy => hI.blocks_eq ▸ List.mem_append_right _ hy
  have hused : ∀ y ∈ used, y ∈ blocks := fun y hy => hI.blocks_eq ▸ List.mem_append_left _ hy
  rw [List.mem_append, List.mem_cons] at hmem
  constructor
  · rintro rfl
    rcases hmem with (rfl | hx) | hx
    · exact hfresh List.mem_cons_self
    · exact hfresh (List.mem_cons_of_mem _ (hused x hx))
    · exact hself hx
  · intro hin
    rcases hmem with (rfl | hx) | hx
    · exact hchild (hrest _ hin)
    · rw [hI.blocks_eq] at hblocks
      exact (List.nodup_append.mp hblocks).2.2 x hx x hin rfl
    · exact hdisj x (List.mem_cons_of_mem _ (hrest x hin)) x hx rfl

theorem Inserted.nodup {used : List ℕ}
    (hI : Inserted node n depth block leaf path child blocks s used)
    (hfresh : (child.block :: blocks ++ blocksOf node depth block).Nodup) (low : ℕ) :
    (((grown ⟨low, block⟩ s.child).flatMap fun e => blocksOf s.node depth e.block) ++
      s.blocks).Nodup := by
  refine (List.Perm.nodup_iff ?_).mp hfresh
  refine List.Perm.trans ?_ ((hI.perm low).symm.append_right s.blocks)
  rw [hI.blocks_eq]
  refine List.perm_iff_count.mpr fun x => ?_
  simp only [List.count_append, List.count_cons]
  omega

/-- The lowest level after the loop: it is on a path to the leaf, and half full if it was full. -/
structure Lowest (node : Nodes) (n depth block leaf' : ℕ) (path : List PathLevel) (s : Loop) :
    Prop where
  reached : ∀ low, ∃ e ∈ grown ⟨low, block⟩ s.child, ∃ path',
    OnPath s.node depth e.block path' leaf' ∧ path'.getLast? = s.path.getLast?
  half : (∀ a ∈ path.getLast?, n ≤ (node a.block).length) →
    ∀ a ∈ s.path.getLast?, (s.node a.block).length ≤ (n + 1) / 2 + 1

/-- At the lowest level. -/
theorem lowest_level {next : ℕ} {e : IndexEntry} (hlen : (s.node block).length ≤ n)
    (hnext : 0 < next) (hentry : (s.node block)[next - 1]? = some e) (hfresh : block ∉ s.blocks)
    (hpath : s.path = [])
    (h : insertLevel n ⟨block, next⟩ s child = some s') :
    Lowest s.node n 1 block (if child.keep then e.block else child.block) [⟨block, next⟩] s' := by
  obtain ⟨a, ha, hpos, ⟨e', he', heb⟩, hplace⟩ := insertLevel_path hnext hentry hfresh h
  rw [hpath] at ha
  refine ⟨fun low => ?_, fun hfull b hb => ?_⟩
  · have hp : OnPath s'.node 1 a.block [a] (if child.keep then e.block else child.block) :=
      .level hpos he' (heb ▸ .leaf _)
    rw [ha]
    rcases hplace with ⟨hnone, -, hab⟩ | ⟨c, hc, -, -, -, -, hab⟩
    · have hab : a.block = block := hab
      exact ⟨⟨low, block⟩, List.mem_cons_self, [a], hab ▸ hp, rfl⟩
    · rw [hc]
      by_cases hright : inRight s.node ⟨block, next⟩ = true
      · rw [if_pos hright] at hab
        exact ⟨⟨c.key, c.block⟩, List.mem_cons_of_mem _ List.mem_cons_self, [a], hab ▸ hp, rfl⟩
      · have hab : a.block = block := by rwa [if_neg hright] at hab
        exact ⟨⟨low, block⟩, List.mem_cons_self, [a], hab ▸ hp, rfl⟩
  · rw [ha] at hb
    cases hb
    exact insertLevel_halves hlen (hfull _ rfl) hfresh h a (by rw [ha]; rfl)

/-- The lowest level of the cursor after the loop. -/
theorem insertLevels_lowest (hn : 2 ≤ n) (hs : Sized node n depth block)
    (hpath : OnPath node depth block path leaf)
    (hnodup : (child.block :: blocks ++ blocksOf node depth block).Nodup)
    (h : insertLevels node n blocks child path = some s) :
    Lowest node n depth block (if child.keep then leaf else child.block) path s := by
  induction hpath generalizing s with
  | leaf block =>
      obtain rfl := Option.some.inj h
      refine ⟨fun low => ?_, fun _ a ha => (nomatch ha)⟩
      cases child.keep with
      | true => exact ⟨⟨low, block⟩, List.mem_cons_self, [], .leaf block, rfl⟩
      | false =>
          exact ⟨⟨child.key, child.block⟩, List.mem_cons_of_mem _ List.mem_cons_self, [], .leaf _,
            rfl⟩
  | @level depth block next e path leaf hnext hentry hpath ih =>
      obtain ⟨s₀, hs₀, hlevel⟩ := insertLevels_cons h
      have he : e ∈ node block := List.mem_of_getElem? hentry
      obtain ⟨hsub, hfresh, hself⟩ := level_nodup he hnodup
      obtain ⟨used, hI⟩ := insertLevels_spec hn (hs.2.2 e he) hpath hsub hs₀
      obtain ⟨hreached, hhalf⟩ := ih (hs.2.2 e he) hsub hs₀
      have hfresh₀ : block ∉ s₀.blocks := fun hx => hfresh (List.mem_cons_of_mem _
        (hI.blocks_eq ▸ List.mem_append_right _ hx))
      have hnode : s₀.node block = node block := by
        refine hI.frame block (fun hx => hself (hpath.blocks_sub block hx)) fun hx => hfresh ?_
        exact List.mem_cons_of_mem _ (hI.blocks_eq ▸ List.mem_append_left _ hx)
      cases path with
      | nil =>
          obtain rfl := Option.some.inj hs₀
          cases hpath
          rcases hlevel with ⟨hc, -⟩ | ⟨c, hc, hlevel⟩
          · cases hc
          · cases hc
            exact lowest_level hs.2.1 hnext hentry hfresh₀ rfl hlevel
      | cons p rest =>
          obtain ⟨used', hused', hframe', hentries, -, -⟩ := insertLevels_nodes hn hnode hs.2.1 hs.1
            hnext hentry hfresh₀ hlevel
          have hsame : ∀ low, ∀ x ∈ grown ⟨low, e.block⟩ s₀.child, ∀ path' leaf',
              OnPath s₀.node depth x.block path' leaf' → ∀ y ∈ path'.map PathLevel.block,
                s.node y = s₀.node y := by
            intro low x hx path' leaf' hpath' y hy
            obtain ⟨hne, hnot⟩ := hI.apart hsub hfresh hself hx (hpath'.blocks_sub y hy)
            exact hframe' y hne fun hu => hnot (hused' ▸ List.mem_append_left _ hu)
          have hlast : s.path.getLast? = s₀.path.getLast? := by
            have hcons : ∃ a, s.path = a :: s₀.path := by
              rcases hlevel with ⟨-, rfl⟩ | ⟨c, -, hlevel⟩
              · exact ⟨_, rfl⟩
              · obtain ⟨a, ha, -⟩ := insertLevel_path hnext (hnode ▸ hentry) hfresh₀ hlevel
                exact ⟨a, ha⟩
            obtain ⟨a, ha⟩ := hcons
            obtain ⟨x, -, path', hpath', heq⟩ := hreached 0
            cases hpath with
            | level =>
                cases hpath' with
                | level =>
                    rw [ha]
                    cases hs : s₀.path with
                    | nil =>
                        rw [hs, List.getLast?_cons] at heq
                        cases heq
                    | cons q l => exact List.getLast?_cons_cons
          refine ⟨fun low => ?_, fun hfull a ha => ?_⟩
          · obtain ⟨x, hx, path', hpath', heq⟩ := hreached (if next = 1 then low else e.key)
            -- the entry of the path is in the level or in its new node
            have hin : x ∈ (grown ⟨low, block⟩ s.child).flatMap
                fun e => keyed e.key (s.node e.block) := by
              rw [hentries low]
              exact List.mem_append_left _ (List.mem_append_right _ hx)
            obtain ⟨e', he', hin⟩ := List.mem_flatMap.mp hin
            obtain ⟨e'', hin, hblock⟩ := keyed_mem hin
            obtain ⟨j, hj⟩ := List.getElem?_of_mem hin
            refine ⟨e', he', ⟨e'.block, j + 1⟩ :: path', .level (Nat.succ_pos j) hj ?_, ?_⟩
            · rw [hblock]
              exact hpath'.congr (hsame _ x hx path' _ hpath')
            · rw [hlast, ← heq]
              cases hpath with
              | level =>
                  cases hpath' with
                  | level => exact List.getLast?_cons_cons
          · rw [List.getLast?_cons_cons] at hfull
            rw [hlast] at ha
            obtain ⟨x, hx, path', hpath', heq⟩ := hreached 0
            have hmem : a.block ∈ path'.map PathLevel.block :=
              List.mem_map_of_mem (List.mem_of_getLast? (heq ▸ ha))
            rw [hsame 0 x hx path' _ hpath' _ hmem]
            exact hhalf hfull a ha

end

section
variable {node : Nodes} {n depth block leaf next : ℕ} {path upper : List PathLevel} {child : Child}
  {blocks : List ℕ} {keep : Bool}

theorem insertLevels_room (hroom : (node block).length < n) :
    insertLevels node n blocks child (upper ++ [⟨block, next⟩]) =
      some ⟨Function.update node block (addChild (node block) next child.block child.key),
        upper ++ [⟨block, if child.keep then next else next + 1⟩], none, blocks⟩ := by
  induction upper with
  | nil =>
      rw [List.nil_append, insertLevels]
      exact insertLevel_room hroom
  | cons a upper ih =>
      rw [List.cons_append, insertLevels, ih]
      rfl

theorem stray_of_room (h : ∀ a ∈ path.getLast?, (node a.block).length < n) :
    stray node n keep path = false := by
  cases path with
  | nil => rfl
  | cons a path =>
      obtain ⟨c, hc⟩ := Option.isSome_iff_exists.mp
        (List.getLast?_isSome.mpr (List.cons_ne_nil a path))
      have hfull : ((a :: path).all fun a => decide (n ≤ (node a.block).length)) = false := by
        rw [List.all_eq_false]
        refine ⟨c, List.mem_of_getLast? hc, ?_⟩
        rw [decide_eq_true_eq]
        exact Nat.not_le.mpr (h c hc)
      rw [stray, hfull, Bool.false_and, Bool.false_and]

theorem settled_of_room (h : ∀ a ∈ path.getLast?, (node a.block).length < n) :
    Settled node n keep path := by
  induction path with
  | nil => exact fun p hp => by rw [List.mem_singleton.mp hp, stray]
  | cons a path ih =>
      have htail : ∀ b ∈ path.getLast?, (node b.block).length < n := by
        intro b hb
        refine h b ?_
        cases path with
        | nil => cases hb
        | cons c path => exact List.getLast?_cons_cons.trans hb
      exact (@settled_cons node n path a ⟨0, 0, keep⟩).mpr ⟨stray_of_room htail, ih htail⟩

end

/-- A cursor that the next insertions can use: its lowest level is the one of a path to its leaf,
and has room unless the whole cursor is that path. -/
def Steady (t : Tree) (n room : ℕ) (cursor : Cursor) : Prop :=
  ∃ path, OnPath t.node t.depth t.root path cursor.leaf ∧
    path.getLast? = cursor.path.getLast? ∧
    (path = cursor.path ∨ ∀ a ∈ path.getLast?, (t.node a.block).length + room ≤ n)

section
variable {t t' : Tree} {n k leafbuf room : ℕ} {blocks : List ℕ} {cursor cursor' : Cursor}

/-- The blocks of the tree after an insertion, and a path to the leaf. -/
theorem insertLeaf_lowest {keep : Bool} (hn : 2 ≤ n) (hw : t.WellFormed n) (hdepth : 0 < t.depth)
    (hpath : OnPath t.node t.depth t.root cursor.path cursor.leaf)
    (hfresh : (leafbuf :: blocks ++ blocksOf t.node t.depth t.root).Nodup)
    (h : insertLeaf t n blocks cursor k leafbuf keep = some (t', cursor')) :
    (∃ used rest, blocks = used ++ rest ∧ (blocksOf t'.node t'.depth t'.root).Perm
        (leafbuf :: used ++ blocksOf t.node t.depth t.root)) ∧
      (∃ path, OnPath t'.node t'.depth t'.root path cursor'.leaf ∧
        path.getLast? = cursor'.path.getLast?) ∧
      ((∀ a ∈ cursor.path.getLast?, n ≤ (t.node a.block).length) →
        ∀ a ∈ cursor'.path.getLast?, (t'.node a.block).length ≤ (n + 1) / 2 + 1) := by
  obtain ⟨s, hs, hcase⟩ := insertLeaf_cases h
  obtain ⟨used, hI⟩ := insertLevels_spec hn hw.sized hpath (by exact hfresh) hs
  obtain ⟨hreached, hhalf⟩ := insertLevels_lowest hn hw.sized hpath (by exact hfresh) hs
  have hperm := hI.perm 0
  obtain ⟨e, he, path, hp, hlast⟩ := hreached 0
  rcases hcase with ⟨hc, rfl, rfl⟩ | ⟨c, newroot, rest, hc, hrest, rfl, rfl⟩
  · simp only [hc, grown, Option.map_none, Option.toList_none, List.flatMap_cons, List.flatMap_nil,
      List.append_nil, List.mem_singleton] at hperm he
    subst he
    exact ⟨⟨used, s.blocks, hI.blocks_eq, hperm⟩, ⟨path, hp, hlast⟩, hhalf⟩
  · have hnodup := (List.nodup_append.mp (hI.nodup (by exact hfresh) 0)).2.2
    have hroot : newroot ∈ s.blocks := hrest ▸ List.mem_cons_self
    have hsame : ∀ x ∈ (grown ⟨0, t.root⟩ s.child).flatMap
        (fun e => blocksOf s.node t.depth e.block),
        Function.update s.node newroot [⟨0, t.root⟩, ⟨c.key, c.block⟩] x = s.node x :=
      fun x hx => Function.update_of_ne (hnodup x hx newroot hroot) _ _
    have hgrown : grown ⟨0, t.root⟩ s.child = [⟨0, t.root⟩, ⟨c.key, c.block⟩] := by
      rw [hc]
      rfl
    have hentries : Function.update s.node newroot [⟨0, t.root⟩, ⟨c.key, c.block⟩] newroot =
        grown ⟨0, t.root⟩ s.child := by
      rw [Function.update_self, hgrown]
    have hpath' : ∀ x ∈ path.map PathLevel.block,
        Function.update s.node newroot [⟨0, t.root⟩, ⟨c.key, c.block⟩] x = s.node x :=
      fun x hx => hsame x (List.mem_flatMap.mpr ⟨e, he, hp.blocks_sub x hx⟩)
    have hne : path ≠ [] := by
      rintro rfl
      obtain ⟨d, hd⟩ := Nat.exists_eq_succ_of_ne_zero (Nat.ne_of_gt hdepth)
      rw [hd] at hp
      cases hp
    obtain ⟨q, l, rfl⟩ := List.exists_cons_of_ne_nil hne
    obtain ⟨q', l', hq'⟩ := List.exists_cons_of_ne_nil (l := s.path) (by
      intro hnil
      rw [hnil, List.getLast?_cons] at hlast
      cases hlast)
    refine ⟨⟨used ++ [newroot], rest, ?_, ?_⟩, ?_, fun hfull a ha => ?_⟩
    · rw [hI.blocks_eq, hrest, List.append_assoc, List.singleton_append]
    · dsimp only
      rw [blocksOf, hentries, List.flatMap_congr fun e he => (subtree_congr fun x hx =>
          hsame x (List.mem_flatMap.mpr ⟨e, he, hx⟩)).1]
      refine (List.Perm.cons newroot hperm).trans ?_
      refine List.perm_iff_count.mpr fun x => ?_
      simp only [List.count_append, List.count_cons, List.count_nil]
      omega
    · obtain ⟨j, hj⟩ := List.getElem?_of_mem he
      refine ⟨⟨newroot, j + 1⟩ :: q :: l, .level (Nat.succ_pos j) ?_ (hp.congr hpath'), ?_⟩
      · dsimp only
        rw [hentries]
        exact hj
      · rw [hq'] at hlast ⊢
        rw [List.getLast?_cons_cons, hlast, List.getLast?_cons_cons]
    · rw [hq'] at hlast ha
      rw [List.getLast?_cons_cons, ← hlast] at ha
      dsimp only
      rw [hpath' _ (List.mem_map_of_mem (List.mem_of_getLast? ha))]
      refine hhalf hfull a ?_
      rw [hq']
      exact hlast ▸ ha

theorem insertLeaf_room {x next : ℕ} {upper : List PathLevel} {leaf : ℕ}
    (hroom : (t.node x).length < n) :
    insertLeaf t n blocks ⟨upper ++ [⟨x, next⟩], leaf⟩ k leafbuf false =
      some ({ t with node := Function.update t.node x (addChild (t.node x) next leafbuf k) },
        ⟨upper ++ [⟨x, next + 1⟩], leafbuf⟩) := by
  rw [insertLeaf]
  dsimp only
  rw [insertLevels_room hroom]
  rfl

/-- An insertion of a new leaf behind the one of the cursor: it is the one of a path, and leaves a
cursor that can be used as often again. -/
theorem Steady.insert (hn : 2 ≤ n) (hw : t.WellFormed n) (hdepth : 0 < t.depth)
    (hroom : (n + 1) / 2 + 1 + room ≤ n)
    (hs : Steady t n (room + 1) cursor)
    (hfresh : (leafbuf :: blocks ++ blocksOf t.node t.depth t.root).Nodup)
    (h : insertLeaf t n blocks cursor k leafbuf false = some (t', cursor')) :
    cursor'.leaf = leafbuf ∧ Steady t' n room cursor' ∧
      ∃ path cursor'', OnPath t.node t.depth t.root path cursor.leaf ∧
        insertLeaf t n blocks ⟨path, cursor.leaf⟩ k leafbuf false = some (t', cursor'') := by
  obtain ⟨path, hpath, hlast, hcase⟩ := hs
  obtain ⟨d, hd⟩ := Nat.exists_eq_succ_of_ne_zero (Nat.ne_of_gt hdepth)
  obtain ⟨⟨x, next⟩, hx⟩ : ∃ a, path.getLast? = some a := by
    rw [hd] at hpath
    cases hpath with
    | level => exact ⟨_, List.getLast?_eq_some_getLast (List.cons_ne_nil _ _)⟩
  have hcall : cursor = ⟨cursor.path, cursor.leaf⟩ := rfl
  by_cases hlow : (t.node x).length + (room + 1) ≤ n
  · -- the levels above the lowest one are not read
    have hlt : (t.node x).length < n := by omega
    obtain ⟨upper, rfl⟩ := List.getLast?_eq_some_iff.mp hx
    obtain ⟨upper', hupper'⟩ := List.getLast?_eq_some_iff.mp (hlast ▸ hx)
    rw [hcall, hupper', insertLeaf_room hlt] at h
    cases h
    have hinsert := @insertLeaf_room t n k leafbuf blocks x next upper cursor.leaf hlt
    obtain ⟨-, hvalid⟩ := insertLeaf_path hn hw (by exact hpath) hfresh hinsert
    refine ⟨rfl, ⟨upper ++ [⟨x, next + 1⟩], hvalid.mpr (settled_of_room ?_), ?_, .inr ?_⟩, _, _,
      hpath, hinsert⟩
    · intro a ha
      rw [hx] at ha
      cases ha
      exact hlt
    · rw [List.getLast?_concat, List.getLast?_concat]
    · intro a ha
      rw [List.getLast?_concat] at ha
      cases ha
      dsimp only
      rw [Function.update_self, addChild_length]
      omega
  · have hsame : path = cursor.path := hcase.resolve_right fun hr => hlow (hr _ hx)
    subst hsame
    obtain ⟨hleaf, hvalid⟩ := insertLeaf_path hn hw hpath hfresh h
    refine ⟨hleaf, ?_, _, _, hpath, hcall ▸ h⟩
    by_cases hsettled : Settled t.node n false cursor.path
    · exact ⟨_, hvalid.mpr hsettled, rfl, .inl rfl⟩
    · obtain ⟨-, ⟨path', hpath', hlast'⟩, hhalf⟩ := insertLeaf_lowest hn hw hdepth hpath hfresh h
      refine ⟨path', hpath', hlast', .inr fun a ha => ?_⟩
      have hfull : n ≤ (t.node x).length := by
        by_contra hroom'
        refine hsettled (settled_of_room fun a ha => ?_)
        rw [hx] at ha
        cases ha
        exact Nat.not_le.mp hroom'
      have hle := hhalf (fun b hb => by
        rw [hx] at hb
        cases hb
        exact hfull) a (hlast' ▸ ha)
      omega

end

end Tux3.Btree
