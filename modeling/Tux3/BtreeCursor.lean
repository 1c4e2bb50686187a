import Tux3.BtreeInsert
import Mathlib.Data.List.Nodup

/-!
# The cursor after an insertion

The flag `keep` says at every level whether the level below is in its old place. It is not cleared
again: a level that splits with the cursor in its right half, while the flag is set, moves the
cursor to the new node and leaves `->next` of the level above behind.
-/
namespace Tux3.Btree

section
variable (node : Nodes) (n : ℕ) (keep : Bool)

/-- The cursor is in the right half of the node: not `child_is_left`. -/
def inRight (at' : PathLevel) : Bool := (node at'.block).length / 2 < at'.next

/-- A level that splits and takes the cursor along while the flag is set. -/
def stray : List PathLevel → Bool
  | [] => false
  | at' :: rest => ((at' :: rest).all fun a => n ≤ (node a.block).length) && inRight node at' &&
      (keep || rest.any fun a => !inRight node a)

/-- No level below the root is stray. -/
def Settled (path : List PathLevel) : Prop := ∀ p ∈ path.tail.tails, stray node n keep p = false

instance (path : List PathLevel) : Decidable (Settled node n keep path) :=
  inferInstanceAs (Decidable (∀ p ∈ path.tail.tails, stray node n keep p = false))

end

section
variable {node node' : Nodes} {n depth block leaf leaf' : ℕ} {path : List PathLevel}
  {at' a : PathLevel} {s s' : Loop} {child : Child} {blocks : List ℕ}

/-! ## Paths -/

theorem OnPath.topBlock_eq (h : OnPath node depth block path leaf) : topBlock path leaf = block := by
  cases h with
  | leaf => rfl
  | level => rfl

theorem onPath_cons : OnPath node (depth + 1) block (a :: path) leaf ↔
    a.block = block ∧ 0 < a.next ∧
      ∃ e, (node block)[a.next - 1]? = some e ∧ OnPath node depth e.block path leaf := by
  constructor
  · intro h
    cases h with
    | level hnext hentry h => exact ⟨rfl, hnext, _, hentry, h⟩
  · rintro ⟨rfl, hnext, e, hentry, h⟩
    exact OnPath.level hnext hentry h

theorem OnPath.congr (h : OnPath node depth block path leaf)
    (heq : ∀ x ∈ path.map PathLevel.block, node' x = node x) :
    OnPath node' depth block path leaf := by
  induction h with
  | leaf block => exact OnPath.leaf block
  | level hnext hentry h ih =>
      refine OnPath.level hnext ?_ (ih fun x hx => heq x (List.mem_cons_of_mem _ hx))
      rw [heq _ List.mem_cons_self]
      exact hentry

theorem onPath_iff {b : ℕ} : OnPath node depth b path leaf ↔
    b = topBlock path leaf ∧ OnPath node depth (topBlock path leaf) path leaf := by
  constructor
  · intro h
    exact ⟨h.topBlock_eq.symm, h.topBlock_eq.symm ▸ h⟩
  · rintro ⟨rfl, h⟩
    exact h

theorem OnPath.leaf_mem (h : OnPath node depth block path leaf) :
    leaf ∈ blocksOf node depth block := by
  induction h with
  | leaf block => exact List.mem_singleton_self block
  | level hnext hentry h ih =>
      exact mem_child (List.mem_of_getElem? hentry) ih

/-- A leaf has one path. -/
theorem OnPath.unique {path' : List PathLevel} (hnodup : (blocksOf node depth block).Nodup)
    (h : OnPath node depth block path leaf) (h' : OnPath node depth block path' leaf) :
    path = path' := by
  induction h generalizing path' with
  | leaf block =>
      cases h'
      rfl
  | @level depth block next e path leaf hnext hentry h ih =>
      cases h' with
      | @level _ _ next' e' path' _ hnext' hentry' h' =>
          rw [blocksOf] at hnodup
          obtain ⟨hsub, hdisj⟩ := List.nodup_flatMap.mp (List.nodup_cons.mp hnodup).2
          have hplace : next - 1 = next' - 1 := by
            obtain ⟨hlt, heq⟩ := List.getElem?_eq_some_iff.mp hentry
            obtain ⟨hlt', heq'⟩ := List.getElem?_eq_some_iff.mp hentry'
            rw [List.pairwise_iff_getElem] at hdisj
            rcases Nat.lt_trichotomy (next - 1) (next' - 1) with hl | hl | hl
            · have hd := hdisj _ _ hlt hlt' hl
              rw [heq, heq'] at hd
              exact absurd h'.leaf_mem (hd h.leaf_mem)
            · exact hl
            · have hd := hdisj _ _ hlt' hlt hl
              rw [heq, heq'] at hd
              exact absurd h.leaf_mem (hd h'.leaf_mem)
          rw [hplace, hentry'] at hentry
          cases hentry
          have hnext_eq : next = next' := by omega
          rw [ih (hsub e (List.mem_of_getElem? hentry')) h', hnext_eq]

/-! ## One level -/

/-- The place of the cursor after a round: the entry before `->next` is the child exactly when the
flag is not set. -/
theorem insertLevel_path {e : IndexEntry} (hnext : 0 < at'.next)
    (hentry : (s.node at'.block)[at'.next - 1]? = some e) (hfresh : at'.block ∉ s.blocks)
    (h : insertLevel n at' s child = some s') :
    ∃ a, s'.path = a :: s.path ∧ 0 < a.next ∧
      (∃ e', (s'.node a.block)[a.next - 1]? = some e' ∧
        e'.block = if child.keep then e.block else child.block) ∧
      ((s'.child = none ∧ (s.node at'.block).length < n ∧ a.block = at'.block) ∨
        ∃ c, s'.child = some c ∧ n ≤ (s.node at'.block).length ∧ c.block ≠ at'.block ∧
          s.blocks = c.block :: s'.blocks ∧ c.keep = (child.keep || !inRight s.node at') ∧
          a.block = if inRight s.node at' then c.block else at'.block) := by
  have hlt := (List.getElem?_eq_some_iff.mp hentry).1
  -- the entry before the cursor in the node that took in the child
  have hplace : ∀ (es : List IndexEntry) (next : ℕ), 0 < next → next ≤ es.length →
      es[next - 1]? = some e →
      0 < (if child.keep then next else next + 1) ∧
        ∃ e', (addChild es next child.block child.key)[(if child.keep then next else next + 1) - 1]? =
            some e' ∧ e'.block = if child.keep then e.block else child.block := by
    intro es next hpos hle hget
    cases child.keep with
    | true => exact ⟨hpos, e, (addChild_getElem_prev hpos hle).trans hget, rfl⟩
    | false => exact ⟨Nat.succ_pos next, _, addChild_getElem_self hle, rfl⟩
  rcases Nat.lt_or_ge (s.node at'.block).length n with hroom | hfull
  · rw [insertLevel_room hroom] at h
    obtain rfl := Option.some.inj h
    obtain ⟨hpos, hat⟩ := hplace _ at'.next hnext (by omega) hentry
    refine ⟨_, rfl, hpos, ?_, Or.inl ⟨rfl, hroom, rfl⟩⟩
    dsimp only
    rw [Function.update_self]
    exact hat
  · obtain ⟨newbuf, l, r, hblocks, hne, hchild, hl, hr, hframe, hhalves⟩ :=
      insertLevel_split hfull hfresh h
    set es := s.node at'.block with hes
    set half := es.length / 2 with hhalf
    by_cases hleft : at'.next ≤ half
    · have hright : inRight s.node at' = false := by
        simpa [inRight, ← hes] using hleft
      rw [if_pos hleft] at hhalves
      obtain ⟨rfl, -, hpath⟩ := hhalves
      obtain ⟨hpos, hat⟩ := hplace (es.take half) at'.next hnext
        (by rw [List.length_take]; omega) (by rw [List.getElem?_take_of_lt (by omega)]; exact hentry)
      refine ⟨_, hpath, hpos, hl ▸ hat, Or.inr ⟨_, hchild, hfull, hne, hblocks, ?_, ?_⟩⟩
      · rw [hright, decide_eq_true hleft]
        rfl
      · rw [hright]
        rfl
    · have hright : inRight s.node at' = true := by
        simpa [inRight, ← hes] using hleft
      rw [if_neg hleft] at hhalves
      obtain ⟨-, rfl, hpath⟩ := hhalves
      obtain ⟨hpos, hat⟩ := hplace (es.drop half) (at'.next - half) (by omega)
        (by rw [List.length_drop]; omega) (by
          rw [List.getElem?_drop, ← hentry]
          congr 1
          omega)
      refine ⟨_, hpath, hpos, hr ▸ hat, Or.inr ⟨_, hchild, hfull, hne, hblocks, ?_, ?_⟩⟩
      · rw [hright, decide_eq_false hleft]
        rfl
      · rw [hright]
        rfl

/-! ## All levels -/

/-- Whether the cursor ends in the new child of a level. -/
def goesRight (node : Nodes) (keep : Bool) : List PathLevel → Bool
  | [] => !keep
  | at' :: _ => inRight node at'

/-- The levels of the cursor after the loop, up to the level of a block. -/
structure Followed (node : Nodes) (n depth block leaf' : ℕ) (path : List PathLevel) (child : Child)
    (s : Loop) : Prop where
  full : s.child = none ↔ ¬ path.all fun a => n ≤ (node a.block).length
  stays : s.child = none → topBlock s.path leaf' = block
  moves : ∀ c ∈ s.child, c.block ≠ block ∧
    c.keep = (child.keep || path.any fun a => !inRight node a) ∧
    topBlock s.path leaf' = if goesRight node child.keep path then c.block else block
  valid : OnPath s.node depth (topBlock s.path leaf') s.path leaf' ↔ Settled node n child.keep path

/-- At a pending child the flag agrees with the place of the cursor unless the level is stray. -/
theorem Followed.stray_iff (hF : Followed node n depth block leaf' path child s) {c : Child}
    (hc : s.child = some c) :
    stray node n child.keep path = false ↔
      (if c.keep then block else c.block) = topBlock s.path leaf' := by
  obtain ⟨hne, hkeep, htop⟩ := hF.moves c hc
  have hfull : path.all (fun a => n ≤ (node a.block).length) = true := by
    by_contra hno
    rw [hF.full.mpr hno] at hc
    cases hc
  rw [htop, hkeep]
  cases path with
  | nil => cases child.keep <;> simp [stray, goesRight]
  | cons a rest =>
      rw [stray, hfull]
      cases hr : inRight node a with
      | false => simp [goesRight, hr]
      | true =>
          rw [List.any_cons, hr, Bool.not_true, Bool.false_or, goesRight, hr]
          cases child.keep || rest.any fun a => !inRight node a with
          | false => simp
          | true => simp [hne.symm]

theorem settled_cons : Settled node n child.keep (at' :: path) ↔
    stray node n child.keep path = false ∧ Settled node n child.keep path := by
  unfold Settled
  rw [List.tail_cons]
  cases path with
  | nil => simp
  | cons a rest => simp

theorem level_nodup {e : IndexEntry} (he : e ∈ node block)
    (h : (child.block :: blocks ++ blocksOf node (depth + 1) block).Nodup) :
    (child.block :: blocks ++ blocksOf node depth e.block).Nodup ∧ block ∉ child.block :: blocks ∧
      block ∉ blocksOf node depth e.block := by
  have hsub : (blocksOf node depth e.block).Sublist
      ((node block).flatMap fun x => blocksOf node depth x.block) := by
    obtain ⟨l, r, hlr⟩ := List.append_of_mem he
    rw [hlr, List.flatMap_append, List.flatMap_cons]
    exact (List.sublist_append_left _ _).trans (List.sublist_append_right _ _)
  obtain ⟨hnew, htree, hdisj⟩ := List.nodup_append.mp h
  rw [blocksOf] at h htree hdisj
  refine ⟨h.sublist (List.Sublist.append_left (hsub.trans (List.sublist_cons_self block _)) _),
    fun hx => hdisj block hx block List.mem_cons_self rfl, fun hx => ?_⟩
  exact (List.nodup_cons.mp htree).1 (hsub.subset hx)

/-- The levels of the cursor up to the root. -/
theorem insertLevels_path (hn : 2 ≤ n) (hs : Sized node n depth block)
    (hpath : OnPath node depth block path leaf)
    (hnodup : (child.block :: blocks ++ blocksOf node depth block).Nodup)
    (h : insertLevels node n blocks child path = some s) :
    Followed node n depth block (if child.keep then leaf else child.block) path child s ∧
      ∀ x ∈ s.path.map PathLevel.block,
        x ∈ path.map PathLevel.block ∨ x ∈ blocks ∧ x ∉ s.blocks := by
  induction hpath generalizing s with
  | leaf block =>
      obtain rfl := Option.some.inj h
      have hne : child.block ≠ block := by
        rintro rfl
        exact (List.nodup_append.mp hnodup).2.2 _ List.mem_cons_self _ List.mem_cons_self rfl
      refine ⟨⟨by simp, fun hc => (by cases hc), fun c hc => ?_, ?_⟩, fun x hx => by cases hx⟩
      · cases hc
        refine ⟨hne, by simp, ?_⟩
        cases child.keep <;> rfl
      · refine ⟨fun _ => by simp [Settled, stray], fun _ => ?_⟩
        exact OnPath.leaf _
  | @level depth block next e path leaf hnext hentry hpath ih =>
      obtain ⟨s₀, hs₀, hlevel⟩ := insertLevels_cons h
      have he : e ∈ node block := List.mem_of_getElem? hentry
      obtain ⟨hsub, hfresh, hself⟩ := level_nodup he hnodup
      obtain ⟨used, hI⟩ := insertLevels_spec hn (hs.2.2 e he) hpath hsub hs₀
      obtain ⟨hF, hblocks⟩ := ih (hs.2.2 e he) hsub hs₀
      have hrest : ∀ x ∈ s₀.blocks, x ∈ blocks := fun x hx =>
        hI.blocks_eq ▸ List.mem_append_right _ hx
      have hfresh₀ : block ∉ s₀.blocks := fun hx => hfresh (List.mem_cons_of_mem _ (hrest block hx))
      have hnode : s₀.node block = node block := by
        refine hI.frame block (fun hx => hself (hpath.blocks_sub block hx)) fun hx => hfresh ?_
        exact List.mem_cons_of_mem _ (hI.blocks_eq ▸ List.mem_append_left _ hx)
      obtain ⟨used', hused', hframe', -⟩ := insertLevels_nodes hn hnode hs.2.1 hs.1 hnext hentry
        hfresh₀ hlevel
      -- the levels below keep their entries
      have hbelow : ∀ x ∈ s₀.path.map PathLevel.block, s.node x = s₀.node x := by
        intro x hx
        rcases hblocks x hx with hx | ⟨hx, hx'⟩
        · have hmem := hpath.blocks_sub x hx
          refine hframe' x (fun heq => hself (heq ▸ hmem)) fun hu => ?_
          exact (List.nodup_append.mp hsub).2.2 x (List.mem_cons_of_mem _
            (hrest x (hused' ▸ List.mem_append_left _ hu))) x hmem rfl
        · refine hframe' x (fun heq => hfresh (heq ▸ List.mem_cons_of_mem _ hx)) fun hu => hx' ?_
          exact hused' ▸ List.mem_append_left _ hu
      have hlower : ∀ b leaf', OnPath s.node depth b s₀.path leaf' ↔
          OnPath s₀.node depth b s₀.path leaf' := fun b leaf' =>
        ⟨fun hp => hp.congr fun x hx => (hbelow x hx).symm, fun hp => hp.congr hbelow⟩
      have hseen : ∀ x ∈ s₀.path.map PathLevel.block,
          x ∈ (⟨block, next⟩ :: path).map PathLevel.block ∨ x ∈ blocks ∧ x ∉ s.blocks := by
        intro x hx
        rcases hblocks x hx with hx | ⟨hx, hx'⟩
        · exact Or.inl (List.mem_cons_of_mem _ hx)
        · exact Or.inr ⟨hx, fun hs => hx' (hused' ▸ List.mem_append_right _ hs)⟩
      rcases hlevel with ⟨hc, rfl⟩ | ⟨c, hc, hlevel⟩
      · have hnone := hF.full.mp hc
        refine ⟨⟨?_, fun _ => rfl, fun c hc' => ?_, ?_⟩, fun x hx => ?_⟩
        · rw [List.all_cons, Bool.and_eq_true]
          exact ⟨fun _ hall => hnone hall.2, fun _ => hc⟩
        · rw [Option.mem_def, hc] at hc'
          cases hc'
        · have hstray : stray node n child.keep path = false := by
            cases path with
            | nil => rfl
            | cons a rest =>
                rw [stray, Bool.not_eq_true _ |>.mp hnone, Bool.false_and, Bool.false_and]
          have hstay := hF.stays hc
          have htop : ∀ leaf', topBlock (⟨block, next⟩ :: s₀.path) leaf' = block := fun _ => rfl
          rw [settled_cons, ← hF.valid, hstay]
          constructor
          · intro hp
            obtain ⟨-, -, e', he', hp⟩ := onPath_cons.mp hp
            rw [htop, hnode, hentry] at he'
            cases he'
            exact ⟨hstray, hp⟩
          · rintro ⟨-, hp⟩
            refine onPath_cons.mpr ⟨rfl, hnext, e, ?_, hp⟩
            rw [htop, hnode, hentry]
        · rcases List.mem_cons.mp hx with rfl | hx
          · exact Or.inl List.mem_cons_self
          · exact hseen x hx
      · obtain ⟨a, ha, hpos, ⟨e', he', heb⟩, hplace⟩ :=
          insertLevel_path hnext (hnode ▸ hentry) hfresh₀ hlevel
        have hall : path.all (fun a => n ≤ (node a.block).length) = true := by
          by_contra hno
          rw [hF.full.mpr hno] at hc
          cases hc
        have htop : ∀ leaf', topBlock s.path leaf' = a.block := by
          intro leaf'
          rw [ha]
          rfl
        have hright : inRight s₀.node ⟨block, next⟩ = inRight node ⟨block, next⟩ := by
          rw [inRight, inRight, hnode]
        rw [hright] at hplace
        dsimp only at hplace
        rw [hnode] at hplace
        refine ⟨⟨?_, fun hnone => ?_, fun c' hc' => ?_, ?_⟩, fun x hx => ?_⟩
        · rw [List.all_cons, hall, Bool.and_true, decide_eq_true_eq]
          rcases hplace with ⟨hnone, hroom, -⟩ | ⟨c', hc', hfull, -⟩
          · exact iff_of_true hnone (Nat.not_le.mpr hroom)
          · rw [hc']
            exact iff_of_false (fun hno => nomatch hno) (not_not_intro hfull)
        · rw [htop]
          rcases hplace with ⟨-, -, hab⟩ | ⟨c', hc', -⟩
          · exact hab
          · rw [hnone] at hc'
            cases hc'
        · rcases hplace with ⟨hnone, -⟩ | ⟨c'', hc'', -, hne, -, hkeep, hab⟩
          · rw [Option.mem_def, hnone] at hc'
            cases hc'
          · rw [Option.mem_def, hc''] at hc'
            cases hc'
            refine ⟨hne, ?_, (htop _).trans hab⟩
            rw [hkeep, (hF.moves c hc).2.1, List.any_cons]
            cases child.keep <;> simp [Bool.or_comm]
        · rw [htop, ha, settled_cons, hF.stray_iff hc, ← hF.valid, ← heb, ← onPath_iff, ← hlower]
          constructor
          · intro hp
            obtain ⟨-, -, x, hx, hp⟩ := onPath_cons.mp hp
            rw [he'] at hx
            cases hx
            exact hp
          · intro hp
            exact onPath_cons.mpr ⟨rfl, hpos, e', he', hp⟩
        · rw [ha, List.map_cons, List.mem_cons] at hx
          rcases hx with rfl | hx
          · rcases hplace with ⟨-, -, hab⟩ | ⟨c', -, -, -, hbl, -, hab⟩
            · exact Or.inl (hab ▸ List.mem_cons_self)
            · rw [hab]
              split
              · refine Or.inr ⟨hrest _ (hbl ▸ List.mem_cons_self), ?_⟩
                have hnd := (List.nodup_cons.mp (List.nodup_append.mp hsub).1).2
                rw [hI.blocks_eq, hbl] at hnd
                exact (List.nodup_cons.mp (List.nodup_append.mp hnd).2.1).1
              · exact Or.inl List.mem_cons_self
          · exact hseen x hx

end

section
variable {t t' : Tree} {n q k leafbuf : ℕ} {blocks : List ℕ} {cursor cursor' : Cursor} {keep : Bool}

/-! ## The cursor -/

/-- The cursor that `insert_leaf` leaves is a path exactly when no level was stray. -/
theorem insertLeaf_path (hn : 2 ≤ n) (hw : t.WellFormed n)
    (hpath : OnPath t.node t.depth t.root cursor.path cursor.leaf)
    (hfresh : (leafbuf :: blocks ++ blocksOf t.node t.depth t.root).Nodup)
    (h : insertLeaf t n blocks cursor k leafbuf keep = some (t', cursor')) :
    cursor'.leaf = (if keep then cursor.leaf else leafbuf) ∧
      (OnPath t'.node t'.depth t'.root cursor'.path cursor'.leaf ↔
        Settled t.node n keep cursor.path) := by
  obtain ⟨s, hs, hcase⟩ := insertLeaf_cases h
  obtain ⟨hF, hblocks⟩ := insertLevels_path hn hw.sized hpath (by exact hfresh) hs
  dsimp only at hF
  rcases hcase with ⟨hc, rfl, rfl⟩ | ⟨c, newroot, rest, hc, hrest, rfl, rfl⟩
  · refine ⟨rfl, ?_⟩
    have hvalid := hF.valid
    rw [hF.stays hc] at hvalid
    exact hvalid
  · refine ⟨rfl, ?_⟩
    obtain ⟨hne, -, htop⟩ := hF.moves c hc
    have hroot : newroot ∈ s.blocks := hrest ▸ List.mem_cons_self
    obtain ⟨used, hI⟩ := insertLevels_spec hn hw.sized hpath (by exact hfresh) hs
    have hapart : ∀ x ∈ s.path.map PathLevel.block, x ≠ newroot := by
      rintro x hx rfl
      rcases hblocks x hx with hx | ⟨-, hx⟩
      · exact (List.nodup_append.mp hfresh).2.2 x (List.mem_cons_of_mem _
          (hI.blocks_eq ▸ List.mem_append_right _ hroot)) x (hpath.blocks_sub x hx) rfl
      · exact hx hroot
    have hsame : ∀ x ∈ s.path.map PathLevel.block,
        Function.update s.node newroot [⟨0, t.root⟩, ⟨c.key, c.block⟩] x = s.node x :=
      fun x hx => Function.update_of_ne (hapart x hx) _ _
    rw [← hF.valid, onPath_cons]
    dsimp only
    rw [Function.update_self]
    set leaf := if keep then cursor.leaf else leafbuf with hleaf
    have hentry : ∃ e, [⟨0, t.root⟩, (⟨c.key, c.block⟩ : IndexEntry)][
        (if topBlock s.path leaf ≠ c.block then 1 else 2) - 1]? = some e ∧
        e.block = topBlock s.path leaf := by
      by_cases heq : topBlock s.path leaf = c.block
      · exact ⟨⟨c.key, c.block⟩, by rw [if_neg (not_not_intro heq)]; rfl, heq.symm⟩
      · refine ⟨⟨0, t.root⟩, by rw [if_pos heq]; rfl, ?_⟩
        rw [htop] at heq ⊢
        split at heq
        · exact absurd rfl heq
        · next hr => rw [if_neg hr]
    obtain ⟨e, he, heb⟩ := hentry
    constructor
    · rintro ⟨-, -, x, hx, hp⟩
      rw [he] at hx
      cases hx
      exact heb ▸ hp.congr fun x hx => (hsame x hx).symm
    · intro hp
      exact ⟨rfl, by split <;> omega, e, he, heb.symm ▸ hp.congr hsame⟩

theorem reached_self (hw : t.WellFormed n)
    (hpath : OnPath t.node t.depth t.root cursor.path cursor.leaf) {x : ℕ}
    (hlow : lowKey t.node cursor.path 0 ≤ x)
    (hafter : ∀ y ∈ after t.node t.depth cursor.path, x < y.1) : t.reached x = some cursor.leaf := by
  rw [Tree.reached, probe_path hw.sized hpath hw.sorted hlow hafter]
  rfl

/-- A probe finds the cursor that `insert_leaf` leaves exactly when no level was stray. -/
theorem insertLeaf_cursor (hn : 2 ≤ n) (hw : t.WellFormed n)
    (hcursor : probeFrom t.node t.depth t.root q = some cursor)
    (hfresh : (leafbuf :: blocks ++ blocksOf t.node t.depth t.root).Nodup)
    (hlow : lowKey t.node cursor.path 0 < k) (hnext : k < nextKey t.node cursor.path)
    (h : insertLeaf t n blocks cursor k leafbuf keep = some (t', cursor')) :
    (cursor'.leaf = (if keep then cursor.leaf else leafbuf) ∧
      OnPath t'.node t'.depth t'.root cursor'.path cursor'.leaf ∧
      ∀ x, (if keep then lowKey t.node cursor.path 0 ≤ x ∧ x < k
          else k ≤ x ∧ ∀ u ∈ nextKeyp t.node cursor.path, x < u) →
        probeFrom t'.node t'.depth t'.root x = some cursor') ↔
      Settled t.node n keep cursor.path := by
  obtain ⟨c, hc, hpath, -, -⟩ := probe_spec hw.sized hw.sorted (Nat.zero_le q)
  obtain rfl := Option.some.inj (hc.symm.trans hcursor)
  obtain ⟨hleaf, hvalid⟩ := insertLeaf_path hn hw hpath hfresh h
  obtain ⟨hw', -, hreached⟩ := insertLeaf_after hn hw hcursor hfresh hlow (lt_nextKeyp hnext) h
  refine ⟨fun hp => hvalid.mp hp.2.1, fun hsettled => ⟨hleaf, hvalid.mpr hsettled, fun x hx => ?_⟩⟩
  have hpath' := hvalid.mpr hsettled
  have hto : t'.reached x = some cursor'.leaf := by
    rw [hreached, hleaf]
    cases keep with
    | false =>
        rw [if_neg Bool.false_ne_true] at hx ⊢
        rw [if_pos hx]
    | true =>
        rw [if_neg (fun hr => Nat.not_lt.mpr hr.1 hx.2), if_pos rfl]
        refine reached_self hw hpath hx.1 fun y hy => ?_
        exact Nat.lt_trans hx.2 (lt_after hw hpath (lt_nextKeyp hnext) y hy)
  obtain ⟨c', hc', hpath'', -, -⟩ := probe_spec hw'.sized hw'.sorted (Nat.zero_le x)
  rw [Tree.reached, hc'] at hto
  have heq : c'.leaf = cursor'.leaf := Option.some.inj hto
  rw [hc']
  congr 1
  rw [heq] at hpath''
  have hp := hpath''.unique hw'.nodup hpath'
  cases c'
  cases cursor'
  simp_all

theorem insertLeaf_cursor_root :
    ∃ t' c, insertLeaf ⟨fun b => if b = 1 then [⟨0, 10⟩, ⟨5, 11⟩] else [], 1, 1⟩ 2 [2, 3]
        ⟨[⟨1, 2⟩], 11⟩ 7 12 true = some (t', c) ∧ OnPath t'.node t'.depth t'.root c.path c.leaf ∧
      probeFrom t'.node t'.depth t'.root 6 = some c := by
  refine ⟨_, _, rfl, ?_⟩
  have h := insertLeaf_cursor (t := ⟨fun b => if b = 1 then [⟨0, 10⟩, ⟨5, 11⟩] else [], 1, 1⟩)
    (q := 5) (by decide) ⟨by simp [Sized], by decide, by decide⟩ (by decide) (by decide) (by decide)
    (by decide) (rfl : insertLeaf _ 2 [2, 3] ⟨[⟨1, 2⟩], 11⟩ 7 12 true = some _)
  obtain ⟨-, hpath, hprobe⟩ := h.mpr (by decide)
  exact ⟨hpath, hprobe 6 (by decide)⟩

/-- The leaf of key 5 keeps its place in the right half of a full node below the root; the cursor
goes to the new node and the root does not follow. -/
theorem insertLeaf_cursor_lost :
    ∃ (t : Tree) (cursor : Cursor), t.WellFormed 3 ∧
      probeFrom t.node t.depth t.root 5 = some cursor ∧
      (20 :: [21, 22] ++ blocksOf t.node t.depth t.root).Nodup ∧
      lowKey t.node cursor.path 0 < 6 ∧ 6 < nextKey t.node cursor.path ∧
      ∃ t' cursor', insertLeaf t 3 [21, 22] cursor 6 20 true = some (t', cursor') ∧
        ¬ OnPath t'.node t'.depth t'.root cursor'.path cursor'.leaf ∧
        probeFrom t'.node t'.depth t'.root 5 ≠ some cursor' := by
  refine ⟨⟨fun b => if b = 1 then [⟨0, 2⟩, ⟨30, 3⟩] else
      if b = 2 then [⟨0, 10⟩, ⟨5, 11⟩, ⟨8, 12⟩] else if b = 3 then [⟨30, 13⟩] else [], 1, 2⟩,
    ⟨[⟨1, 1⟩, ⟨2, 2⟩], 11⟩, ⟨by simp [Sized], by decide, by decide⟩, by decide, by decide, by decide,
    by decide, _, _, rfl, fun h => ?_, by decide⟩
  obtain ⟨-, -, e, he, h⟩ := onPath_cons.mp h
  obtain rfl : ⟨0, 2⟩ = e := Option.some.inj he
  obtain ⟨hb, -⟩ := onPath_cons.mp h
  exact absurd hb (by decide)

end

end Tux3.Btree
