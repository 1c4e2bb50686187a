import Tux3.VersionRuns

/-!
# The indexes of the version tree

`extract_children` builds the children array anew from the parents. The edits keep it up to date in
place: each list of children stays in ascending order, so building it again changes nothing.
-/
namespace Tux3.Version

open Rooted

/-! ## Building the index -/

section
variable (sb : Sb)

/-- The first `n` entries of an array are set. -/
def vecset (vec : ℕ → ℕ) (x n : ℕ) : ℕ → ℕ := fun i => if i < n then x else vec i

/-- The loop over the table from entry 1. -/
def Sb.slots : List ℕ := List.range' 1 (sb.versionCount - 1)

/-- The first pass: the children of every parent are counted. -/
def countStep (count : ℕ → ℕ) (i : ℕ) : ℕ → ℕ :=
  if (sb.table i).used then
    Function.update count (getParent sb i) (count (getParent sb i) + 1)
  else count

/-- The second pass: the index and the total so far. -/
def indexStep (count : ℕ → ℕ) (s : (ℕ → ℕ) × ℕ) (i : ℕ) : (ℕ → ℕ) × ℕ :=
  (Function.update s.1 i s.2, s.2 + count i)

/-- The third pass: the counts so far and the children. -/
def fillStep (index : ℕ → ℕ) (s : (ℕ → ℕ) × (ℕ → ℕ)) (i : ℕ) : (ℕ → ℕ) × (ℕ → ℕ) :=
  if (sb.table i).used then
    let parent := getParent sb i
    (Function.update s.1 parent (s.1 parent + 1),
      Function.update s.2 (index parent + s.1 parent) i)
  else s

def extractChildren : Sb :=
  let count := sb.slots.foldl (countStep sb) (vecset sb.childCount 0 sb.versionCount)
  let index := ((List.range sb.versionCount).foldl (indexStep count) (sb.childIndex, 0)).1
  let filled := sb.slots.foldl (fillStep sb index)
    (vecset count 0 sb.versionCount, sb.children)
  { sb with
    childIndex := index
    childCount := filled.1
    children := filled.2 }

end

/-- Children stand in ascending order, and the origin has no bitmap of neighbours. -/
structure Arranged (sb : Sb) : Prop where
  sorted : ∀ v, (sb.kids v).Pairwise (· < ·)
  unmarked : (sb.table 0).nearmap = false

/-- What building the indexes anew would give. -/
structure Indexed (sb : Sb) : Prop where
  extracted : extractChildren sb = sb
  order : ∀ v, sb.mem v → v ≠ 0 →
    (getParent sb)^[sb.ordmap v] v = 0 ∧ ∀ n < sb.ordmap v, (getParent sb)^[n] v ≠ 0
  path : ∀ v, sb.mem v → (sb.table v).pathmap = true →
    ∀ u, sb.pathmap v u = true ↔ u ≠ 0 ∧ Below 0 (getParent sb) u v
  near : ∀ v, sb.mem v → (sb.table v).nearmap = true →
    ∀ u, sb.nearmap v u = true ↔ u = v ∨ sb.mem u ∧ u ≠ 0 ∧ getParent sb u = v

section
variable {sb sb' : Sb} {v : ℕ}

/-- The children of a version as the passes find them. -/
def childrenIn (sb : Sb) (l : List ℕ) (v : ℕ) : List ℕ :=
  l.filter fun i => (sb.table i).used && getParent sb i == v

theorem childrenIn_append {l l' : List ℕ} :
    childrenIn sb (l ++ l') v = childrenIn sb l v ++ childrenIn sb l' v :=
  List.filter_append _ _

theorem mem_slots : v ∈ sb.slots ↔ v ≠ 0 ∧ v < sb.versionCount := by
  rw [Sb.slots, List.mem_range'_1]
  omega

theorem Tidy.kids_eq (h : Tidy sb) (ha : Arranged sb) (v : ℕ) :
    sb.kids v = childrenIn sb sb.slots v := by
  refine (ha.sorted v).eq_of_mem_iff ?_ fun c => ?_
  · exact List.Pairwise.filter _ List.pairwise_lt_range'
  · rw [h.shape.kids.mem_iff, childrenIn, List.mem_filter, mem_slots, Bool.and_eq_true, beq_iff_eq,
      Sb.mem]
    tauto

theorem foldl_countStep (l : List ℕ) (count : ℕ → ℕ) :
    l.foldl (countStep sb) count = fun v => count v + (childrenIn sb l v).length := by
  induction l generalizing count with
  | nil => rfl
  | cons i l ih =>
      rw [List.foldl_cons, ih]
      funext v
      rw [countStep, childrenIn, childrenIn, List.filter_cons]
      by_cases hu : (sb.table i).used = true
      · rw [if_pos hu, Function.update_apply]
        by_cases hv : getParent sb i = v
        · rw [if_pos hv.symm, if_pos (by rw [hu, hv, beq_self_eq_true]; rfl), hv, List.length_cons]
          omega
        · rw [if_neg (Ne.symm hv), if_neg (by simp [hv])]
      · rw [if_neg hu, if_neg (by simp [hu])]

theorem Packed.foldl_indexStep (h : Packed sb) (k : ℕ) (hk : k ≤ sb.versionCount) :
    ∃ total, (List.range k).foldl (indexStep sb.childCount) (sb.childIndex, 0) =
      (sb.childIndex, total) ∧ (k < sb.versionCount → total = sb.childIndex k) := by
  induction k with
  | zero => exact ⟨0, rfl, fun _ => h.zero.symm⟩
  | succ k ih =>
      obtain ⟨total, hfold, htotal⟩ := ih (Nat.le_of_succ_le hk)
      obtain rfl := htotal hk
      refine ⟨_, ?_, fun hlt => (h.next k hlt).symm⟩
      rw [List.range_succ, List.foldl_append, hfold, List.foldl_cons, List.foldl_nil, indexStep,
        Function.update_eq_self]

/-- Each child is already where the third pass puts it. -/
theorem foldl_fillStep (hkids : ∀ v, sb.kids v = childrenIn sb sb.slots v)
    {seen rest : List ℕ} (hslots : sb.slots = seen ++ rest) (base : ℕ → ℕ)
    (hbase : ∀ i ∈ rest, (sb.table i).used = true → base (getParent sb i) = 0) :
    rest.foldl (fillStep sb sb.childIndex)
        (fun v => base v + (childrenIn sb seen v).length, sb.children) =
      (fun v => base v + (childrenIn sb sb.slots v).length, sb.children) := by
  induction rest generalizing seen with
  | nil => rw [hslots, List.append_nil, List.foldl_nil]
  | cons i rest ih =>
      have hslots' : sb.slots = (seen ++ [i]) ++ rest := by
        rw [hslots, List.append_assoc, List.singleton_append]
      rw [← ih hslots' fun j hj => hbase j (List.mem_cons_of_mem i hj), List.foldl_cons]
      congr 1
      rw [fillStep]
      by_cases hu : (sb.table i).used = true
      · rw [if_pos hu]
        have hone : ∀ v, childrenIn sb [i] v = if v = getParent sb i then [i] else [] := by
          intro v
          rw [childrenIn, List.filter_cons, List.filter_nil, hu, Bool.true_and]
          exact if_congr (by rw [beq_iff_eq, eq_comm]) rfl rfl
        refine Prod.ext (funext fun v => ?_) ?_
        · dsimp only
          rw [Function.update_apply, childrenIn_append, hone]
          by_cases hv : v = getParent sb i
          · rw [if_pos hv, if_pos hv, hv, List.length_append]
            rfl
          · rw [if_neg hv, if_neg hv, List.append_nil]
        · dsimp only
          rw [hbase i List.mem_cons_self hu, Nat.zero_add]
          refine Function.update_eq_self_iff.mpr ?_
          have hat := hkids (getParent sb i)
          rw [hslots', childrenIn_append, childrenIn_append, hone, if_pos rfl,
            List.append_assoc] at hat
          have hi : (sb.kids (getParent sb i))[(childrenIn sb seen (getParent sb i)).length]? =
              some i := by
            rw [hat, List.getElem?_append_right (Nat.le_refl _), Nat.sub_self]
            rfl
          obtain ⟨hlt, hget⟩ := List.getElem?_eq_some_iff.mp hi
          rw [kids_getElem hlt] at hget
          exact hget.symm
      · rw [if_neg hu]
        refine Prod.ext (funext fun v => ?_) rfl
        have hnone : childrenIn sb [i] v = [] := by
          rw [childrenIn, List.filter_cons, List.filter_nil, if_neg (by simp [hu])]
        dsimp only
        rw [childrenIn_append, hnone, List.append_nil]

/-- The indexes are what building them anew gives. -/
theorem Tidy.extractChildren_eq (h : Tidy sb) (ha : Arranged sb) : extractChildren sb = sb := by
  have hkids := h.kids_eq ha
  have hlength : ∀ v, (childrenIn sb sb.slots v).length = sb.childCount v := fun v => by
    rw [← hkids, kids_length]
  have hcounts : (fun v => vecset sb.childCount 0 sb.versionCount v +
      (childrenIn sb sb.slots v).length) = sb.childCount := by
    funext v
    rw [hlength, vecset]
    split
    · exact Nat.zero_add _
    · next hv => rw [h.shape.packed.beyond v (Nat.not_lt.mp hv)]
  obtain ⟨total, hindex, -⟩ := h.shape.packed.foldl_indexStep _ (Nat.le_refl _)
  have hfill := @foldl_fillStep sb hkids [] sb.slots rfl (vecset sb.childCount 0 sb.versionCount)
    fun i hi hu => by
      obtain ⟨hi0, hlt⟩ := mem_slots.mp hi
      exact if_pos (h.shape.tree.up i ⟨hlt, hu⟩ hi0).1.1
  rw [hcounts] at hfill
  rw [extractChildren, foldl_countStep, hcounts, hindex]
  dsimp only
  rw [show (vecset sb.childCount 0 sb.versionCount) = fun v =>
    vecset sb.childCount 0 sb.versionCount v + (childrenIn sb [] v).length from rfl, hfill]

/-! ## The edits -/

section
variable {mem : ℕ → Prop} {depth : ℕ → ℕ} {p c r d fuel data tag : ℕ}

theorem Arranged.congr (ha : Arranged sb) (hkids : sb'.kids = sb.kids)
    (hflag : (sb'.table 0).nearmap = true → (sb.table 0).nearmap = true) : Arranged sb' := by
  refine ⟨fun v => hkids ▸ ha.sorted v, ?_⟩
  by_contra hmark
  have hset := hflag (Bool.eq_true_of_not_eq_false hmark)
  rw [ha.unmarked] at hset
  cases hset

theorem Arranged.entry (ha : Arranged sb) (hv0 : v ≠ 0) {entry : Entry}
    (hkids : sb'.kids = sb.kids) (htable : sb'.table = Function.update sb.table v entry) :
    Arranged sb' := by
  refine ha.congr hkids fun hflag => ?_
  rwa [htable, Function.update_of_ne hv0.symm] at hflag

theorem Arranged.attach (ha : Arranged sb) (h : Shape sb mem depth) (hp : p < sb.versionCount)
    (hc : c ∉ sb.kids p) : Arranged (attach sb p c) := by
  obtain ⟨-, hkids, hrest⟩ := attach_kids h hp c
  refine ⟨fun v => ?_, ?_⟩
  · by_cases hv : v = p
    · rw [hv, hkids]
      exact insert_sorted (ha.sorted p) hc
    · rw [hrest v hv]
      exact ha.sorted v
  · rw [attach_table]
    dsimp only
    split
    · rfl
    · exact ha.unmarked

theorem Arranged.orderTree (ha : Arranged sb) (hrun : orderTree sb r d = some sb') :
    Arranged sb' := by
  obtain ⟨ordmap, -, heq⟩ := Option.bind_eq_some_iff.mp hrun
  cases heq
  exact ha.congr rfl id

theorem Arranged.insertChild (ha : Arranged sb) (h : Shape sb mem depth)
    (hp : p < sb.versionCount) (hc : c ∉ sb.kids p) (hrun : insertChild sb p c = some sb') :
    Arranged sb' := by
  rw [insertChild_eq] at hrun
  obtain ⟨r, -, hrun⟩ := Option.bind_eq_some_iff.mp hrun
  exact (ha.attach h hp hc).orderTree hrun

theorem foldlM_keep {σ α : Type} {P : σ → Prop} {f : σ → α → Option σ} {l : List α}
    (hf : ∀ s x s', f s x = some s' → P s → P s') {s s' : σ} (hrun : l.foldlM f s = some s')
    (hs : P s) : P s' := by
  induction l generalizing s with
  | nil =>
      cases hrun
      exact hs
  | cons x l ih =>
      rw [List.foldlM_cons] at hrun
      obtain ⟨s₁, hx, hrun⟩ := Option.bind_eq_some_iff.mp hrun
      exact ih hrun (hf s x s₁ hx hs)

theorem invalidateFrom_nearmap {table table' : ℕ → Entry}
    (hrun : invalidateFrom sb fuel v table = some table') (u : ℕ) :
    (table' u).nearmap = (table u).nearmap := by
  induction fuel generalizing v table table' with
  | zero => cases hrun
  | succ fuel ih =>
      rw [invalidateFrom] at hrun
      split at hrun
      · refine foldlM_keep (P := fun t => (t u).nearmap = (table u).nearmap)
          (fun s x s' hx hs => (ih hx).trans hs) hrun ?_
        by_cases hu : u = v
        · rw [hu, Function.update_self]
        · rw [Function.update_of_ne hu]
      · cases hrun

theorem Arranged.invalidatePath (ha : Arranged sb) (hrun : invalidatePath sb v = some sb') :
    Arranged sb' := by
  obtain ⟨table, hfrom, heq⟩ := Option.bind_eq_some_iff.mp hrun
  cases heq
  exact ha.congr rfl fun hflag => invalidateFrom_nearmap hfrom 0 ▸ hflag

theorem Arranged.detach (ha : Arranged sb) (h : Shape sb mem depth) (hc : mem c) (hc0 : c ≠ 0) :
    Arranged (detach sb c) := by
  obtain ⟨-, hkids, hrest⟩ := detach_kids h hc hc0
  refine ⟨fun v => ?_, ?_⟩
  · by_cases hv : v = getParent sb c
    · rw [hv, hkids]
      exact (ha.sorted _).sublist List.erase_sublist
    · rw [hrest v hv]
      exact ha.sorted v
  · rw [detach_table]
    dsimp only
    split
    · rfl
    · exact ha.unmarked

theorem Arranged.promoteChild (ha : Arranged sb) (h : Shape sb mem depth) (hp : mem p)
    (hp0 : p ≠ 0) (honly : sb.kids p = [c]) (hrun : promoteChild sb c = some sb') :
    Arranged sb' := by
  obtain ⟨hc, hc0, hcp, -⟩ := h.kid (show c ∈ sb.kids p by rw [honly]; exact List.mem_cons_self)
  have hne : c ≠ p := fun heq => h.tree.parent_ne hc hc0 (hcp.trans heq.symm)
  have hgp := h.tree.parent_ne hp hp0
  have hgm := (h.tree.up p hp hp0).1
  have hone : sb.childCount p = 1 := by rw [← kids_length, honly]; rfl
  have ha₁ := ha.detach h hc hc0
  obtain ⟨hpacked₁, -, hrest₁⟩ := detach_kids h hc hc0
  rw [hcp] at hrest₁
  have hp₁ : getParent (Version.detach sb c) p = getParent sb p := congrFun detach_parent p
  obtain ⟨sb₂, hreplace, -, -, htable, hkids, hrest⟩ :=
    @replaceChild_spec (Version.detach sb c) p c hpacked₁
      (by rw [hp₁, hrest₁ _ hgp]; exact (h.kids.mem_iff _ _).mpr ⟨hp, hp0, rfl⟩)
      (by rw [hp₁]; exact (h.live _ hgm).1) (by rw [detach_table]; exact (h.live p hp).2) hne
  rw [hp₁] at hkids hrest
  have ha₂ : Arranged sb₂ := by
    refine ⟨fun v => ?_, ?_⟩
    · by_cases hv : v = getParent sb p
      · rw [hv, hkids]
        refine insert_sorted ((ha₁.sorted _).sublist List.erase_sublist) fun hin => hgp ?_
        rw [hrest₁ _ hgp] at hin
        exact (h.kid (List.mem_of_mem_erase hin)).2.2.1.symm.trans hcp
      · rw [hrest v hv]
        exact ha₁.sorted v
    · rw [htable]
      dsimp only
      split
      · rfl
      · exact ha₁.unmarked
  have hremove := @removeChild_eq sb c (by rw [hcp, honly]; exact List.mem_cons_self)
  rw [Version.promoteChild] at hrun
  simp only [hcp, hone, if_true, hremove, hreplace, Option.bind_eq_bind, Option.bind_some,
    Option.bind_eq_some_iff] at hrun
  obtain ⟨sb₃, hinvalidate, r, -, hrun⟩ := hrun
  exact (ha₂.invalidatePath hinvalidate).orderTree hrun

theorem Arranged.insertRoot (ha : Arranged sb) (h : Shape sb mem depth) {q : ℕ} (hr : ¬ mem r)
    (hr0 : r ≠ 0) (hlt : r < sb.versionCount) (hkids : sb.kids 0 = [q])
    (hrun : insertRoot sb r = some sb') : Arranged sb' := by
  rw [Version.insertRoot] at hrun
  simp only [Option.bind_eq_bind, Option.bind_eq_some_iff] at hrun
  obtain ⟨sb₁, hinsert, sb₂, hinvalidate, r', -, hrun⟩ := hrun
  obtain ⟨hq, -, hqp, -⟩ := h.kid (show q ∈ sb.kids 0 by rw [hkids]; exact List.mem_cons_self)
  have hchild : getChild sb 0 0 = q := by
    have hone : sb.childCount 0 = 1 := by rw [← kids_length, hkids]; rfl
    have hlist : sb.kids 0 = [getChild sb 0 0] := by rw [Sb.kids, hone]; rfl
    exact List.singleton_injective (hlist.symm.trans hkids)
  rw [hchild] at hinsert
  have hnil := h.childless hr
  have ha₁ := ha.insertChild h hlt (by rw [hnil]; exact List.not_mem_nil) hinsert
  rw [insertChild_eq] at hinsert
  obtain ⟨r₁, -, hinsert⟩ := Option.bind_eq_some_iff.mp hinsert
  obtain ⟨ordmap, -, heq⟩ := Option.bind_eq_some_iff.mp hinsert
  obtain rfl := Option.some_inj.mp heq
  obtain ⟨hpacked, -, hrest⟩ := attach_kids h hlt q
  have hone : (Version.attach sb r q).childCount 0 = 1 := by
    rw [← kids_length, hrest 0 hr0.symm, hkids]
    rfl
  obtain ⟨hk₀, hk⟩ := @patch_kids { Version.attach sb r q with ordmap := ordmap }
    ⟨hpacked.zero, hpacked.next, hpacked.beyond⟩ hone r
  have ha₂ : Arranged { Version.attach sb r q with
      ordmap := ordmap
      children := Function.update (Version.attach sb r q).children 0 r } := by
    refine ⟨fun v => ?_, ha₁.unmarked⟩
    by_cases hv : v = 0
    · rw [hv]
      exact hk₀ ▸ List.pairwise_singleton _ r
    · exact hk v hv ▸ ha₁.sorted v
  exact (ha₂.invalidatePath hinvalidate).orderTree hrun

/-! ## The operations -/

theorem Taken.arranged {sb₁ : Sb} (t : Taken sb sb₁ p c tag) (ha : Arranged sb) : Arranged sb₁ :=
  ha.congr t.kids fun hflag => t.rest 0 t.ne_zero.symm ▸ hflag

theorem Taken.insert {sb₁ : Sb} (t : Taken sb sb₁ p c tag) (h : Tidy sb) (ha : Arranged sb)
    (hp : sb.mem p) (hrun : insertChild sb₁ p c = some sb') : Arranged sb' := by
  refine (t.arranged ha).insertChild t.shape ((t.slots p).mpr (Or.inr hp.1)) ?_ hrun
  rw [t.kids]
  exact fun hc => t.fresh (h.shape.kid hc).1

theorem Arranged.snapshotOfSnapshot {parentTag : ℕ} (ha : Arranged sb) (h : Tidy sb)
    (hd : sb.distinct) (hp : sb.snapshot p parentTag) (hroom : sb.snapshots.card < 128)
    (hrun : snapshotOfSnapshot sb tag parentTag = some sb') : Arranged sb' := by
  obtain ⟨c, sb₁, hnew, t⟩ := h.newVersion p tag (h.slot_new hroom)
  rw [Version.snapshotOfSnapshot, h.findTag hd hp] at hrun
  simp only [Option.bind_eq_bind, Option.bind_some, hnew] at hrun
  rw [if_neg (not_not.mpr (t.childless h))] at hrun
  simp only [Option.bind_eq_some_iff] at hrun
  obtain ⟨sb₂, hinsert, r, -, hrun⟩ := hrun
  exact (t.insert h ha hp.1 hinsert).orderTree hrun

theorem Arranged.snapshotOfOrigin (ha : Arranged sb) (h : Tidy sb)
    (hroom : sb.snapshots.card < 128) (hrun : snapshotOfOrigin sb tag = some sb') :
    Arranged sb' := by
  obtain ⟨c, sb₁, hnew, t⟩ := h.newVersion 0 tag (h.slot_new hroom)
  rw [Version.snapshotOfOrigin] at hrun
  simp only [Option.bind_eq_bind, Option.bind_some, hnew] at hrun
  by_cases hzero : sb₁.childCount 0 = 0
  · rw [if_pos hzero] at hrun
    exact t.insert h ha h.zero_mem hrun
  · rw [if_neg hzero] at hrun
    obtain ⟨q, hq⟩ : ∃ q, sb₁.kids 0 = [q] := by
      refine List.length_eq_one_iff.mp ?_
      have := t.shape.single
      rw [kids_length]
      omega
    exact (t.arranged ha).insertRoot t.shape t.fresh t.ne_zero t.lt hq hrun

theorem Arranged.setPresent (ha : Arranged sb) (flag : Bool) : Arranged (setPresent sb flag) :=
  ha.congr rfl fun hflag => by rwa [setPresent_table] at hflag

theorem Arranged.newElement {chunk : ℕ} {sb₁ : Sb} (ha : Arranged sb)
    (hnew : newChunk sb data = some (chunk, sb₁)) (hadd : addElement sb₁ v chunk = some sb') :
    Arranged sb' := by
  obtain ⟨_, -, heq⟩ := Option.bind_eq_some_iff.mp hnew
  cases heq
  rw [addElement] at hadd
  split at hadd
  · cases hadd
    exact ha.congr rfl id
  · cases hadd

theorem bind_of_ite {α β : Type} {q : Prop} [Decidable q] {x y : Option α} {f : α → Option β}
    {b : β} (h : (if q then x.bind f else y.bind f) = some b) : ∃ a, f a = some b := by
  split at h
  · exact (Option.bind_eq_some_iff.mp h).imp fun _ => And.right
  · exact (Option.bind_eq_some_iff.mp h).imp fun _ => And.right

theorem Arranged.writeLeaf (ha : Arranged sb) (hrun : writeLeaf sb v data = some sb') :
    Arranged sb' := by
  have ha₁ := (ha.setPresent true).setPresent false
  rw [Version.writeLeaf] at hrun
  obtain ⟨ancestor, -, hrun⟩ := Option.bind_eq_some_iff.mp hrun
  obtain ⟨relabel, hrun⟩ := bind_of_ite hrun
  cases relabel with
  | true =>
      simp only [if_true, Option.bind_eq_bind, Option.bind_eq_some_iff] at hrun
      obtain ⟨e, -, heq⟩ := hrun
      cases heq
      exact ha₁.congr rfl id
  | false =>
      simp only [Bool.false_eq_true, if_false, Option.bind_eq_bind,
        Option.bind_eq_some_iff] at hrun
      obtain ⟨⟨chunk, sb₁⟩, hnew, sb₂, hadd, heq⟩ := hrun
      cases heq
      exact (ha₁.newElement hnew hadd).congr rfl id

/-- `count_near` loads no bitmap for the origin. -/
theorem Arranged.countNear {near : ℕ} (ha : Arranged sb) (hv0 : v ≠ 0)
    (hrun : countNear sb v = some (near, sb')) : Arranged sb' := by
  rw [Version.countNear] at hrun
  dsimp only at hrun
  by_cases hf : (sb.table v).nearmap = true
  · simp only [if_pos hf] at hrun
    split at hrun
    · cases hrun
      exact ha
    · cases hrun
  · simp only [if_neg hf] at hrun
    split at hrun
    · cases hrun
      exact ha.entry hv0 rfl rfl
    · cases hrun

theorem Arranged.implicitVersion (ha : Arranged sb) (h : Tidy sb) (hv : sb.snapshot v tag)
    (hroom : sb.members.card < maxVersions)
    (hrun : implicitVersion sb v tag = some (c, sb')) : Arranged sb' := by
  obtain ⟨c, sb₁, hnew, t⟩ := h.newVersion v tag hroom
  rw [Version.implicitVersion, hnew] at hrun
  simp only [Option.bind_eq_bind, Option.bind_some, Option.bind_eq_some_iff] at hrun
  obtain ⟨sb₂, hinsert, heq⟩ := hrun
  cases heq
  exact (t.insert h ha hv.1 hinsert).entry hv.2.1 rfl rfl

theorem Arranged.snapshotWrite (ha : Arranged sb) (h : Tidy sb) (hd : sb.distinct)
    (hv : sb.snapshot v tag) (hroom : sb.snapshots.card ≤ 128)
    (hrun : snapshotWrite sb tag data = some sb') : Arranged sb' := by
  obtain ⟨near, table, nearmap, hcount, f, h₁, -⟩ := countNear_spec h hv.1 hv.2.1
  have ha₁ := ha.countNear hv.2.1 hcount
  rw [Version.snapshotWrite, h.findTag hd hv] at hrun
  simp only [Option.bind_eq_bind, Option.bind_some, hcount] at hrun
  split at hrun
  · obtain ⟨e, -, heq⟩ := Option.bind_eq_some_iff.mp hrun
    cases heq
    exact ha₁.congr rfl id
  · split at hrun
    · next hkids =>
        obtain ⟨⟨c, sb₂⟩, himplicit, hrun⟩ := Option.bind_eq_some_iff.mp hrun
        have hroom₁ : (sb.cached table sb.pathmap nearmap).snapshots.card ≤ 128 := by
          refine le_of_eq_of_le (congrArg Finset.card (Finset.ext fun u => ?_)) hroom
          rw [mem_snapshots, mem_snapshots, f.mem, f.ghost]
        have hv₁ : (sb.cached table sb.pathmap nearmap).snapshot v tag := f.snapshot ▸ hv
        have hslot := h₁.slot_implicit hroom₁
          (mem_snapshots.mpr ⟨hv₁.1, hv₁.2.1, hv₁.2.2.1⟩) hkids
        exact (ha₁.implicitVersion h₁ hv₁ hslot himplicit).writeLeaf hrun
    · exact ha₁.writeLeaf hrun

theorem Deleted.arranged {target parent : ℕ} (d : Deleted sb mem target parent sb')
    (ha : Arranged sb) : Arranged sb' := by
  obtain ⟨htable, -, -, -, -, hkids⟩ := d.frame
  exact ha.congr hkids fun hflag => htable ▸ hflag

theorem Arranged.condemn (ha : Arranged sb) : Arranged (condemn sb v) := by
  refine ha.congr rfl fun hflag => ?_
  rwa [Version.condemn, hide_table] at hflag

theorem Arranged.leave (ha : Arranged sb) (h : Shape sb mem depth) (hv : mem v) (hv0 : v ≠ 0) :
    Arranged (leave sb v) :=
  (ha.detach h hv hv0).entry hv0 rfl rfl

theorem Arranged.freeVersion (ha : Arranged sb) (hv0 : v ≠ 0)
    (hrun : freeVersion sb v = some sb') : Arranged sb' := by
  rw [Version.freeVersion] at hrun
  split at hrun
  · cases hrun
    exact ha.entry hv0 rfl rfl
  · cases hrun

theorem Deletable.run {target parent : ℕ} {promote : Bool} (h : Deletable sb mem target parent)
    (hrun : deleteElements sb target parent = some (promote, sb')) :
    promote = decide (parent ≠ 0 ∧ isGhost sb parent = true ∧ sb.childCount parent = 1) ∧
      Deleted sb mem target parent sb' := by
  obtain ⟨sb₁, hspec, d⟩ := deleteElements_spec h
  obtain ⟨rfl, rfl⟩ := Prod.mk.inj (Option.some_inj.mp (hspec.symm.trans hrun))
  exact ⟨rfl, d⟩

/-- The step of `snapshot_delete` that replaces a ghost parent by its last child. -/
theorem Arranged.delete_leaves {promote : Bool} {sb₁ sb₂ : Sb} (ha : Arranged sb) (h : Tidy sb)
    (hv : sb.mem v) (hv0 : v ≠ 0) (hleaf : sb.kids v = [])
    (hrun : Version.deleteElements (Version.leave (Version.condemn sb v) v) v (getParent sb v) =
      some (promote, sb₁))
    (hpromote : (if promote then Version.promoteChild sb₁ (getChild sb₁ (getParent sb v) 0)
      else some sb₁) = some sb₂) : Arranged sb₂ := by
  have hd := leave_deletable h hv hv0 hleaf
  obtain ⟨rfl, d⟩ := hd.run hrun
  have ha₁ := d.arranged (ha.condemn.leave (condemn_deletable h hv hv0).shape hv hv0)
  obtain ⟨-, -, -, -, hcounts, -⟩ := d.frame
  split at hpromote
  · next hcond =>
      obtain ⟨hp0, -, hone⟩ := of_decide_eq_true hcond
      refine ha₁.promoteChild (d.settled hd h.order).shape hd.parent_mem hp0 ?_ hpromote
      rw [Sb.kids, hcounts, hone]
      rfl
  · cases hpromote
    exact ha₁

theorem Arranged.delete_replaced {promote : Bool} {sb₁ : Sb} (ha : Arranged sb) (h : Tidy sb)
    (hv : sb.mem v) (hv0 : v ≠ 0) (hone : sb.childCount v = 1)
    (hrun : Version.deleteElements (Version.condemn sb v) v (getParent sb v) = some (promote, sb₁))
    (hpromote : Version.promoteChild sb₁ (getChild sb₁ v 0) = some sb') : Arranged sb' := by
  have hd := condemn_deletable h hv hv0
  obtain ⟨-, d⟩ := hd.run hrun
  obtain ⟨-, -, -, -, hcounts, -⟩ := d.frame
  refine (d.arranged ha.condemn).promoteChild (d.settled hd h.order).shape hv hv0 ?_ hpromote
  rw [Sb.kids, hcounts, show (Version.condemn sb v).childCount v = 1 from hone]
  rfl

theorem Arranged.snapshotDelete (ha : Arranged sb) (h : Tidy sb) (hd : sb.distinct)
    (hv : sb.snapshot v tag) (hrun : snapshotDelete sb tag = some sb') : Arranged sb' := by
  have hparent : getParent (Version.condemn sb v) v = getParent sb v := congrFun hide_parent v
  have hcondemn := condemn_deletable h hv.1 hv.2.1
  rw [Version.snapshotDelete, h.findTag hd hv] at hrun
  simp only [Option.bind_eq_bind, Option.bind_some] at hrun
  split at hrun
  · next hcount =>
      have hleaf : sb.kids v = [] := List.length_eq_zero_iff.mp ((kids_length sb v).trans hcount)
      have hremove : Version.removeChild (Version.condemn sb v) v =
          some (Version.detach (Version.condemn sb v) v) :=
        removeChild_eq ((hcondemn.shape.kids.mem_iff _ _).mpr ⟨hv.1, hv.2.1, rfl⟩)
      change ((Version.removeChild (Version.condemn sb v) v).bind _) = _ at hrun
      rw [hremove, Option.bind_some] at hrun
      change ((Version.deleteElements (Version.leave (Version.condemn sb v) v) v
        (getParent (Version.condemn sb v) v)).bind _) = _ at hrun
      rw [hparent] at hrun
      obtain ⟨⟨promote, sb₁⟩, hdelete, hrun⟩ := Option.bind_eq_some_iff.mp hrun
      obtain ⟨sb₂, hpromote, hrun⟩ : ∃ sb₂, (if promote then
          Version.promoteChild sb₁ (getChild sb₁ (getParent sb v) 0) else some sb₁) = some sb₂ ∧
          Version.freeVersion sb₂ v = some sb' := by
        cases promote with
        | true =>
            change ((Version.promoteChild sb₁ (getChild sb₁
              (getParent (Version.condemn sb v) v) 0)).bind _) = _ at hrun
            rw [hparent] at hrun
            exact Option.bind_eq_some_iff.mp hrun
        | false => exact ⟨sb₁, rfl, hrun⟩
      exact (ha.delete_leaves h hv.1 hv.2.1 hleaf hdelete hpromote).freeVersion hv.2.1 hrun
  · next hcount =>
      change ((Version.deleteElements (Version.condemn sb v) v
        (getParent (Version.condemn sb v) v)).bind _) = _ at hrun
      rw [hparent] at hrun
      obtain ⟨⟨promote, sb₁⟩, hdelete, hrun⟩ := Option.bind_eq_some_iff.mp hrun
      exact ha.delete_replaced h hv.1 hv.2.1 hcount hdelete hrun
  · change ((Version.deleteElements (Version.condemn sb v) v
      (getParent (Version.condemn sb v) v)).bind _) = _ at hrun
    rw [hparent] at hrun
    obtain ⟨⟨promote, sb₁⟩, hdelete, hrun⟩ := Option.bind_eq_some_iff.mp hrun
    cases hrun
    exact (hcondemn.run hdelete).2.arranged ha.condemn

theorem Arranged.snapshotRead {x : ℕ} (ha : Arranged sb)
    (hrun : snapshotRead sb tag = some (x, sb')) : Arranged sb' := by
  rw [Version.snapshotRead] at hrun
  simp only [Option.bind_eq_bind, Option.bind_eq_some_iff] at hrun
  obtain ⟨v, -, ⟨found, sb₁⟩, hlookup, heq⟩ := hrun
  cases heq
  obtain ⟨sb₂, hneed, heq⟩ := Option.bind_eq_some_iff.mp hlookup
  cases heq
  rw [needPath] at hneed
  split at hneed
  · cases hneed
    exact ha
  · obtain ⟨map, -, heq⟩ := Option.bind_eq_some_iff.mp hneed
    cases heq
    refine ha.congr rfl fun hflag => ?_
    change (Function.update sb.table v { sb.table v with pathmap := true } 0).nearmap =
      true at hflag
    by_cases hv : 0 = v
    · rw [← hv, Function.update_self] at hflag
      exact hflag
    · rwa [Function.update_of_ne hv] at hflag

theorem Arranged.originWrite (ha : Arranged sb) (hrun : originWrite sb data = some sb') :
    Arranged sb' := by
  rw [Version.originWrite] at hrun
  simp only [Option.bind_eq_bind, Option.bind_eq_some_iff] at hrun
  obtain ⟨⟨heirs, sb₁⟩, hinherited, hrun⟩ := hrun
  obtain ⟨n, -, heq⟩ := Option.bind_eq_some_iff.mp hinherited
  cases heq
  have ha₁ := (ha.setPresent true).setPresent false
  split at hrun
  · simp only [Option.bind_eq_some_iff] at hrun
    obtain ⟨root, -, ⟨chunk, sb₂⟩, hnew, sb₃, hadd, heq⟩ := hrun
    cases heq
    exact (ha₁.newElement hnew hadd).congr rfl id
  · cases hrun
    exact ha₁.congr rfl id

theorem Arranged.apply {m : Copies} {op : Op} (ha : Arranged sb) (r : Refines sb m)
    (h : op.Allowed m) (hrun : op.apply sb = some sb') : Arranged sb' := by
  cases op with
  | ofOrigin tag => exact ha.snapshotOfOrigin r.tidy (r.card_le.trans_lt h.2) hrun
  | ofSnapshot tag parentTag =>
      obtain ⟨-, hp, hcard⟩ := h
      obtain ⟨p, hp⟩ := r.mem_live.mp hp
      exact ha.snapshotOfSnapshot r.tidy r.distinct hp (r.card_le.trans_lt hcard) hrun
  | delete tag =>
      obtain ⟨v, hv⟩ := r.mem_live.mp h
      exact ha.snapshotDelete r.tidy r.distinct hv hrun
  | write tag data =>
      obtain ⟨v, hv⟩ := r.mem_live.mp h
      exact ha.snapshotWrite r.tidy r.distinct hv (r.card_le.trans r.bound) hrun
  | writeOrigin data => exact ha.originWrite hrun
  | read tag =>
      obtain ⟨⟨x, sb₁⟩, hread, rfl⟩ := Option.map_eq_some_iff.mp hrun
      exact ha.snapshotRead hread

theorem Arranged.run {m : Copies} {ops : List Op} (ha : Arranged sb) (r : Refines sb m)
    (h : Allowed m ops) (hrun : ops.foldlM Op.apply sb = some sb') : Arranged sb' := by
  induction ops generalizing sb m with
  | nil =>
      cases hrun
      exact ha
  | cons op ops ih =>
      obtain ⟨sb₁, hop, r₁⟩ := r.apply h.1
      rw [List.foldlM_cons, hop] at hrun
      exact ih (ha.apply r h.1 hop) r₁ h.2 hrun

theorem empty_arranged (orgdata : ℕ) (snapdata : ℕ → ℕ) : Arranged (empty orgdata snapdata) :=
  ⟨fun _ => List.Pairwise.nil, rfl⟩

end

/-! ## The indexes of a run -/

theorem Tidy.indexed (h : Tidy sb) (ha : Arranged sb) : Indexed sb := by
  refine ⟨h.extractChildren_eq ha, fun v hv _ => h.shape.tree.iterate hv, h.shape.path,
    fun v hv hflag u => ?_⟩
  have hv0 : v ≠ 0 := by
    rintro rfl
    rw [ha.unmarked] at hflag
    cases hflag
  rw [h.shape.near v hv hv0 hflag, h.shape.kids.mem_iff]

/-- In every run, the children, the orders and the loaded bitmaps are what building them anew
would give. -/
theorem runs_indexed (orgdata : ℕ) (snapdata : ℕ → ℕ) (ops : List Op)
    (h : Allowed (Copies.start orgdata) ops) :
    ∃ sb, ops.foldlM Op.apply (empty orgdata snapdata) = some sb ∧ Indexed sb := by
  have r := empty_refines orgdata snapdata
  obtain ⟨sb, hrun, r'⟩ := r.run h
  exact ⟨sb, hrun, r'.tidy.indexed ((empty_arranged orgdata snapdata).run r h hrun)⟩

/-- The origin's child is replaced twice and a ghost once, and the slot of the ghost is used
again. -/
theorem runs_indexed_rerooted :
    ∃ sb, [Op.ofOrigin 1, .ofSnapshot 2 1, .ofSnapshot 3 1, .read 3, .ofOrigin 4, .write 1 5,
        .delete 1, .delete 2, .ofOrigin 6].foldlM Op.apply (empty 7 fun _ => 0) = some sb ∧
      Indexed sb :=
  runs_indexed 7 _ _ (by decide)

end

end Tux3.Version
