import Tux3.VersionTree

/-!
# Editing the version tree

Versions take free slots, are added as leaves and leave as leaves. Each edit keeps the arrays a tree
with the right order numbers.
-/
namespace Tux3.Version

open Rooted

/-- What the edits of the tree leave alone. -/
structure Edit (sb sb' : Sb) : Prop where
  elements : sb'.elements = sb.elements
  snapdata : sb'.snapdata = sb.snapdata
  orgdata : sb'.orgdata = sb.orgdata
  allocmap : sb'.allocmap = sb.allocmap
  nextchunk : sb'.nextchunk = sb.nextchunk
  count : sb'.versionCount = sb.versionCount
  marks : ∀ v, (sb'.table v).tag = (sb.table v).tag ∧ (sb'.table v).ghost = (sb.table v).ghost ∧
    (sb'.table v).present = (sb.table v).present

section
variable {sb sb' : Sb} {mem : ℕ → Prop} {depth : ℕ → ℕ} {p c : ℕ}

/-- The children, the entries of the versions in the tree and their bitmaps decide the shape. -/
theorem Shape.of_mem (h : Shape sb mem depth) (hpacked : Packed sb')
    (hmax : sb'.versionCount ≤ maxVersions) (hkids : sb'.kids = sb.kids)
    (hpath : sb'.pathmap = sb.pathmap) (hnear : sb'.nearmap = sb.nearmap)
    (htable : ∀ v, mem v → v < sb'.versionCount ∧ (sb'.table v).used = true ∧
      (sb'.table v).parent = (sb.table v).parent ∧
      ((sb'.table v).pathmap = true → (sb.table v).pathmap = true) ∧
      ((sb'.table v).nearmap = true → (sb.table v).nearmap = true)) : Shape sb' mem depth := by
  have hparent : ∀ v, mem v → getParent sb' v = getParent sb v := fun v hv => (htable v hv).2.2.1
  refine ⟨hpacked, hmax, fun v hv => ⟨(htable v hv).1, (htable v hv).2.1⟩,
    ⟨h.tree.origin, h.tree.depth_origin, fun v hv hv0 => ?_⟩, ⟨fun v x => ?_, fun v => ?_⟩, ?_,
    fun v hv hf u => ?_, fun v hv hv0 hf => ?_⟩
  · rw [hparent v hv]
    exact h.tree.up v hv hv0
  · rw [hkids, h.kids.mem_iff]
    refine and_congr_right fun hx => ?_
    rw [hparent x hx]
  · rw [hkids]
    exact h.kids.nodup v
  · rw [← kids_length, hkids, kids_length]
    exact h.single
  · rw [hpath]
    refine (h.path v hv ((htable v hv).2.2.2.1 hf) u).trans (and_congr_right fun _ => ?_)
    exact (below_congr (fun w hw hw0 => ⟨hparent w hw, (h.tree.up w hw hw0).1⟩) hv).symm
  · rw [hkids, hnear]
    exact h.near v hv hv0 ((htable v hv).2.2.2.2 hf)

theorem Shape.congr (h : Shape sb mem depth) (hcount : sb'.versionCount = sb.versionCount)
    (hindex : sb'.childIndex = sb.childIndex) (hcounts : sb'.childCount = sb.childCount)
    (hchildren : sb'.children = sb.children) (hpath : sb'.pathmap = sb.pathmap)
    (hnear : sb'.nearmap = sb.nearmap)
    (htable : ∀ v, (sb'.table v).parent = (sb.table v).parent ∧
      (sb'.table v).used = (sb.table v).used ∧
      ((sb'.table v).pathmap = true → (sb.table v).pathmap = true) ∧
      ((sb'.table v).nearmap = true → (sb.table v).nearmap = true)) : Shape sb' mem depth := by
  have hkids : sb'.kids = sb.kids := by
    funext v
    exact kids_congr (by rw [hcounts]) fun i _ => by rw [hchildren, hindex]
  refine h.of_mem ⟨hindex ▸ h.packed.zero, ?_, ?_⟩ (hcount ▸ h.le_max) hkids hpath hnear
    fun v hv => ?_
  · rw [hindex, hcounts, hcount]
    exact h.packed.next
  · rw [hcounts, hcount]
    exact h.packed.beyond
  · obtain ⟨hp, hu, hflags⟩ := htable v
    rw [hcount, hu]
    exact ⟨(h.live v hv).1, (h.live v hv).2, hp, hflags⟩

theorem Shape.depth_congr (h : Shape sb mem depth) {depth' : ℕ → ℕ}
    (hdepth : ∀ v, mem v → depth' v = depth v) : Shape sb mem depth' := by
  refine { h with tree := ⟨h.tree.origin, ?_, fun v hv hv0 => ?_⟩ }
  · rw [hdepth 0 h.tree.origin]
    exact h.tree.depth_origin
  · obtain ⟨h1, h2⟩ := h.tree.up v hv hv0
    rw [hdepth v hv, hdepth _ h1]
    exact ⟨h1, h2⟩

/-- Ordering from the root gives every version its depth. -/
theorem Shape.orderTree (h : Shape sb mem depth) (h0 : sb.ordmap 0 = 0) {r : ℕ}
    (hr : sb.kids 0 = [r]) : ∃ ordmap, orderTree sb r 1 = some { sb with ordmap := ordmap } ∧
      ordmap 0 = 0 ∧ Shape { sb with ordmap := ordmap } mem ordmap := by
  have hkid : ∀ v, mem v → ∀ c ∈ sb.kids v, mem c ∧ depth c = depth v + 1 := by
    intro v _ c hc
    obtain ⟨hc, -, -, hd⟩ := h.kid hc
    exact ⟨hc, hd⟩
  obtain ⟨hrm, hr0, hrp, hrd⟩ := h.kid (show r ∈ sb.kids 0 by
    rw [hr]
    exact List.mem_singleton_self r)
  rw [h.tree.depth_origin, Nat.zero_add] at hrd
  obtain ⟨ordmap, hord, hkeep, hdone⟩ := orderFrom_spec hkid maxVersions
    (fun u hu => by have := h.depth_lt hu; omega) hrm sb.ordmap
  have hzero : ordmap 0 = 0 := by
    rcases hkeep 0 with heq | heq
    · exact heq.trans h.tree.depth_origin
    · exact heq.trans h0
  refine ⟨ordmap, ?_, hzero, ?_⟩
  · rw [hrd] at hord
    rw [Version.orderTree, hord]
    rfl
  · have hsame : Shape { sb with ordmap := ordmap } mem depth :=
      h.congr rfl rfl rfl rfl rfl rfl fun v => ⟨rfl, rfl, id, id⟩
    refine hsame.depth_congr fun v hv => ?_
    by_cases hv0 : v = 0
    · rw [hv0, hzero, h.tree.depth_origin]
    · exact hdone v ((h.below_root hr hv hv0).desc h.tree h.kids hv)

/-! ## A new leaf -/

/-- `insert_child` up to the ordering. -/
def attach (sb : Sb) (parent child : ℕ) : Sb :=
  let p := findChildPos sb parent child (sb.childCount parent)
  let sb := { sb with
    children := Function.update
      (vecmove sb.children (p + 1) p (sb.versionCount - p - 1)) p child
    childIndex := fun i =>
      if parent < i ∧ i < sb.versionCount then sb.childIndex i + 1 else sb.childIndex i
    childCount := Function.update sb.childCount parent (sb.childCount parent + 1) }
  let sb := sb.setEntry child { sb.table child with parent := parent }
  sb.setEntry parent { sb.table parent with nearmap := false }

theorem insertChild_eq :
    insertChild sb p c = (do orderTree (attach sb p c) (← getRoot (attach sb p c)) 1) := rfl

theorem attach_table (v : ℕ) : (attach sb p c).table v =
    { sb.table v with
      parent := if v = c then p else (sb.table v).parent
      nearmap := if v = p then false else (sb.table v).nearmap } := by
  simp only [attach, Sb.setEntry]
  by_cases hp : v = p
  · by_cases hc : v = c
    · subst hp
      subst hc
      simp only [Function.update_self, if_true]
    · subst hp
      rw [Function.update_self, Function.update_of_ne hc, if_neg hc, if_pos rfl]
  · by_cases hc : v = c
    · subst hc
      rw [Function.update_of_ne hp, Function.update_self, if_pos rfl, if_neg hp]
    · rw [Function.update_of_ne hp, Function.update_of_ne hc, if_neg hp, if_neg hc]

theorem attach_parent : getParent (attach sb p c) = Function.update (getParent sb) c p := by
  funext v
  rw [getParent, attach_table, Function.update_apply]
  rfl

theorem attach_edit (sb : Sb) (p c : ℕ) : Edit sb (attach sb p c) := by
  refine ⟨rfl, rfl, rfl, rfl, rfl, rfl, fun v => ?_⟩
  rw [attach_table]
  exact ⟨rfl, rfl, rfl⟩

theorem attach_kids (h : Shape sb mem depth) (hp : p < sb.versionCount) (c : ℕ) :
    Packed (attach sb p c) ∧ (attach sb p c).kids p = (sb.kids p).orderedInsert (· < ·) c ∧
      ∀ v ≠ p, (attach sb p c).kids v = sb.kids v := by
  have hk : ((sb.kids p).takeWhile fun other => other ≤ c).length ≤ sb.childCount p := by
    rw [← kids_length sb p]
    exact (List.takeWhile_sublist _).length_le
  obtain ⟨hpacked, hkids, hrest⟩ := @insert_kids _ (attach sb p c) _ _ _ h.packed h.room hp hk rfl
    rfl (fun _ => rfl) rfl
  exact ⟨hpacked, hkids.trans (insert_place _ c), hrest⟩

/-- A new leaf `c` below `p`. -/
theorem Shape.attach (h : Shape sb mem depth) (hc : ¬ mem c) (hc0 : c ≠ 0)
    (hlive : c < sb.versionCount ∧ (sb.table c).used = true) (hp : mem p)
    (hroot : p = 0 → sb.childCount 0 = 0) (hpath : (sb.table c).pathmap = false)
    (hnear : (sb.table c).nearmap = false) :
    Shape (attach sb p c) (fun v => v = c ∨ mem v) (Function.update depth c (depth p + 1)) := by
  obtain ⟨hpacked, hkids, hrest⟩ := attach_kids h (h.live p hp).1 c
  have hperm := hkids ▸ (sb.kids p).perm_orderedInsert (· < ·) c
  have hpc : p ≠ c := fun heq => hc (heq ▸ hp)
  have hparent : ∀ v, mem v → getParent (Version.attach sb p c) v = getParent sb v := by
    intro v hv
    rw [attach_parent, Function.update_of_ne]
    rintro rfl
    exact hc hv
  have hself : getParent (Version.attach sb p c) c = p := by
    rw [attach_parent, Function.update_self]
  have hmem : ∀ v x, x ∈ (Version.attach sb p c).kids v ↔ v = p ∧ x = c ∨ x ∈ sb.kids v := by
    intro v x
    by_cases hvp : v = p
    · subst hvp
      rw [hperm.mem_iff, List.mem_cons]
      exact ⟨Or.imp_left fun h => ⟨rfl, h⟩, Or.imp_left And.right⟩
    · rw [hrest v hvp]
      exact ⟨Or.inr, fun hx => hx.resolve_left fun hx => hvp hx.1⟩
  refine ⟨hpacked, h.le_max, fun v hv => ?_, h.tree.insertLeaf hc hp (fun v => Iff.rfl) hself
    (fun v hv _ => hparent v hv), ⟨fun v x => ?_, fun v => ?_⟩, ?_, fun v hv hf => ?_,
    fun v hv hv0 hf => ?_⟩
  · rw [attach_table]
    rcases hv with rfl | hv
    · exact hlive
    · exact h.live v hv
  · rw [hmem, h.kids.mem_iff]
    constructor
    · rintro (⟨rfl, rfl⟩ | ⟨hx, hx0, hpx⟩)
      · exact ⟨Or.inl rfl, hc0, hself⟩
      · exact ⟨Or.inr hx, hx0, (hparent x hx).trans hpx⟩
    · rintro ⟨rfl | hx, hx0, hpx⟩
      · exact Or.inl ⟨hpx.symm.trans hself, rfl⟩
      · exact Or.inr ⟨hx, hx0, (hparent x hx).symm.trans hpx⟩
  · by_cases hvp : v = p
    · subst hvp
      refine hperm.nodup_iff.mpr (List.nodup_cons.mpr ⟨fun hx => hc ?_, h.kids.nodup v⟩)
      exact (h.kid hx).1
    · rw [hrest v hvp]
      exact h.kids.nodup v
  · change Function.update sb.childCount p (sb.childCount p + 1) 0 ≤ 1
    by_cases hp0 : p = 0
    · rw [hp0, Function.update_self, hroot hp0]
    · rw [Function.update_of_ne (Ne.symm hp0)]
      exact h.single
  · rw [attach_table] at hf
    rcases hv with rfl | hv
    · rw [hpath] at hf
      cases hf
    · refine fun u => (h.path v hv hf u).trans (and_congr_right fun _ => ?_)
      exact (below_congr (fun w hw hw0 => ⟨hparent w hw, (h.tree.up w hw hw0).1⟩) hv).symm
  · rw [attach_table] at hf
    dsimp only at hf
    split at hf
    · cases hf
    · next hvp =>
        rcases hv with rfl | hv
        · rw [hnear] at hf
          cases hf
        · rw [hrest v hvp]
          exact h.near v hv hv0 hf

theorem Shape.insertChild (h : Shape sb mem depth) (h0 : sb.ordmap 0 = 0) (hc : ¬ mem c)
    (hc0 : c ≠ 0) (hlive : c < sb.versionCount ∧ (sb.table c).used = true) (hp : mem p)
    (hroot : p = 0 → sb.childCount 0 = 0) (hpath : (sb.table c).pathmap = false)
    (hnear : (sb.table c).nearmap = false) :
    ∃ ordmap, insertChild sb p c = some { Version.attach sb p c with ordmap := ordmap } ∧
      ordmap 0 = 0 ∧
      Shape { Version.attach sb p c with ordmap := ordmap } (fun v => v = c ∨ mem v) ordmap := by
  have hattach := h.attach hc hc0 hlive hp hroot hpath hnear
  obtain ⟨r, hr, hkids⟩ := hattach.getRoot (Or.inl rfl) hc0
  obtain ⟨ordmap, hord, hzero, hshape⟩ := hattach.orderTree h0 hkids
  refine ⟨ordmap, ?_, hzero, hshape⟩
  rw [insertChild_eq, hr]
  exact hord

/-! ## Slots -/

/-- A new slot goes behind the others, a free one is taken over. Neither is in the tree yet. -/
theorem Shape.newVersion (h : Shape sb mem depth) (tag : ℕ)
    (hmem : ∀ v, mem v ↔ v < sb.versionCount ∧ (sb.table v).used = true)
    (hroom : sb.versionCount = maxVersions →
      ∃ v, 0 < v ∧ v < sb.versionCount ∧ (sb.table v).used = false) :
    ∃ v sb', newVersion sb p tag = some (v, sb') ∧ v ≠ 0 ∧ ¬ mem v ∧ v < sb'.versionCount ∧
      (∃ index n, sb' = { sb with
        table := Function.update sb.table v ⟨tag, p, true, false, false, false, false⟩
        childIndex := index
        versionCount := n
        activeCount := sb.activeCount + 1 } ∧
        (n = sb.versionCount ∨ n = sb.versionCount + 1 ∧ v = sb.versionCount)) ∧
      sb'.kids = sb.kids ∧ Shape sb' mem depth := by
  have hpos : 0 < sb.versionCount := (h.live 0 h.tree.origin).1
  have hchildless : ∀ v, ¬ mem v → sb.childCount v = 0 := fun v hv => by
    rw [← kids_length, h.childless hv, List.length_nil]
  unfold Version.newVersion
  cases hfind : (List.range' 1 (sb.versionCount - 1)).find? fun version =>
      !(sb.table version).used with
  | some v =>
      have hv := List.mem_range'_1.mp (List.mem_of_find?_eq_some hfind)
      have hfree : (sb.table v).used = false := by
        simpa using List.find?_some hfind
      have hnot : ¬ mem v := fun hin => by
        rw [((hmem v).mp hin).2] at hfree
        cases hfree
      have hcount := hchildless v hnot
      refine ⟨v, _, if_neg (not_not.mpr hcount), by omega, hnot, show v < sb.versionCount by omega,
        ⟨_, _, rfl, Or.inl rfl⟩, rfl, ?_⟩
      refine h.of_mem ⟨h.packed.zero, h.packed.next, h.packed.beyond⟩ h.le_max rfl rfl rfl
        fun u hu => ?_
      have hne : u ≠ v := fun heq => hnot (heq ▸ hu)
      simp only [Sb.setEntry]
      rw [Function.update_of_ne hne]
      exact ⟨(h.live u hu).1, (h.live u hu).2, rfl, id, id⟩
  | none =>
      have hall : ∀ v, 0 < v → v < sb.versionCount → (sb.table v).used = true := by
        intro v hv0 hv
        have := List.find?_eq_none.mp hfind v (List.mem_range'_1.mpr ⟨hv0, by omega⟩)
        simpa using this
      have hlt : sb.versionCount ≠ maxVersions := fun heq => by
        obtain ⟨v, hv0, hv, hu⟩ := hroom heq
        rw [hall v hv0 hv] at hu
        cases hu
      have hnot : ¬ mem sb.versionCount := fun hin => Nat.lt_irrefl _ (h.live _ hin).1
      have hcount := hchildless _ hnot
      have hmax := h.le_max
      dsimp only
      rw [if_neg hlt, if_neg (show sb.versionCount ≠ 0 by omega)]
      have hkids : ∀ v, ({ sb with
          childIndex := Function.update sb.childIndex sb.versionCount
            (sb.childIndex (sb.versionCount - 1) +
              sb.childCount (sb.versionCount - 1)) } : Sb).kids v = sb.kids v := by
        intro v
        refine kids_congr rfl fun i hi => ?_
        have hne : v ≠ sb.versionCount := fun heq => by
          rw [heq, hcount] at hi
          cases hi
        dsimp only
        rw [Function.update_of_ne hne]
      refine ⟨sb.versionCount, _, if_neg (not_not.mpr hcount), by omega, hnot, Nat.lt_succ_self _,
        ⟨_, _, rfl, Or.inr ⟨rfl, rfl⟩⟩, funext hkids, ?_⟩
      refine h.of_mem ⟨?_, fun v hv => ?_, fun v hv => ?_⟩ (show sb.versionCount + 1 ≤ _ by omega)
        (funext hkids) rfl rfl fun u hu => ?_
      · exact (Function.update_of_ne (show 0 ≠ sb.versionCount by omega) _ _).trans h.packed.zero
      · change v + 1 < sb.versionCount + 1 at hv
        change Function.update sb.childIndex sb.versionCount _ (v + 1) =
          Function.update sb.childIndex sb.versionCount _ v + sb.childCount v
        rw [Function.update_of_ne (show v ≠ sb.versionCount by omega)]
        by_cases hlast : v + 1 = sb.versionCount
        · rw [hlast, Function.update_self, ← hlast, Nat.add_sub_cancel]
        · rw [Function.update_of_ne hlast]
          exact h.packed.next v (by omega)
      · exact h.packed.beyond v (Nat.le_of_succ_le hv)
      · have hne : u ≠ sb.versionCount := fun heq => hnot (heq ▸ hu)
        have hlt := (h.live u hu).1
        simp only [Sb.setEntry]
        rw [Function.update_of_ne hne]
        exact ⟨Nat.lt_succ_of_lt hlt, (h.live u hu).2, rfl, id, id⟩

/-! ## A leaf goes -/

/-- `remove_child` of a child of its parent. -/
def detach (sb : Sb) (child : ℕ) : Sb :=
  let parent := getParent sb child
  let p := sb.childIndex parent + (sb.kids parent).idxOf child
  let sb := { sb with
    children := vecmove sb.children p (p + 1) (sb.versionCount - p - 1)
    childIndex := fun i =>
      if parent < i ∧ i < sb.versionCount then sb.childIndex i - 1 else sb.childIndex i
    childCount := Function.update sb.childCount parent (sb.childCount parent - 1) }
  sb.setEntry parent { sb.table parent with nearmap := false }

theorem removeChild_eq (hc : c ∈ sb.kids (getParent sb c)) :
    removeChild sb c = some (detach sb c) := by
  rw [removeChild, findChild, if_pos hc]
  rfl

theorem detach_table (v : ℕ) : (detach sb c).table v =
    { sb.table v with nearmap := if v = getParent sb c then false else (sb.table v).nearmap } := by
  simp only [detach, Sb.setEntry]
  by_cases hp : v = getParent sb c
  · subst hp
    rw [Function.update_self, if_pos rfl]
  · rw [Function.update_of_ne hp, if_neg hp]

theorem detach_parent : getParent (detach sb c) = getParent sb := by
  funext v
  rw [getParent, detach_table]
  rfl

theorem detach_kids (h : Shape sb mem depth) (hc : mem c) (hc0 : c ≠ 0) :
    Packed (detach sb c) ∧
      (detach sb c).kids (getParent sb c) = (sb.kids (getParent sb c)).erase c ∧
      ∀ v ≠ getParent sb c, (detach sb c).kids v = sb.kids v := by
  have hmem : c ∈ sb.kids (getParent sb c) := (h.kids.mem_iff _ _).mpr ⟨hc, hc0, rfl⟩
  have hk : (sb.kids (getParent sb c)).idxOf c < sb.childCount (getParent sb c) := by
    rw [← kids_length sb]
    exact List.idxOf_lt_length_of_mem hmem
  obtain ⟨hpacked, hkids, hrest⟩ := @remove_kids _ (detach sb c) _ _ h.packed h.room
    (h.live _ (h.tree.up c hc hc0).1).1 hk rfl rfl (fun _ => rfl) rfl
  exact ⟨hpacked, hkids.trans (List.eraseIdx_idxOf_eq_erase c _), hrest⟩

theorem Shape.detach (h : Shape sb mem depth) (hc : mem c) (hc0 : c ≠ 0) (hleaf : sb.kids c = []) :
    Shape (detach sb c) (fun v => v ≠ c ∧ mem v) depth := by
  obtain ⟨hpacked, hkids, hrest⟩ := detach_kids h hc hc0
  have hmem : ∀ v x, x ∈ (Version.detach sb c).kids v ↔ x ≠ c ∧ x ∈ sb.kids v := by
    intro v x
    by_cases hv : v = getParent sb c
    · subst hv
      rw [hkids, (h.kids.nodup _).mem_erase_iff]
    · rw [hrest v hv]
      refine ⟨fun hx => ⟨?_, hx⟩, And.right⟩
      rintro rfl
      exact hv (h.kid hx).2.2.1.symm
  have hnot : ∀ v, mem v → v ≠ 0 → getParent sb v ≠ c := by
    intro v hv hv0 heq
    have hin := (h.kids.mem_iff c v).mpr ⟨hv, hv0, heq⟩
    rw [hleaf] at hin
    cases hin
  refine ⟨hpacked, h.le_max, fun v hv => ?_, h.tree.removeLeaf hc0 hnot (fun v => Iff.rfl)
    (fun v _ _ _ => congrFun detach_parent v), ⟨fun v x => ?_, fun v => ?_⟩, ?_,
    fun v hv hf u => ?_, fun v hv hv0 hf u => ?_⟩
  · rw [detach_table]
    exact h.live v hv.2
  · rw [hmem, h.kids.mem_iff, detach_parent, and_assoc]
  · by_cases hv : v = getParent sb c
    · rw [hv, hkids]
      exact (h.kids.nodup _).erase c
    · rw [hrest v hv]
      exact h.kids.nodup v
  · change Function.update sb.childCount _ _ 0 ≤ 1
    have hsingle := h.single
    by_cases hp : (0 : ℕ) = getParent sb c
    · rw [← hp, Function.update_self]
      omega
    · rw [Function.update_of_ne hp]
      exact hsingle
  · rw [detach_table] at hf
    rw [detach_parent]
    exact h.path v hv.2 hf u
  · rw [detach_table] at hf
    dsimp only at hf
    split at hf
    · cases hf
    · next hvp =>
        rw [hrest v hvp]
        exact h.near v hv.2 hv0 hf u

end

end Tux3.Version
