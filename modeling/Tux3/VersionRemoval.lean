import Tux3.VersionTidy
import Tux3.VersionPromote

/-!
# Deleting snapshots

A deleted snapshot leaves the tree, is replaced by its only child or stays as a ghost. A ghost
parent with one child left is replaced by that child.
-/
namespace Tux3.Version

open Rooted

/-- What the elements and the tree are like between the steps of a deletion. -/
structure Settled (sb : Sb) (mem : ℕ → Prop) : Prop where
  shape : Shape sb mem sb.ordmap
  order : sb.ordmap 0 = 0
  clear : ∀ v, (sb.table v).present = false
  nodup : sb.labels.Nodup
  place : ∀ v ∈ sb.labels, v ≠ 0 ∧ mem v
  heirs : ∀ v ∈ sb.labels, isGhost sb v = true → ∃ w, Heir sb mem sb.labels v w
  store : Store sb

section
variable {sb sb' : Sb} {mem : ℕ → Prop} {u v w a p c tag target parent : ℕ}

theorem Settled.tidy (h : Settled sb mem) (hmem : sb.mem = mem)
    (hactive : sb.activeCount = sb.members.card) (horigin : isGhost sb 0 = false)
    (hghosts : ∀ v, mem v → isGhost sb v = true → 2 ≤ sb.childCount v)
    (hfree : ∀ v < sb.versionCount, (sb.table v).used = false → isGhost sb v = true) : Tidy sb :=
  ⟨hmem ▸ h.shape, h.order, hactive, h.clear, horigin, hmem ▸ hghosts, hfree, h.nodup,
    hmem ▸ h.place, hmem ▸ h.heirs, h.store⟩

theorem Deleted.settled (d : Deleted sb mem target parent sb')
    (h : Deletable sb mem target parent) (h0 : sb.ordmap 0 = 0) : Settled sb' mem := by
  obtain ⟨es, allocmap, brood, rfl⟩ := d.same
  exact ⟨h.shape.congr rfl rfl rfl rfl rfl rfl fun _ => ⟨rfl, rfl, id, id⟩, h0, h.clear, d.nodup,
    d.place, d.heirs, d.store⟩

/-- A ghost with one child and no element is replaced by its child. -/
theorem Settled.promote (h : Settled sb mem) (hp : mem p) (hp0 : p ≠ 0) (hg : isGhost sb p = true)
    (hl : p ∉ sb.labels) (honly : sb.kids p = [c]) : ∃ sb', promoteChild sb c = some sb' ∧
      Settled sb' (fun v => v ≠ p ∧ mem v) ∧ Promoted sb sb' p c ∧
      ∀ v, v ≠ p → mem v → sb'.value v = sb.value v := by
  obtain ⟨hc, hc0, hcp, -⟩ := h.shape.kid (show c ∈ sb.kids p by
    rw [honly]
    exact List.mem_cons_self)
  have hcne : c ≠ p := fun heq => h.shape.tree.parent_ne hc hc0 (hcp.trans heq.symm)
  have honly' : ∀ v, mem v → v ≠ 0 → getParent sb v = p → v = c := by
    intro v hv hv0 hvp
    have hin := (h.shape.kids.mem_iff p v).mpr ⟨hv, hv0, hvp⟩
    rw [honly] at hin
    exact List.mem_singleton.mp hin
  obtain ⟨sb', hrun, h0', hshape, pr⟩ := h.shape.promoteChild h.order hp hp0 honly
  have hnew : getParent sb' c = getParent sb p := by
    rw [pr.parent, if_neg hcne, if_pos rfl]
  have hold : ∀ v, mem v → v ≠ 0 → v ≠ c → v ≠ p → getParent sb' v = getParent sb v :=
    fun v _ _ hvc hvp => by rw [pr.parent, if_neg hvp, if_neg hvc]
  have hlabels : sb'.labels = sb.labels := by
    rw [Sb.labels, pr.elements]
    rfl
  have hghost : isGhost sb' = isGhost sb := funext fun v => (pr.marks v).2.1
  have hdatum : sb'.datum = sb.datum := by
    funext v
    rw [Sb.datum, findElement, pr.elements, pr.snapdata]
    rfl
  refine ⟨sb', hrun, ⟨hshape, h0', fun v => (pr.marks v).2.2.trans (h.clear v), hlabels ▸ h.nodup,
    fun v hv => ?_, fun v hv hgv => ?_, ?_⟩, pr, fun v hvp hv => ?_⟩
  · rw [hlabels] at hv
    exact ⟨(h.place v hv).1, fun heq => hl (heq ▸ hv), (h.place v hv).2⟩
  · rw [hlabels] at hv ⊢
    rw [hghost] at hgv
    obtain ⟨w, hw, hwg, hin⟩ := h.heirs v hv hgv
    have hwp : w ≠ p := by
      rintro rfl
      rw [hg] at hwg
      cases hwg
    refine ⟨w, ⟨hwp, hw⟩, hghost ▸ hwg, ?_⟩
    exact hin.splice h.shape.tree hp0 hcp honly' hnew hold (fun heq => hl (heq ▸ hv)) hw hwp
  · refine ⟨?_, ?_, ?_, ?_⟩
    · rw [pr.elements]
      exact h.store.nodup
    · rw [pr.elements, pr.allocmap]
      exact h.store.alloc
    · rw [pr.allocmap]
      exact h.store.lt
    · rw [pr.nextchunk]
      exact h.store.next
  · rw [Sb.value, Sb.value, hdatum, pr.orgdata]
    exact value_splice h.shape.tree hshape.tree hp0 hp hcp (fun _ => Iff.rfl) hnew hold
      (datum_none.mpr hl) ⟨hvp, hv⟩

/-- `free_version` of a used version. -/
def release (sb : Sb) (v : ℕ) : Sb :=
  { sb.setEntry v { sb.table v with parent := 0, used := false } with
    activeCount := sb.activeCount - 1 }

theorem release_table : (release sb v).table u = { sb.table u with
    parent := if u = v then 0 else (sb.table u).parent
    used := if u = v then false else (sb.table u).used } := by
  rw [release, Sb.setEntry]
  by_cases hu : u = v
  · subst hu
    simp only [Function.update_self, if_true]
  · simp only [Function.update_of_ne hu, if_neg hu]

/-- A version that is not in the tree can be released. -/
theorem Settled.release (h : Settled sb mem) (hv : ¬ mem v) : Settled (release sb v) mem ∧
    ∀ u, mem u → (release sb v).value u = sb.value u := by
  have hne : ∀ {u}, mem u → u ≠ v := fun hu heq => hv (heq ▸ hu)
  have hparent : ∀ u, mem u → getParent (Version.release sb v) u = getParent sb u := by
    intro u hu
    rw [getParent, release_table, if_neg (hne hu)]
    rfl
  have hghost : isGhost (Version.release sb v) = isGhost sb := by
    funext u
    rw [isGhost, release_table]
    rfl
  have hshape : Shape (Version.release sb v) mem sb.ordmap := by
    refine h.shape.of_mem ⟨h.shape.packed.zero, h.shape.packed.next, h.shape.packed.beyond⟩
      h.shape.le_max rfl rfl rfl fun u hu => ?_
    rw [release_table, if_neg (hne hu), if_neg (hne hu)]
    exact ⟨(h.shape.live u hu).1, (h.shape.live u hu).2, rfl, id, id⟩
  refine ⟨⟨hshape, h.order, fun u => ?_, h.nodup, h.place, fun u hu hg => ?_,
    ⟨h.store.nodup, h.store.alloc, h.store.lt, h.store.next⟩⟩, fun u hu => ?_⟩
  · rw [release_table]
    exact h.clear u
  · rw [hghost] at hg
    obtain ⟨w, hw, hwg, hin⟩ := h.heirs u hu hg
    refine ⟨w, hw, hghost ▸ hwg, ?_⟩
    exact hin.congr h.shape.tree hw (fun _ _ _ _ => id) fun x hx _ _ => hparent x hx
  · exact value_grow h.shape.tree hshape.tree (fun _ => id) (fun x hx _ => by rw [hparent x hx]) hu

/-! ## The target goes -/

/-- The state when the target has become a ghost. -/
def condemn (sb : Sb) (v : ℕ) : Sb := hide { sb with brood := fun _ => 0 } v 0

theorem Tidy.bereft (h : Tidy sb) (hv : sb.mem v) (hv0 : v ≠ 0) (hu : u ∈ sb.labels)
    (hg : isGhost sb u = true) : (∃ w, w ≠ v ∧ Heir sb sb.mem sb.labels u w) ∨ v ∉ sb.labels ∧
      (getParent sb v = u ∨ Inherits 0 (getParent sb) (· ∈ sb.labels) u (getParent sb v)) := by
  obtain ⟨w, hw⟩ := h.heirs u hu hg
  by_cases hwv : w = v
  · subst hwv
    exact Or.inr ⟨hw.2.2.unlabelled, ((inherits_iff hv0).mp hw.2.2).2⟩
  · exact Or.inl ⟨w, hwv, hw⟩

theorem condemn_deletable (h : Tidy sb) (hv : sb.mem v) (hv0 : v ≠ 0) :
    Deletable (condemn sb v) sb.mem v (getParent sb v) := by
  have hshape : Shape { sb with brood := fun _ => 0 } sb.mem sb.ordmap :=
    h.shape.congr rfl rfl rfl rfl rfl rfl fun _ => ⟨rfl, rfl, id, id⟩
  have hparent : getParent (condemn sb v) = getParent sb := hide_parent
  refine ⟨hide_shape hshape, fun u => ?_, h.nodup,
    ⟨h.store.nodup, h.store.alloc, h.store.lt, h.store.next⟩, fun _ => rfl,
    fun u hu => ⟨(h.place u hu).1, Or.inl (h.place u hu).2⟩, hv0, ?_, fun hno => absurd hv hno,
    (h.shape.tree.up v hv hv0).1, fun u hu hg huv => ?_⟩
  · rw [condemn, hide_table]
    exact h.clear u
  · rw [condemn, hide_ghost, if_pos rfl]
  · rw [condemn, hide_ghost, if_neg huv] at hg
    rw [hparent]
    refine (h.bereft hv hv0 hu hg).imp_left fun ⟨w, hwv, hw⟩ => ⟨w, ?_⟩
    exact hide_heir.mpr ⟨hwv, hw⟩

/-- The state when the target has left the tree. -/
def leave (sb : Sb) (v : ℕ) : Sb :=
  (detach sb v).setEntry v { (detach sb v).table v with parent := 0 }

theorem leave_table : (leave sb v).table u = { sb.table u with
    parent := if u = v then 0 else (sb.table u).parent
    nearmap := if u = getParent sb v then false else (sb.table u).nearmap } := by
  rw [leave, Sb.setEntry]
  by_cases hu : u = v
  · subst hu
    simp only [Function.update_self, if_true, detach_table]
  · simp only [Function.update_of_ne hu, if_neg hu, detach_table]

theorem leave_shape {depth : ℕ → ℕ} (h : Shape sb mem depth) (hv : mem v) (hv0 : v ≠ 0)
    (hleaf : sb.kids v = []) : Shape (leave sb v) (fun u => u ≠ v ∧ mem u) depth := by
  have hdetach := h.detach hv hv0 hleaf
  refine hdetach.of_mem ⟨hdetach.packed.zero, hdetach.packed.next, hdetach.packed.beyond⟩
    hdetach.le_max rfl rfl rfl fun u hu => ?_
  have hentry : (leave sb v).table u = (detach sb v).table u := Function.update_of_ne hu.1 _ _
  rw [hentry]
  exact ⟨(hdetach.live u hu).1, (hdetach.live u hu).2, rfl, id, id⟩

theorem leave_parent (hu : u ≠ v) : getParent (leave (condemn sb v) v) u = getParent sb u := by
  rw [getParent, leave_table, if_neg hu]
  exact congrFun (@hide_parent { sb with brood := fun _ => 0 } v 0) u

theorem leave_deletable (h : Tidy sb) (hv : sb.mem v) (hv0 : v ≠ 0) (hleaf : sb.kids v = []) :
    Deletable (leave (condemn sb v) v) (fun u => u ≠ v ∧ sb.mem u) v (getParent sb v) := by
  have hd := condemn_deletable h hv hv0
  have hghost : isGhost (leave (condemn sb v) v) = isGhost (condemn sb v) := by
    funext u
    rw [isGhost, leave_table]
    rfl
  obtain ⟨hpm, -⟩ := h.shape.tree.up v hv hv0
  have hpv := h.shape.tree.parent_ne hv hv0
  have hclosed : ∀ x, x ≠ v ∧ sb.mem x → x ≠ 0 →
      getParent (leave (condemn sb v) v) x = getParent sb x ∧
        (getParent sb x ≠ v ∧ sb.mem (getParent sb x)) := by
    intro x hx hx0
    refine ⟨leave_parent hx.1, fun hp => ?_, (h.shape.tree.up x hx.2 hx0).1⟩
    have hin := (h.shape.kids.mem_iff v x).mpr ⟨hx.2, hx0, hp⟩
    rw [hleaf] at hin
    cases hin
  refine ⟨leave_shape hd.shape hv hv0 hleaf, fun u => ?_, hd.nodup,
    ⟨h.store.nodup, h.store.alloc, h.store.lt, h.store.next⟩, fun _ => rfl, fun u hu => ?_, hv0, ?_,
    fun _ => ?_, ⟨hpv, hpm⟩, fun u hu hg huv => ?_⟩
  · rw [leave_table]
    exact hd.clear u
  · refine ⟨(hd.place u hu).1, ?_⟩
    by_cases huv : u = v
    · exact Or.inr huv
    · exact Or.inl ⟨huv, (h.place u hu).2⟩
  · rw [hghost]
    exact hd.ghost
  · rw [getParent, leave_table, if_pos rfl]
  · rw [hghost, condemn, hide_ghost, if_neg huv] at hg
    rcases h.bereft hv hv0 hu hg with ⟨w, hwv, hw⟩ | ⟨hl, hin⟩
    · refine Or.inl ⟨w, ⟨hwv, hw.1⟩, ?_, ?_⟩
      · rw [hghost, condemn, hide_ghost, if_neg hwv]
        exact hw.2.1
      · exact hw.2.2.transfer hclosed (fun _ _ => id) ⟨hwv, hw.1⟩
    · refine Or.inr ⟨hl, hin.imp_right fun hin => ?_⟩
      exact hin.transfer hclosed (fun _ _ => id) ⟨hpv, hpm⟩

/-! ## What is left of the table -/

/-- The versions `gone` have left the table and the target is a ghost. -/
structure Removed (sb sb' : Sb) (v : ℕ) (gone : Finset ℕ) : Prop where
  count : sb'.versionCount = sb.versionCount
  active : sb'.activeCount = sb.activeCount - gone.card
  used : ∀ u, (sb'.table u).used = if u ∈ gone then false else (sb.table u).used
  ghost : ∀ u, isGhost sb' u = if u = v then true else isGhost sb u
  tag : ∀ u, u ≠ v → (sb'.table u).tag = (sb.table u).tag
  orgdata : sb'.orgdata = sb.orgdata
  value : ∀ u, u ≠ v → sb.mem u → isGhost sb u = false → sb'.value u = sb.value u

section
variable {gone : Finset ℕ}

theorem Removed.mem_iff (r : Removed sb sb' v gone) : sb'.mem u ↔ u ∉ gone ∧ sb.mem u := by
  rw [Sb.mem, r.count, r.used]
  by_cases hu : u ∈ gone
  · rw [if_pos hu]
    exact ⟨fun h => Bool.noConfusion h.2, fun h => absurd hu h.1⟩
  · rw [if_neg hu, and_iff_right hu]
    rfl

theorem Removed.snapshot_iff (r : Removed sb sb' v gone)
    (hgone : ∀ u ∈ gone, sb.mem u ∧ (u = v ∨ isGhost sb u = true)) {t : ℕ} :
    sb'.snapshot u t ↔ u ≠ v ∧ sb.snapshot u t := by
  rw [Sb.snapshot, r.mem_iff, r.ghost]
  by_cases hu : u = v
  · rw [if_pos hu]
    exact ⟨fun h => Bool.noConfusion h.2.2.1, fun h => absurd hu h.1⟩
  · rw [if_neg hu, r.tag u hu]
    refine ⟨fun h => ⟨hu, h.1.2, h.2⟩, fun h => ⟨⟨fun hin => ?_, h.2.1⟩, h.2.2⟩⟩
    have hg := (hgone u hin).2.resolve_left hu
    rw [h.2.2.2.1] at hg
    cases hg

theorem Removed.tidy (r : Removed sb sb' v gone) (h : Tidy sb) (hv0 : v ≠ 0)
    (hgone : ∀ u ∈ gone, sb.mem u ∧ (u = v ∨ isGhost sb u = true))
    (hs : Settled sb' fun u => u ∉ gone ∧ sb.mem u)
    (hghosts : ∀ u, u ∉ gone → sb.mem u → isGhost sb' u = true → 2 ≤ sb'.childCount u) :
    Tidy sb' := by
  refine hs.tidy (funext fun u => propext r.mem_iff) ?_ ?_
    (fun u hu hg => hghosts u hu.1 hu.2 hg) fun u hu hf => ?_
  · have hsub : gone ⊆ sb.members := fun u hu => mem_members.mpr (hgone u hu).1
    have hsdiff : sb'.members = sb.members \ gone := by
      ext u
      rw [mem_members, r.mem_iff, Finset.mem_sdiff, mem_members, and_comm]
    rw [r.active, h.active, hsdiff, Finset.card_sdiff_of_subset hsub]
  · rw [r.ghost, if_neg hv0.symm]
    exact h.origin
  · rw [r.ghost]
    split
    · rfl
    · next huv =>
        rw [r.used] at hf
        split at hf
        · next hin => exact (hgone u hin).2.resolve_left huv
        · exact h.free u (r.count ▸ hu) hf

theorem Removed.distinct (r : Removed sb sb' v gone)
    (hgone : ∀ u ∈ gone, sb.mem u ∧ (u = v ∨ isGhost sb u = true)) (hd : sb.distinct) :
    sb'.distinct := fun u w t hu hw =>
  hd u w t ((r.snapshot_iff hgone).mp hu).2 ((r.snapshot_iff hgone).mp hw).2

theorem Removed.reads_iff (r : Removed sb sb' v gone)
    (hgone : ∀ u ∈ gone, sb.mem u ∧ (u = v ∨ isGhost sb u = true)) (hd : sb.distinct)
    (hv : sb.snapshot v tag) (t x : ℕ) : sb'.reads t x ↔ t ≠ tag ∧ sb.reads t x := by
  constructor
  · rintro ⟨u, hu, rfl⟩
    obtain ⟨huv, hu⟩ := (r.snapshot_iff hgone).mp hu
    refine ⟨?_, u, hu, (r.value u huv hu.1 hu.2.2.1).symm⟩
    rintro rfl
    exact huv (hd u v t hu hv)
  · rintro ⟨ht, u, hu, rfl⟩
    have huv : u ≠ v := by
      rintro rfl
      exact ht (hu.2.2.2.symm.trans hv.2.2.2)
    exact ⟨u, (r.snapshot_iff hgone).mpr ⟨huv, hu⟩, r.value u huv hu.1 hu.2.2.1⟩

end

/-! ## `snapshot_delete` -/

theorem Deleted.frame (d : Deleted sb mem target parent sb') : sb'.table = sb.table ∧
    sb'.versionCount = sb.versionCount ∧ sb'.activeCount = sb.activeCount ∧
    sb'.orgdata = sb.orgdata ∧ sb'.childCount = sb.childCount ∧ sb'.kids = sb.kids := by
  obtain ⟨es, allocmap, brood, rfl⟩ := d.same
  exact ⟨rfl, rfl, rfl, rfl, rfl, rfl⟩

/-- A target with several children stays as a ghost. -/
theorem delete_stays (h : Tidy sb) (hv : sb.mem v) (hv0 : v ≠ 0) (hkids : 2 ≤ sb.childCount v) :
    ∃ promote sb', deleteElements (condemn sb v) v (getParent sb v) = some (promote, sb') ∧
      Tidy sb' ∧ Removed sb sb' v ∅ := by
  have hd := condemn_deletable h hv hv0
  obtain ⟨sb', hrun, d⟩ := deleteElements_spec hd
  obtain ⟨htable, hcount, hactive, horg, hcounts, -⟩ := d.frame
  have r : Removed sb sb' v ∅ := by
    refine ⟨hcount, hactive, fun u => ?_, fun u => ?_, fun u hu => ?_, horg, fun u huv hu hg => ?_⟩
    · rw [htable, condemn, hide_table, if_neg (Finset.notMem_empty u)]
    · rw [isGhost, htable]
      exact hide_ghost u
    · rw [htable, condemn, hide_table, if_neg hu]
    · rw [d.value u hu (by rw [condemn, hide_ghost, if_neg huv]; exact hg), condemn, hide_value]
      rfl
  have hgone : ∀ u ∈ (∅ : Finset ℕ), sb.mem u ∧ (u = v ∨ isGhost sb u = true) :=
    fun u hu => absurd hu (Finset.notMem_empty u)
  have hmem : sb.mem = fun u => u ∉ (∅ : Finset ℕ) ∧ sb.mem u :=
    funext fun u => propext (and_iff_right (Finset.notMem_empty u)).symm
  have hs := d.settled hd h.order
  refine ⟨_, sb', hrun, r.tidy h hv0 hgone (hmem ▸ hs) fun u _ hu hg => ?_, r⟩
  rw [hcounts]
  rw [r.ghost] at hg
  by_cases huv : u = v
  · exact huv ▸ hkids
  · rw [if_neg huv] at hg
    exact h.ghosts u hu hg

/-- A target with one child is replaced by it. -/
theorem delete_replaced (h : Tidy sb) (hv : sb.mem v) (hv0 : v ≠ 0) (honly : sb.kids v = [c]) :
    ∃ promote sb₁ sb', deleteElements (condemn sb v) v (getParent sb v) = some (promote, sb₁) ∧
      promoteChild sb₁ (getChild sb₁ v 0) = some sb' ∧ Tidy sb' ∧ Removed sb sb' v {v} := by
  have hone : sb.childCount v = 1 := by
    rw [← kids_length, honly]
    rfl
  have hd := condemn_deletable h hv hv0
  obtain ⟨sb₁, hrun, d⟩ := deleteElements_spec hd
  obtain ⟨htable, hcount, hactive, horg, hcounts, hkids⟩ := d.frame
  have hself : ∀ y, sb.kids y = [v] → getParent sb v = y := fun y hy => by
    obtain ⟨-, -, hp, -⟩ := h.shape.kid (show v ∈ sb.kids y by
      rw [hy]
      exact List.mem_cons_self)
    exact hp
  have hl : v ∉ sb₁.labels := by
    refine d.unlabelled v (Or.inl rfl) hone.le fun y hy heq => ?_
    have hp := hself y heq
    rcases hy with rfl | ⟨rfl, hg⟩
    · exact h.shape.tree.parent_ne hv hv0 hp
    · obtain ⟨hpm, -⟩ := h.shape.tree.up v hv hv0
      rw [condemn, hide_ghost, if_neg (h.shape.tree.parent_ne hv hv0)] at hg
      have htwo := h.ghosts _ hpm hg
      rw [← kids_length, show sb.kids (getParent sb v) = [v] from heq] at htwo
      exact absurd htwo (Nat.not_succ_le_self 1)
  have honly₁ : sb₁.kids v = [c] := by
    rw [hkids]
    exact honly
  have hg₁ : isGhost sb₁ v = true := by
    rw [isGhost, htable]
    exact hd.ghost
  obtain ⟨sb', hpromote, hs, pr, hval⟩ := (d.settled hd h.order).promote hv hv0 hg₁ hl honly₁
  have hchild : getChild sb₁ v 0 = c := by
    have hlist : sb₁.kids v = [getChild sb₁ v 0] := by
      rw [Sb.kids, hcounts, show (condemn sb v).childCount v = 1 from hone]
      rfl
    rw [hlist] at honly₁
    exact List.singleton_injective honly₁
  have r : Removed sb sb' v {v} := by
    refine ⟨pr.count.trans hcount, ?_, fun u => ?_, fun u => ?_, fun u hu => ?_,
      pr.orgdata.trans horg, fun u huv hu hg => ?_⟩
    · rw [pr.active, hactive, Finset.card_singleton]
      rfl
    · rw [pr.used, htable, condemn, hide_table]
      simp only [Finset.mem_singleton]
    · rw [isGhost, (pr.marks u).2.1, htable]
      exact hide_ghost u
    · rw [(pr.marks u).1, htable, condemn, hide_table, if_neg hu]
    · rw [hval u huv hu, d.value u hu (by rw [condemn, hide_ghost, if_neg huv]; exact hg), condemn,
        hide_value]
      rfl
  have hgone : ∀ u ∈ ({v} : Finset ℕ), sb.mem u ∧ (u = v ∨ isGhost sb u = true) := by
    intro u hu
    rw [Finset.mem_singleton] at hu
    exact ⟨hu ▸ hv, Or.inl hu⟩
  have hmem : (fun u => u ≠ v ∧ sb.mem u) = fun u => u ∉ ({v} : Finset ℕ) ∧ sb.mem u :=
    funext fun u => by rw [Finset.mem_singleton]
  refine ⟨_, sb₁, sb', hrun, hchild ▸ hpromote,
    r.tidy h hv0 hgone (hmem ▸ hs) fun u hu hum hg => ?_, r⟩
  rw [Finset.mem_singleton] at hu
  rw [r.ghost, if_neg hu] at hg
  rw [pr.counts u hu, hcounts]
  exact h.ghosts u hum hg

theorem Removed.release {gone : Finset ℕ} (r : Removed sb sb' v gone) (hv : v ∉ gone)
    (hvalue : ∀ u, u ≠ v → sb.mem u → isGhost sb u = false →
      (release sb' v).value u = sb'.value u) :
    Removed sb (release sb' v) v (insert v gone) := by
  refine ⟨r.count, ?_, fun u => ?_, fun u => ?_, fun u hu => ?_, r.orgdata, fun u huv hu hg => ?_⟩
  · change sb'.activeCount - 1 = _
    rw [r.active, Finset.card_insert_of_notMem hv, Nat.sub_sub]
  · rw [release_table]
    change (if u = v then false else (sb'.table u).used) = _
    by_cases hu : u = v
    · rw [if_pos hu, if_pos (Finset.mem_insert.mpr (Or.inl hu))]
    · rw [if_neg hu, r.used]
      by_cases hug : u ∈ gone
      · rw [if_pos hug, if_pos (Finset.mem_insert_of_mem hug)]
      · rw [if_neg hug, if_neg fun hin => (Finset.mem_insert.mp hin).elim hu hug]
  · rw [isGhost, release_table]
    exact r.ghost u
  · rw [release_table]
    exact r.tag u hu
  · rw [hvalue u huv hu hg, r.value u huv hu hg]

/-- A target without children leaves the table, and its parent with it when that is a ghost with
one child left. -/
theorem delete_leaves (h : Tidy sb) (hv : sb.mem v) (hv0 : v ≠ 0) (hleaf : sb.kids v = []) :
    ∃ promote sb₁ sb₂ gone, deleteElements (leave (condemn sb v) v) v (getParent sb v) =
        some (promote, sb₁) ∧
      (if promote then promoteChild sb₁ (getChild sb₁ (getParent sb v) 0) else some sb₁) =
        some sb₂ ∧
      freeVersion sb₂ v = some (release sb₂ v) ∧ Tidy (release sb₂ v) ∧
      Removed sb (release sb₂ v) v gone ∧
      ∀ u ∈ gone, sb.mem u ∧ (u = v ∨ isGhost sb u = true) := by
  set p := getParent sb v with hp
  obtain ⟨hpm, -⟩ := h.shape.tree.up v hv hv0
  have hpv : p ≠ v := h.shape.tree.parent_ne hv hv0
  have hd := leave_deletable h hv hv0 hleaf
  obtain ⟨sb₁, hrun, d⟩ := deleteElements_spec hd
  obtain ⟨htable, hcount, hactive, horg, hcounts, hkids⟩ := d.frame
  have hs := d.settled hd h.order
  have hghost₁ : ∀ u, isGhost sb₁ u = if u = v then true else isGhost sb u := by
    intro u
    rw [isGhost, htable, leave_table]
    exact hide_ghost u
  have hchildren : ∀ u, sb₁.childCount u =
      Function.update sb.childCount p (sb.childCount p - 1) u := by
    intro u
    rw [hcounts]
    change Function.update _ (getParent (condemn sb v) v) _ u = _
    rw [condemn, hide_parent]
    rfl
  have r₁ : Removed sb sb₁ v ∅ := by
    refine ⟨hcount, hactive, fun u => ?_, hghost₁, fun u hu => ?_, horg, fun u huv hu hg => ?_⟩
    · rw [htable, leave_table, condemn, hide_table, if_neg (Finset.notMem_empty u)]
    · rw [htable, leave_table, condemn, hide_table, if_neg hu]
    · have hg' : isGhost (leave (condemn sb v) v) u = false := by
        rw [isGhost, leave_table]
        exact (hide_ghost u).trans ((if_neg huv).trans hg)
      rw [d.value u ⟨huv, hu⟩ hg']
      exact (value_grow hd.shape.tree h.shape.tree (fun x hx => hx.2)
        (fun x hx _ => by rw [leave_parent hx.1]) ⟨huv, hu⟩).symm
  have hM : ∀ gone : Finset ℕ, v ∉ gone → ∀ u, u ∉ insert v gone ∧ sb.mem u ↔
      u ∉ gone ∧ u ≠ v ∧ sb.mem u := by
    intro gone _ u
    rw [Finset.mem_insert, not_or, and_comm (a := u ≠ v), and_assoc]
  have hnot : ¬ (v ≠ v ∧ sb.mem v) := fun hand => hand.1 rfl
  have hused : (sb₁.table v).used = true := by
    rw [r₁.used, if_neg (Finset.notMem_empty v)]
    exact hv.2
  by_cases hpromote : p ≠ 0 ∧ isGhost (leave (condemn sb v) v) p = true ∧
      (leave (condemn sb v) v).childCount p = 1
  · obtain ⟨hp0, hg₂, hone⟩ := hpromote
    have hg₁ : isGhost sb₁ p = true := by
      rw [isGhost, htable]
      exact hg₂
    have hg : isGhost sb p = true := by
      rwa [hghost₁, if_neg hpv] at hg₁
    have honly : sb₁.kids p = [getChild sb₁ p 0] := by
      rw [Sb.kids, hcounts, hone]
      rfl
    have hl : p ∉ sb₁.labels := by
      refine d.unlabelled p (Or.inr ⟨rfl, hg₂⟩) hone.le fun y hy heq => ?_
      rcases hy with rfl | ⟨rfl, -⟩
      · rw [hd.shape.childless hnot] at heq
        cases heq
      · obtain ⟨hpm', hp0', hpp, -⟩ := hd.shape.kid (show p ∈ Sb.kids _ p by
          rw [heq]
          exact List.mem_cons_self)
        exact hd.shape.tree.parent_ne hpm' hp0' hpp
    obtain ⟨sb₂, hrun₂, hs₂, pr, hval₂⟩ := hs.promote ⟨hpv, hpm⟩ hp0 hg₁ hl honly
    have hvp : v ∉ ({p} : Finset ℕ) := fun hin => hpv (Finset.mem_singleton.mp hin).symm
    have r₂ : Removed sb sb₂ v {p} := by
      refine ⟨pr.count.trans hcount, ?_, fun u => ?_, fun u => ?_, fun u hu => ?_,
        pr.orgdata.trans horg, fun u huv hu hgu => ?_⟩
      · rw [pr.active, r₁.active, Finset.card_singleton]
        rfl
      · rw [pr.used, r₁.used, if_neg (Finset.notMem_empty u)]
        simp only [Finset.mem_singleton]
      · rw [isGhost, (pr.marks u).2.1]
        exact hghost₁ u
      · rw [(pr.marks u).1, r₁.tag u hu]
      · have hup : u ≠ p := by
          rintro rfl
          rw [hg] at hgu
          cases hgu
        rw [hval₂ u hup ⟨huv, hu⟩, r₁.value u huv hu hgu]
    obtain ⟨hs', hval⟩ := hs₂.release fun hand : v ≠ p ∧ v ≠ v ∧ sb.mem v => hand.2.1 rfl
    have r := r₂.release hvp fun u huv hu hgu => by
      have hup : u ≠ p := by
        rintro rfl
        rw [hg] at hgu
        cases hgu
      exact hval u ⟨hup, huv, hu⟩
    have hgone : ∀ u ∈ insert v ({p} : Finset ℕ), sb.mem u ∧ (u = v ∨ isGhost sb u = true) := by
      intro u hu
      rw [Finset.mem_insert, Finset.mem_singleton] at hu
      rcases hu with rfl | rfl
      · exact ⟨hv, Or.inl rfl⟩
      · exact ⟨hpm, Or.inr hg⟩
    have hmem : (fun u => u ≠ p ∧ u ≠ v ∧ sb.mem u) =
        fun u => u ∉ insert v ({p} : Finset ℕ) ∧ sb.mem u :=
      funext fun u => propext (by rw [hM {p} hvp u, Finset.mem_singleton])
    refine ⟨_, sb₁, sb₂, _, hrun, ?_, if_pos ?_, r.tidy h hv0 hgone (hmem ▸ hs')
      fun u hu hum hgu => ?_, r, hgone⟩
    · rw [decide_eq_true ⟨hp0, hg₂, hone⟩]
      exact hrun₂
    · rw [r₂.used, if_neg hvp]
      exact hv.2
    · rw [Finset.mem_insert, Finset.mem_singleton, not_or] at hu
      rw [r.ghost, if_neg hu.1] at hgu
      change 2 ≤ sb₂.childCount u
      rw [pr.counts u hu.2, hchildren, Function.update_of_ne hu.2]
      exact h.ghosts u hum hgu
  · obtain ⟨hs', hval⟩ := hs.release hnot
    have r := r₁.release (Finset.notMem_empty v) fun u huv hu _ => hval u ⟨huv, hu⟩
    have hgone : ∀ u ∈ insert v (∅ : Finset ℕ), sb.mem u ∧ (u = v ∨ isGhost sb u = true) := by
      intro u hu
      rw [Finset.mem_insert, or_iff_left (Finset.notMem_empty u)] at hu
      exact ⟨hu ▸ hv, Or.inl hu⟩
    have hmem : (fun u => u ≠ v ∧ sb.mem u) = fun u => u ∉ insert v (∅ : Finset ℕ) ∧ sb.mem u :=
      funext fun u => propext (((hM ∅ (Finset.notMem_empty v) u).trans
        (and_iff_right (Finset.notMem_empty u))).symm)
    refine ⟨_, sb₁, sb₁, _, hrun, ?_, if_pos hused, r.tidy h hv0 hgone (hmem ▸ hs')
      fun u hu hum hg => ?_, r, hgone⟩
    · rw [decide_eq_false hpromote]
      rfl
    · rw [Finset.mem_insert, or_iff_left (Finset.notMem_empty u)] at hu
      rw [r.ghost, if_neg hu] at hg
      have htwo := h.ghosts u hum hg
      change 2 ≤ sb₁.childCount u
      by_cases hup : u = p
      · have hp0 : p ≠ 0 := by
          rintro heq
          rw [hup, heq, h.origin] at hg
          cases hg
        have hne : sb₁.childCount p ≠ 1 := fun hone => hpromote ⟨hp0, by
          rw [isGhost, ← htable]
          exact (hghost₁ p).trans ((if_neg hpv).trans (hup ▸ hg)), by rw [← hcounts, hone]⟩
        rw [hup] at htwo ⊢
        rw [hchildren, Function.update_self] at hne ⊢
        omega
      · rw [hchildren, Function.update_of_ne hup]
        exact htwo

/-- A deletion keeps what the other snapshots read. -/
theorem snapshotDelete_spec (h : Tidy sb) (hd : sb.distinct) (hv : sb.snapshot v tag) :
    ∃ sb', snapshotDelete sb tag = some sb' ∧ Tidy sb' ∧ sb'.distinct ∧ sb'.orgdata = sb.orgdata ∧
      ∀ t x, sb'.reads t x ↔ t ≠ tag ∧ sb.reads t x := by
  have hparent : getParent (condemn sb v) v = getParent sb v := congrFun hide_parent v
  have hfinish : ∀ {sb' : Sb} {gone : Finset ℕ}, Tidy sb' → Removed sb sb' v gone →
      (∀ u ∈ gone, sb.mem u ∧ (u = v ∨ isGhost sb u = true)) → Tidy sb' ∧ sb'.distinct ∧
        sb'.orgdata = sb.orgdata ∧ ∀ t x, sb'.reads t x ↔ t ≠ tag ∧ sb.reads t x :=
    fun h' r hgone => ⟨h', r.distinct hgone hd, r.orgdata, r.reads_iff hgone hd hv⟩
  rw [snapshotDelete, h.findTag hd hv]
  simp only [Option.bind_eq_bind, Option.bind_some]
  split
  · next hcount =>
      have hleaf : sb.kids v = [] := List.length_eq_zero_iff.mp ((kids_length sb v).trans hcount)
      obtain ⟨promote, sb₁, sb₂, gone, hrun, hpromote, hfree, h', r, hgone⟩ :=
        delete_leaves h hv.1 hv.2.1 hleaf
      refine ⟨release sb₂ v, ?_, hfinish h' r hgone⟩
      have hremove : removeChild (condemn sb v) v = some (detach (condemn sb v) v) := by
        refine removeChild_eq ?_
        exact ((condemn_deletable h hv.1 hv.2.1).shape.kids.mem_iff _ _).mpr ⟨hv.1, hv.2.1, rfl⟩
      change ((removeChild (condemn sb v) v).bind _) = _
      rw [hremove, Option.bind_some]
      change ((deleteElements (leave (condemn sb v) v) v (getParent (condemn sb v) v)).bind _) = _
      rw [hparent, hrun, Option.bind_some]
      cases promote with
      | true =>
          change promoteChild sb₁ (getChild sb₁ (getParent sb v) 0) = some sb₂ at hpromote
          change ((promoteChild sb₁ (getChild sb₁ (getParent (condemn sb v) v) 0)).bind _) = _
          rw [hparent, hpromote]
          exact hfree
      | false =>
          cases hpromote
          exact hfree
  · next hcount =>
      obtain ⟨c, honly⟩ : ∃ c, sb.kids v = [c] :=
        List.length_eq_one_iff.mp ((kids_length sb v).trans hcount)
      obtain ⟨promote, sb₁, sb', hrun, hpromote, h', r⟩ := delete_replaced h hv.1 hv.2.1 honly
      refine ⟨sb', ?_, hfinish h' r fun u hu => ?_⟩
      · change ((deleteElements (condemn sb v) v (getParent (condemn sb v) v)).bind _) = _
        rw [hparent, hrun]
        exact hpromote
      · rw [Finset.mem_singleton] at hu
        exact ⟨hu ▸ hv.1, Or.inl hu⟩
  · next hzero hone =>
      have htwo : 2 ≤ sb.childCount v := by
        have h₀ : sb.childCount v ≠ 0 := hzero
        have h₁ : sb.childCount v ≠ 1 := hone
        omega
      obtain ⟨promote, sb', hrun, h', r⟩ := delete_stays h hv.1 hv.2.1 htwo
      refine ⟨sb', ?_, hfinish h' r fun u hu => absurd hu (Finset.notMem_empty u)⟩
      change ((deleteElements (condemn sb v) v (getParent (condemn sb v) v)).bind _) = _
      rw [hparent, hrun]
      rfl

end

end Tux3.Version
