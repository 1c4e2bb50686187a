import Tux3.VersionSweep

/-!
# What a deletion leaves

After `delete_elements` the labels are versions of the tree, every ghost that is labelled has an
heir, and the visible versions read what they read.
-/
namespace Tux3.Version

open Rooted

/-- What a deletion starts from: the target is a ghost, which may have left the tree, and only
ghosts it inherited from can be without heirs. -/
structure Deletable (sb : Sb) (mem : ℕ → Prop) (target parent : ℕ) : Prop where
  shape : Shape sb mem sb.ordmap
  clear : ∀ v, (sb.table v).present = false
  nodup : sb.labels.Nodup
  store : Store sb
  brood : ∀ v, sb.brood v = 0
  place : ∀ v ∈ sb.labels, v ≠ 0 ∧ (mem v ∨ v = target)
  target_ne : target ≠ 0
  ghost : isGhost sb target = true
  gone : ¬ mem target → getParent sb target = 0
  parent_mem : mem parent
  heirs : ∀ v ∈ sb.labels, isGhost sb v = true → v ≠ target → (∃ w, Heir sb mem sb.labels v w) ∨
    target ∉ sb.labels ∧ (parent = v ∨ Inherits 0 (getParent sb) (· ∈ sb.labels) v parent)

/-- What a deletion leaves. -/
structure Deleted (sb : Sb) (mem : ℕ → Prop) (target parent : ℕ) (sb' : Sb) : Prop where
  same : ∃ es allocmap brood, sb' = { sb with
    elements := es
    allocmap := allocmap
    brood := brood }
  nodup : sb'.labels.Nodup
  store : Store sb'
  place : ∀ v ∈ sb'.labels, v ≠ 0 ∧ mem v
  heirs : ∀ v ∈ sb'.labels, isGhost sb v = true → ∃ w, Heir sb mem sb'.labels v w
  value : ∀ v, mem v → isGhost sb v = false → sb'.value v = sb.value v
  unlabelled : ∀ v, v = target ∨ v = parent ∧ isGhost sb parent = true → sb.childCount v ≤ 1 →
    (∀ y, y = target ∨ y = parent ∧ isGhost sb parent = true → sb.kids y ≠ [v]) → v ∉ sb'.labels

section
variable {sb : Sb} {mem : ℕ → Prop} {depth : ℕ → ℕ} {target parent : ℕ} {kill : Option Element}
  {v w : ℕ}

/-! ## The elements that remain -/

theorem Sweepable.mem_labels (h : Sweepable sb mem target parent kill depth) :
    v ∈ (swept sb mem target parent kill sb.elements).map Element.label ↔
      (v ∈ sb.labels ∧ ¬ Drop sb mem target parent kill v ∧ ¬ Pass sb mem target parent v) ∨
        ∃ y, Pass sb mem target parent y ∧ v = getChild sb y 0 := by
  have hcur := @Sweepable.mem_current _ _ _ _ _ _ sb.elements [] v h (List.append_nil _).symm
  rw [List.map_nil, List.append_nil] at hcur
  have hd : ∀ u, Drop sb mem target parent kill u ∧ u ∈ sb.elements.map Element.label ↔
      Drop sb mem target parent kill u := fun u => and_iff_left_of_imp fun hd => hd.1
  have hp : ∀ u, Pass sb mem target parent u ∧ u ∈ sb.elements.map Element.label ↔
      Pass sb mem target parent u := fun u => and_iff_left_of_imp fun hp => hp.1
  simp only [hd, hp] at hcur
  exact hcur

theorem Sweepable.prune (h : Sweepable sb mem target parent kill depth) :
    Pruned 0 mem (getParent sb) (fun w => isGhost sb w = false) (Drop sb mem target parent kill)
      (Pass sb mem target parent) (fun y => getChild sb y 0) (· ∈ sb.labels)
      (· ∈ (swept sb mem target parent kill sb.elements).map Element.label) := by
  have hd : ∀ u, Drop sb mem target parent kill u ∧ u ∈ sb.labels ↔
      Drop sb mem target parent kill u := fun u => and_iff_left_of_imp fun hd => hd.1
  have hp : ∀ u, Pass sb mem target parent u ∧ u ∈ sb.labels ↔
      Pass sb mem target parent u := fun u => and_iff_left_of_imp fun hp => hp.1
  have hprune := @Sweepable.pruned sb mem depth target parent kill h sb.labels
    (· ∈ (swept sb mem target parent kill sb.elements).map Element.label) fun v => by
      rw [hd, h.mem_labels]
      simp only [hp]
  simp only [hd, hp] at hprune
  exact hprune

theorem swept_chunks (es : List Element) : ((swept sb mem target parent kill es).map
    Element.chunk).Sublist (es.map Element.chunk) := by
  induction es with
  | nil => exact List.Sublist.refl []
  | cons e es ih =>
      rw [swept, List.filterMap_cons, List.map_cons]
      cases hr : remains sb mem target parent kill e with
      | none => exact ih.cons _
      | some e' =>
          rw [← remains_chunk hr]
          exact ih.cons_cons _

theorem Sweepable.labels_nodup (h : Sweepable sb mem target parent kill depth) :
    ((swept sb mem target parent kill sb.elements).map Element.label).Nodup := by
  rw [List.Nodup, List.pairwise_map, swept, List.pairwise_filterMap]
  refine (List.pairwise_map.mp h.nodup).imp_of_mem fun {e₁ e₂} h₁ h₂ hne k₁ hk₁ k₂ hk₂ heq => ?_
  have hl₁ : e₁.label ∈ sb.labels := List.mem_map.mpr ⟨e₁, h₁, rfl⟩
  have hl₂ : e₂.label ∈ sb.labels := List.mem_map.mpr ⟨e₂, h₂, rfl⟩
  obtain ⟨-, ⟨-, rfl⟩ | ⟨hp₁, rfl⟩⟩ := remains_some.mp hk₁
  · obtain ⟨-, ⟨-, rfl⟩ | ⟨hp₂, rfl⟩⟩ := remains_some.mp hk₂
    · exact hne heq
    · refine (h.only hp₂).2 ?_
      rwa [← show k₁.label = getChild sb e₂.label 0 from heq]
  · obtain ⟨-, ⟨-, rfl⟩ | ⟨hp₂, rfl⟩⟩ := remains_some.mp hk₂
    · refine (h.only hp₁).2 ?_
      rwa [show getChild sb e₁.label 0 = k₂.label from heq]
    · have hparent := (h.prune.passes _ hp₁).2.2.2.1.symm.trans
        ((congrArg (getParent sb) heq).trans (h.prune.passes _ hp₂).2.2.2.1)
      exact hne hparent

theorem Sweepable.labels_mem (h : Sweepable sb mem target parent kill depth)
    (hv : v ∈ (swept sb mem target parent kill sb.elements).map Element.label) :
    v ≠ 0 ∧ mem v := by
  rcases h.mem_labels.mp hv with ⟨hl, hd, -⟩ | ⟨y, hy, rfl⟩
  · obtain ⟨hv0, hm | rfl⟩ := h.place v hl
    · exact ⟨hv0, hm⟩
    · refine ⟨hv0, ?_⟩
      by_contra hm
      refine hd ⟨hl, Or.inl rfl, fun w hw => ?_⟩
      obtain ⟨c, hc, -⟩ := hw.through h.shape
      rw [h.shape.childless hm] at hc
      cases hc
  · obtain ⟨hc, hc0, -⟩ := h.shape.kid (show getChild sb y 0 ∈ sb.kids y by
      rw [(h.only hy).1]
      exact List.mem_cons_self)
    exact ⟨hc0, hc⟩

theorem Sweepable.unlabelled (h : Sweepable sb mem target parent kill depth)
    (hv : v = target ∨ v = parent) (hcount : sb.childCount v ≤ 1)
    (hnot : ∀ y, y ≠ 0 → y = target ∨ y = parent → sb.kids y ≠ [v]) :
    v ∉ (swept sb mem target parent kill sb.elements).map Element.label := by
  intro hin
  rcases h.mem_labels.mp hin with ⟨hl, hd, hp⟩ | ⟨y, hy, rfl⟩
  · have hex : ∃ w, Heir sb mem sb.labels v w := by
      by_contra hno
      exact hd ⟨hl, hv.imp_right Or.inl, not_exists.mp hno⟩
    refine hp ⟨hl, hv, ?_, hex⟩
    obtain ⟨w, hw⟩ := hex
    obtain ⟨c, hc, -⟩ := hw.through h.shape
    have hpos := List.length_pos_of_mem hc
    rw [kids_length] at hpos
    omega
  · exact hnot y (h.place y hy.1).1 hy.2.1 (h.only hy).1

/-- Ghosts that keep their element have an heir. -/
theorem Sweepable.heirs (h : Sweepable sb mem target parent kill depth)
    (hleft : ∀ v ∈ sb.labels, isGhost sb v = true → (∃ w, Heir sb mem sb.labels v w) ∨
      v = target ∨ ∃ e, kill = some e ∧ e.label = v)
    (hv : v ∈ (swept sb mem target parent kill sb.elements).map Element.label)
    (hg : isGhost sb v = true) :
    ∃ w, Heir sb mem ((swept sb mem target parent kill sb.elements).map Element.label) v w := by
  rcases h.mem_labels.mp hv with ⟨hl, hd, hp⟩ | ⟨y, hy, rfl⟩
  · have hex : ∃ w, Heir sb mem sb.labels v w := by
      rcases hleft v hl hg with hex | ht | hk
      · exact hex
      · by_contra hno
        exact hd ⟨hl, Or.inl ht, not_exists.mp hno⟩
      · by_contra hno
        exact hd ⟨hl, Or.inr (Or.inr hk), not_exists.mp hno⟩
    obtain ⟨w, hw, hwg, hin⟩ := hex
    exact ⟨w, hw, hwg, (h.prune.inherits_iff h.shape.tree hw hwg hp).mpr hin⟩
  · obtain ⟨w, hw, hwg, hin⟩ := hy.2.2.2
    rcases h.prune.heirs_pass h.shape.tree hw hy hin with rfl | hin
    · rw [hg] at hwg
      cases hwg
    · exact ⟨w, hw, hwg, hin⟩

/-- A visible version reads from the elements that remain what it read before. -/
theorem Sweepable.value_eq {sb' : Sb} (h : Sweepable sb mem target parent kill sb.ordmap)
    (helements : sb'.elements = swept sb mem target parent kill sb.elements)
    (hdata : sb'.snapdata = sb.snapdata) (hparent : getParent sb' = getParent sb)
    (hord : sb'.ordmap = sb.ordmap) (horg : sb'.orgdata = sb.orgdata) (hw : mem w)
    (hg : isGhost sb w = false) : sb'.value w = sb.value w := by
  have hlabels : sb'.labels = (swept sb mem target parent kill sb.elements).map Element.label := by
    rw [Sb.labels, helements]
  have hnodup : sb'.labels.Nodup := hlabels ▸ h.labels_nodup
  have hfound : ∀ e e', e ∈ sb.elements → remains sb mem target parent kill e = some e' →
      sb'.datum e'.label = sb.datum e.label := by
    intro e e' he hr
    have he' : e' ∈ sb'.elements := helements ▸ mem_swept.mpr ⟨e, he, hr⟩
    rw [datum_eq hnodup he', datum_eq h.nodup he, hdata, remains_chunk hr]
  rw [Sb.value, Sb.value, hparent, hord, horg]
  refine h.prune.value_eq h.shape.tree (fun v => by rw [Ne, datum_none, not_not])
    (fun v hd hp hno => ?_) (fun y hy => ?_) hw hg
  · by_cases hv : v ∈ sb.labels
    · obtain ⟨e, he, rfl⟩ := Version.mem_labels.mp hv
      exact hfound e e he (remains_some.mpr ⟨hd, Or.inl ⟨hp, rfl⟩⟩)
    · rw [datum_none.mpr hv, datum_none, hlabels, h.mem_labels]
      rintro (⟨hl, -⟩ | ⟨y, hy, heq⟩)
      · exact hv hl
      · exact hno y hy heq
  · obtain ⟨e, he, rfl⟩ := Version.mem_labels.mp hy.1
    exact hfound e _ he (remains_some.mpr ⟨fun hd => hd.not_pass hy, Or.inr ⟨hy, rfl⟩⟩)

/-! ## `delete_elements` -/

/-- The orphan is the nearest labelled ghost, when it has no heirs. -/
theorem findOrphan_spec (h : Shape sb mem depth) (hp : mem parent)
    (hlabel : ∀ x ∈ sb.labels, x ≠ 0) (allocmap : ℕ → Bool) :
    ∃ kill, findOrphan (sb.marked (fun v => decide (v ∈ sb.labels)) allocmap) target parent =
        some kill ∧
      (∀ e, kill = some e → e ∈ sb.elements ∧ mem e.label ∧ isGhost sb e.label = true ∧
        ∀ w, ¬ Heir sb mem sb.labels e.label w) ∧
      (target ∉ sb.labels → ∀ x ∈ sb.labels, isGhost sb x = true →
        parent = x ∨ Inherits 0 (getParent sb) (· ∈ sb.labels) x parent →
        (∀ w, ¬ Heir sb mem sb.labels x w) → ∃ e, kill = some e ∧ e.label = x) := by
  have hpresent : ∀ v, isPresent (sb.marked (fun v => decide (v ∈ sb.labels)) allocmap) v = true ↔
      v ∈ sb.labels := fun v => decide_eq_true_iff
  rw [findOrphan]
  by_cases ht : target ∈ sb.labels
  · rw [if_pos ((hpresent target).mpr ht)]
    exact ⟨none, rfl, fun e he => (nomatch he), fun hnot => absurd ht hnot⟩
  · rw [if_neg (mt (hpresent target).mp ht)]
    obtain ⟨a, ha, ham, hup, huniq⟩ := @presentAncestor_spec
      (sb.marked (fun v => decide (v ∈ sb.labels)) allocmap) mem depth parent h.tree sb.labels
      hpresent hp maxVersions (Nat.le_of_lt (h.depth_lt hp))
    simp only [ha, Option.bind_eq_bind, Option.bind_some]
    by_cases hcond : a ≠ 0 ∧ isGhost sb a = true ∧ a ∈ sb.labels
    · obtain ⟨m, hcount, hzero, -⟩ := @countHeirs_spec _ _ _ _ h sb.labels allocmap ham
      rw [if_pos ⟨hcond.1, hcond.2.1, (hpresent a).mpr hcond.2.2⟩, hcount, Option.bind_some]
      by_cases hm : m = 0
      · rw [if_pos hm]
        obtain ⟨e, he⟩ := findElement_isSome.mpr hcond.2.2
        obtain ⟨hmem, rfl⟩ := findElement_some he
        refine ⟨some e, congrArg some he, fun k hk => ?_, fun _ x hx _ hin _ => ?_⟩
        · cases hk
          exact ⟨hmem, ham, hcond.2.1, hzero.mp hm⟩
        · exact ⟨e, rfl, (huniq x hx hin).symm⟩
      · rw [if_neg hm]
        refine ⟨none, rfl, fun e he => (nomatch he), fun _ x hx _ hin hno => ?_⟩
        exact absurd (hzero.mpr (huniq x hx hin ▸ hno)) hm
    · rw [if_neg fun hc => hcond ⟨hc.1, hc.2.1, (hpresent a).mp hc.2.2⟩]
      refine ⟨none, rfl, fun e he => (nomatch he), fun _ x hx hg hin _ => ?_⟩
      obtain rfl := huniq x hx hin
      exact absurd ⟨hlabel x hx, hg, hx⟩ hcond

theorem deleteElements_spec (h : Deletable sb mem target parent) :
    ∃ sb', deleteElements sb target parent =
        some (decide (parent ≠ 0 ∧ isGhost sb parent = true ∧ sb.childCount parent = 1), sb') ∧
      Deleted sb mem target parent sb' := by
  set sb₁ : Sb := { sb with
    brood := sb.elements.foldl (fun brood e =>
      Function.update brood (getParent sb e.label) (brood (getParent sb e.label) + 1)) sb.brood }
    with hsb₁
  have hshape₁ : Shape sb₁ mem sb₁.ordmap :=
    h.shape.congr rfl rfl rfl rfl rfl rfl fun _ => ⟨rfl, rfl, id, id⟩
  have hmark : setPresent sb₁ true = sb₁.marked (fun v => decide (v ∈ sb₁.labels)) sb₁.allocmap :=
    setPresent_true h.clear
  obtain ⟨kill, hkill, hkillspec, horphan⟩ := @findOrphan_spec sb₁ mem sb₁.ordmap target parent
    hshape₁ h.parent_mem (fun x hx => (h.place x hx).1) sb₁.allocmap
  set p := if isGhost sb parent = true then parent else 0 with hp
  have hp0 : p = 0 ∨ mem p ∧ isGhost sb p = true := by
    rw [hp]
    split
    · next hg => exact Or.inr ⟨h.parent_mem, hg⟩
    · exact Or.inl rfl
  have hsweepable : Sweepable sb₁ mem target p kill sb₁.ordmap := by
    refine ⟨hshape₁, h.nodup, h.store.nodup, h.place, h.target_ne, h.ghost, h.gone, hp0,
      fun v _ => ?_, hkillspec⟩
    exact (brood_eq _ _ _ v).trans (by rw [h.brood, Nat.zero_add]; rfl)
  obtain ⟨allocmap, hsweep, halloc⟩ := hsweepable.sweep (List.nil_append sb₁.elements).symm
    sb₁.allocmap fun e he => (h.store.alloc e.chunk).mpr (List.mem_map.mpr ⟨e, he, rfl⟩)
  set kept := swept sb₁ mem target p kill sb₁.elements with hkept
  have hclear := @setPresent_false sb₁ h.clear (fun v => decide (v ∈ kept.map Element.label))
    allocmap kept fun v hv => of_decide_eq_true hv
  have hrun : sweep target p kill (sb₁.marked (fun v => decide (v ∈ sb₁.labels)) sb₁.allocmap)
      sb₁.elements =
        some (kept, sb₁.marked (fun v => decide (v ∈ kept.map Element.label)) allocmap) := hsweep
  have hchunk : (kept.map Element.chunk).Sublist (sb.elements.map Element.chunk) :=
    swept_chunks sb₁.elements
  refine ⟨{ sb with
    elements := kept
    allocmap := allocmap
    brood := kept.foldl (fun brood e => Function.update brood (getParent sb e.label) 0)
      sb₁.brood }, ?_, ⟨_, _, _, rfl⟩, hsweepable.labels_nodup,
    ⟨h.store.nodup.sublist hchunk, fun chunk => ?_, fun chunk hc => ?_, h.store.next⟩,
    fun v hv => hsweepable.labels_mem hv, fun v hv hg => hsweepable.heirs (fun v hl hg => ?_) hv hg,
    fun v hv hg => hsweepable.value_eq rfl rfl rfl rfl rfl hv hg, fun v hv hcount hnot => ?_⟩
  · change (findOrphan (setPresent sb₁ true) target parent >>= _) = _
    rw [hmark, hkill]
    change (sweep target p kill _ sb₁.elements >>= _) = _
    rw [hrun]
    simp only [Option.bind_eq_bind, Option.bind_some, hclear]
    refine congrArg some (Prod.ext ?_ rfl)
    change (decide (p ≠ 0) && sb.childCount p == 1) = _
    rw [Bool.eq_iff_iff, Bool.and_eq_true, decide_eq_true_iff, beq_iff_eq, decide_eq_true_iff, hp]
    by_cases hg : isGhost sb parent = true
    · rw [if_pos hg, and_iff_right hg]
    · rw [if_neg hg]
      exact ⟨fun hc => absurd rfl hc.1, fun hc => absurd hc.2.1 hg⟩
  · rw [halloc, h.store.alloc]
    exact ⟨fun hc => hc.2 hc.1, fun hc => ⟨hchunk.mem hc, fun _ => hc⟩⟩
  · exact h.store.lt chunk ((halloc chunk).mp hc).1
  · by_cases ht : v = target
    · exact Or.inr (Or.inl ht)
    · rcases h.heirs v hl hg ht with hex | ⟨htl, hin⟩
      · exact Or.inl hex
      · by_cases hex : ∃ w, Heir sb₁ mem sb₁.labels v w
        · exact Or.inl hex
        · exact Or.inr (Or.inr (horphan htl v hl hg hin (not_exists.mp hex)))
  · refine hsweepable.unlabelled ?_ hcount fun y hy0 hy => ?_
    · rcases hv with hv | ⟨hv, hg⟩
      · exact Or.inl hv
      · exact Or.inr (hv.trans (if_pos hg).symm)
    · rcases hy with hy | hy
      · exact hnot y (Or.inl hy)
      · have hg : isGhost sb parent = true := by
          by_contra hg
          exact hy0 (hy.trans (if_neg hg))
        exact hnot y (Or.inr ⟨hy.trans (if_pos hg), hg⟩)

end

end Tux3.Version
