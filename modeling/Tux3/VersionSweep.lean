import Tux3.VersionElements

/-!
# Deleting elements

`delete_elements` drops the elements of the target, of its ghost parent and of one ghost ancestor
when they have no heirs left, and passes an element on to an only child. What it decides for an
element does not depend on what it did before, and every visible version reads what it read.
-/
namespace Tux3.Version

open Rooted

section
variable (sb : Sb) (mem : ℕ → Prop) (target parent : ℕ) (kill : Option Element)

/-- The labels whose elements are dropped. -/
def Drop (v : ℕ) : Prop :=
  v ∈ sb.labels ∧ (v = target ∨ v = parent ∨ ∃ e, kill = some e ∧ e.label = v) ∧
    ∀ w, ¬ Heir sb mem sb.labels v w

/-- The labels whose elements go to the only child. -/
def Pass (v : ℕ) : Prop :=
  v ∈ sb.labels ∧ (v = target ∨ v = parent) ∧ sb.childCount v = 1 ∧ ∃ w, Heir sb mem sb.labels v w

open Classical in
/-- What remains of an element. -/
noncomputable def remains (e : Element) : Option Element :=
  if Drop sb mem target parent kill e.label then none
  else if Pass sb mem target parent e.label then some ⟨getChild sb e.label 0, e.chunk⟩
  else some e

/-- The elements that remain of a list. -/
noncomputable def swept (es : List Element) : List Element :=
  es.filterMap (remains sb mem target parent kill)

/-- What the sweep relies on: the target is a ghost, which may have left the tree, and the other
element to drop has no heirs. -/
structure Sweepable (depth : ℕ → ℕ) : Prop where
  shape : Shape sb mem depth
  nodup : sb.labels.Nodup
  chunks : (sb.elements.map Element.chunk).Nodup
  place : ∀ u ∈ sb.labels, u ≠ 0 ∧ (mem u ∨ u = target)
  target_ne : target ≠ 0
  ghost : isGhost sb target = true
  gone : ¬ mem target → getParent sb target = 0
  parent_ghost : parent = 0 ∨ mem parent ∧ isGhost sb parent = true
  brood : ∀ v, v ≠ 0 → sb.brood v = (sb.labels.filter fun u => getParent sb u = v).length
  kill_ghost : ∀ e, kill = some e → e ∈ sb.elements ∧ mem e.label ∧ isGhost sb e.label = true ∧
    ∀ w, ¬ Heir sb mem sb.labels e.label w

end

section
variable {sb : Sb} {mem : ℕ → Prop} {depth : ℕ → ℕ} {target parent : ℕ} {kill : Option Element}
  {done es : List Element} {e : Element} {v w : ℕ}

theorem Heir.through (h : Shape sb mem depth) {labels : List ℕ} (hw : Heir sb mem labels v w) :
    ∃ c ∈ sb.kids v, c ∉ labels ∧ (w = c ∨ Heir sb mem labels c w) := by
  obtain ⟨hwm, hwg, hin⟩ := hw
  obtain ⟨c, hc, hc0, hcp, hcl, heq⟩ := (inherits_through h.tree hwm).mp hin
  exact ⟨c, (h.kids.mem_iff v c).mpr ⟨hc, hc0, hcp⟩, hcl, heq.imp_right fun hin => ⟨hwm, hwg, hin⟩⟩

theorem Sweepable.brood_spec (h : Sweepable sb mem target parent kill depth) (hv : v ≠ 0) :
    sb.brood v ≤ sb.childCount v ∧ (sb.childCount v = sb.brood v → ∀ c ∈ sb.kids v, c ∈ sb.labels) ∧
      (sb.brood v = 0 → ∀ c ∈ sb.kids v, c ∉ sb.labels) := by
  rw [h.brood v hv]
  refine Version.brood_spec h.shape h.nodup fun u hu hp => ?_
  obtain ⟨hu0, hm | rfl⟩ := h.place u hu
  · exact (h.shape.kids.mem_iff v u).mpr ⟨hm, hu0, hp⟩
  · by_cases hm : mem u
    · exact (h.shape.kids.mem_iff v u).mpr ⟨hm, hu0, hp⟩
    · exact absurd (hp.symm.trans (h.gone hm)) hv

theorem Sweepable.only (h : Sweepable sb mem target parent kill depth)
    (hp : Pass sb mem target parent v) : sb.kids v = [getChild sb v 0] ∧
      getChild sb v 0 ∉ sb.labels := by
  obtain ⟨hv, -, hone, w, hw⟩ := hp
  have hkids : sb.kids v = [getChild sb v 0] := by
    rw [Sb.kids, hone]
    rfl
  obtain ⟨c, hc, hcl, -⟩ := hw.through h.shape
  rw [hkids, List.mem_singleton] at hc
  exact ⟨hkids, hc ▸ hcl⟩

theorem Sweepable.ghost_of (h : Sweepable sb mem target parent kill depth) (hv : v ∈ sb.labels)
    (ht : v = target ∨ v = parent ∨ ∃ e, kill = some e ∧ e.label = v) : isGhost sb v = true := by
  rcases ht with rfl | rfl | ⟨e, he, rfl⟩
  · exact h.ghost
  · exact (h.parent_ghost.resolve_left (h.place v hv).1).2
  · exact (h.kill_ghost e he).2.2.1

/-- Dropping and passing on some of the labels is a pruning. -/
theorem Sweepable.pruned (h : Sweepable sb mem target parent kill depth) (done : List ℕ)
    {labelled' : ℕ → Prop}
    (hlabels : ∀ v, labelled' v ↔ (v ∈ sb.labels ∧
      ¬ (Drop sb mem target parent kill v ∧ v ∈ done) ∧
      ¬ (Pass sb mem target parent v ∧ v ∈ done)) ∨
        ∃ y, (Pass sb mem target parent y ∧ y ∈ done) ∧ v = getChild sb y 0) :
    Pruned 0 mem (getParent sb) (fun w => isGhost sb w = false)
      (fun v => Drop sb mem target parent kill v ∧ v ∈ done)
      (fun v => Pass sb mem target parent v ∧ v ∈ done) (fun y => getChild sb y 0)
      (· ∈ sb.labels) labelled' := by
  refine ⟨hlabels, fun y hy => ?_, fun y hy => ?_, fun y hy v hv hv0 hp => ?_⟩
  · obtain ⟨⟨hl, ht, hno⟩, -⟩ := hy
    rw [h.ghost_of hl ht]
    exact ⟨fun hf => (nomatch hf), fun w hw hc hin => hno w ⟨hw, hc, hin⟩⟩
  · obtain ⟨hkids, hnot⟩ := h.only hy.1
    obtain ⟨-, -, hp, -⟩ := h.shape.kid (show getChild sb y 0 ∈ sb.kids y by
      rw [hkids]
      exact List.mem_cons_self)
    obtain ⟨⟨hl, ht, -⟩, -⟩ := hy
    rw [h.ghost_of hl (ht.imp_right Or.inl)]
    exact ⟨hl, fun hf => (nomatch hf), hnot, hp, (h.place y hl).1⟩
  · have hin := (h.shape.kids.mem_iff y v).mpr ⟨hv, hv0, hp⟩
    rw [(h.only hy.1).1] at hin
    exact List.mem_singleton.mp hin

/-! ## The elements that remain -/

theorem Drop.not_pass (h : Drop sb mem target parent kill v) : ¬ Pass sb mem target parent v :=
  fun hp => hp.2.2.2.elim h.2.2

theorem remains_some {e' : Element} : remains sb mem target parent kill e = some e' ↔
    ¬ Drop sb mem target parent kill e.label ∧
      (¬ Pass sb mem target parent e.label ∧ e' = e ∨
        Pass sb mem target parent e.label ∧ e' = ⟨getChild sb e.label 0, e.chunk⟩) := by
  rw [remains]
  by_cases hd : Drop sb mem target parent kill e.label
  · rw [if_pos hd]
    exact ⟨fun h => (nomatch h), fun h => absurd hd h.1⟩
  · rw [if_neg hd, and_iff_right hd]
    by_cases hp : Pass sb mem target parent e.label
    · rw [if_pos hp, Option.some.injEq]
      exact ⟨fun h => Or.inr ⟨hp, h.symm⟩, fun h => (h.resolve_left fun h => h.1 hp).2.symm⟩
    · rw [if_neg hp, Option.some.injEq]
      exact ⟨fun h => Or.inl ⟨hp, h.symm⟩, fun h => (h.resolve_right fun h => hp h.1).2.symm⟩

theorem remains_chunk {e' : Element} (h : remains sb mem target parent kill e = some e') :
    e'.chunk = e.chunk := by
  obtain ⟨-, ⟨-, rfl⟩ | ⟨-, rfl⟩⟩ := remains_some.mp h
  · rfl
  · rfl

theorem mem_swept {e' : Element} : e' ∈ swept sb mem target parent kill es ↔
    ∃ e ∈ es, remains sb mem target parent kill e = some e' :=
  List.mem_filterMap

theorem swept_append (es es' : List Element) : swept sb mem target parent kill (es ++ es') =
    swept sb mem target parent kill es ++ swept sb mem target parent kill es' :=
  List.filterMap_append

theorem swept_drop (h : Drop sb mem target parent kill e.label) :
    swept sb mem target parent kill (e :: es) = swept sb mem target parent kill es := by
  refine List.filterMap_cons_none ?_
  rw [remains, if_pos h]

theorem swept_pass (h : Pass sb mem target parent e.label) :
    swept sb mem target parent kill (e :: es) =
      ⟨getChild sb e.label 0, e.chunk⟩ :: swept sb mem target parent kill es :=
  List.filterMap_cons_some (remains_some.mpr ⟨fun hd => hd.not_pass h, Or.inr ⟨h, rfl⟩⟩)

theorem swept_keep (hd : ¬ Drop sb mem target parent kill e.label)
    (hp : ¬ Pass sb mem target parent e.label) :
    swept sb mem target parent kill (e :: es) = e :: swept sb mem target parent kill es :=
  List.filterMap_cons_some (remains_some.mpr ⟨hd, Or.inl ⟨hp, rfl⟩⟩)

/-- The labels in the middle of the sweep. -/
theorem Sweepable.mem_current (h : Sweepable sb mem target parent kill depth)
    (hsplit : sb.elements = done ++ es) :
    v ∈ (swept sb mem target parent kill done).map Element.label ++ es.map Element.label ↔
      (v ∈ sb.labels ∧
        ¬ (Drop sb mem target parent kill v ∧ v ∈ done.map Element.label) ∧
        ¬ (Pass sb mem target parent v ∧ v ∈ done.map Element.label)) ∨
      ∃ y, (Pass sb mem target parent y ∧ y ∈ done.map Element.label) ∧ v = getChild sb y 0 := by
  have hlabels : sb.labels = done.map Element.label ++ es.map Element.label := by
    rw [Sb.labels, hsplit, List.map_append]
  have hnodup := h.nodup
  rw [hlabels] at hnodup
  obtain ⟨-, -, hdisj⟩ := List.nodup_append.mp hnodup
  rw [List.mem_append, List.mem_map]
  constructor
  · rintro (⟨e', he', rfl⟩ | hv)
    · obtain ⟨e, he, hr⟩ := mem_swept.mp he'
      obtain ⟨hd, ⟨hp, rfl⟩ | ⟨hp, rfl⟩⟩ := remains_some.mp hr
      · refine Or.inl ⟨?_, fun h => hd h.1, fun h => hp h.1⟩
        rw [hlabels]
        exact List.mem_append_left _ (List.mem_map.mpr ⟨e', he, rfl⟩)
      · exact Or.inr ⟨e.label, ⟨hp, List.mem_map.mpr ⟨e, he, rfl⟩⟩, rfl⟩
    · have hnot : v ∉ done.map Element.label := fun hin => hdisj v hin v hv rfl
      exact Or.inl ⟨hlabels ▸ List.mem_append_right _ hv, fun h => hnot h.2, fun h => hnot h.2⟩
  · rintro (⟨hv, hd, hp⟩ | ⟨y, ⟨hp, hy⟩, rfl⟩)
    · rw [hlabels, List.mem_append] at hv
      refine hv.imp_left fun hin => ?_
      obtain ⟨e, he, rfl⟩ := List.mem_map.mp hin
      refine ⟨e, mem_swept.mpr ⟨e, he, remains_some.mpr ⟨fun h => hd ⟨h, hin⟩, ?_⟩⟩, rfl⟩
      exact Or.inl ⟨fun h => hp ⟨h, hin⟩, rfl⟩
    · obtain ⟨e, he, rfl⟩ := List.mem_map.mp hy
      have hr : remains sb mem target parent kill e = some ⟨getChild sb e.label 0, e.chunk⟩ :=
        remains_some.mpr ⟨fun h => h.not_pass hp, Or.inr ⟨hp, rfl⟩⟩
      exact Or.inl ⟨_, mem_swept.mpr ⟨e, he, hr⟩, rfl⟩

theorem Sweepable.heir_iff (h : Sweepable sb mem target parent kill depth)
    (hsplit : sb.elements = done ++ es) (hv : v ∉ done.map Element.label) :
    Heir sb mem ((swept sb mem target parent kill done).map Element.label ++ es.map Element.label)
      v w ↔ Heir sb mem sb.labels v w := by
  refine and_congr_right fun hw => and_congr_right fun hg => ?_
  exact (h.pruned _ fun v => h.mem_current hsplit).inherits_iff h.shape.tree hw hg fun hp => hv hp.2

/-- What one round does: it drops the element, passes it on or keeps it. -/
theorem Sweepable.round (h : Sweepable sb mem target parent kill depth)
    (hsplit : sb.elements = done ++ e :: es) {s : Sb} {allocmap : ℕ → Bool}
    (hs : s = sb.marked (fun v => decide (v ∈ (swept sb mem target parent kill done).map
      Element.label ++ (e :: es).map Element.label)) allocmap) :
    (Drop sb mem target parent kill e.label ∧ sweep target parent kill s (e :: es) =
      (dropElement s e.label e.chunk).bind fun s => sweep target parent kill s es) ∨
    (Pass sb mem target parent e.label ∧ sweep target parent kill s (e :: es) =
      (sweep target parent kill (inheritElement s e.label).2 es).bind fun r =>
        some (⟨getChild sb e.label 0, e.chunk⟩ :: r.1, r.2)) ∨
    (¬ Drop sb mem target parent kill e.label ∧ ¬ Pass sb mem target parent e.label ∧
      sweep target parent kill s (e :: es) =
        (sweep target parent kill s es).bind fun r => some (e :: r.1, r.2)) := by
  have he : e ∈ sb.elements := by
    rw [hsplit]
    exact List.mem_append_right _ List.mem_cons_self
  have hl : e.label ∈ sb.labels := mem_labels.mpr ⟨e, he, rfl⟩
  have hnew : e.label ∉ done.map Element.label := by
    have hnodup := h.nodup
    rw [Sb.labels, hsplit, List.map_append, List.map_cons] at hnodup
    exact fun hin => (List.nodup_append.mp hnodup).2.2 _ hin _ List.mem_cons_self rfl
  have hheirs : mem e.label → ∃ m, countHeirs s e.label = some m ∧
      (m = 0 ↔ ∀ w, ¬ Heir sb mem sb.labels e.label w) := by
    intro hm
    obtain ⟨m, hcount, hzero, -⟩ := @countHeirs_spec sb mem depth _ h.shape
      ((swept sb mem target parent kill done).map Element.label ++ (e :: es).map Element.label)
      allocmap hm
    refine ⟨m, hs ▸ hcount, hzero.trans (forall_congr' fun w => not_congr ?_)⟩
    exact h.heir_iff hsplit hnew
  have hcount : s.childCount = sb.childCount := by rw [hs]; rfl
  have hbrood : s.brood = sb.brood := by rw [hs]; rfl
  rw [sweep]
  simp only [hcount, hbrood]
  by_cases hkill : some e = kill
  · rw [if_pos hkill]
    refine Or.inl ⟨⟨hl, Or.inr (Or.inr ⟨e, hkill.symm, rfl⟩), ?_⟩, rfl⟩
    exact (h.kill_ghost e hkill.symm).2.2.2
  · rw [if_neg hkill]
    by_cases ht : e.label = target ∨ e.label = parent
    · rw [if_pos ht]
      obtain ⟨hle, hall, hnone⟩ := h.brood_spec (h.place _ hl).1
      by_cases hb : sb.childCount e.label = sb.brood e.label
      · rw [if_pos hb]
        refine Or.inl ⟨⟨hl, ht.imp_right Or.inl, fun w hw => ?_⟩, rfl⟩
        obtain ⟨c, hc, hcl, -⟩ := hw.through h.shape
        exact hcl (hall hb c hc)
      · rw [if_neg hb]
        have hm : mem e.label := by
          by_contra hm
          have hzero : sb.childCount e.label = 0 := by
            rw [← kids_length, h.shape.childless hm, List.length_nil]
          omega
        obtain ⟨m, hm', hzero⟩ := hheirs hm
        by_cases hone : sb.childCount e.label = 1
        · rw [if_pos hone]
          simp only [hm', Option.bind_eq_bind, Option.bind_some]
          by_cases hm0 : m = 0
          · rw [if_pos hm0]
            exact Or.inl ⟨⟨hl, ht.imp_right Or.inl, hzero.mp hm0⟩, rfl⟩
          · rw [if_neg hm0]
            have hex : ∃ w, Heir sb mem sb.labels e.label w := by
              by_contra hno
              exact hm0 (hzero.mpr (not_exists.mp hno))
            refine Or.inr (Or.inl ⟨⟨hl, ht, hone, hex⟩, ?_⟩)
            rw [hs]
            rfl
        · rw [if_neg hone]
          simp only [hm', Option.bind_eq_bind, Option.bind_some]
          by_cases hm0 : m = 0
          · rw [if_pos ⟨by omega, hm0⟩]
            exact Or.inl ⟨⟨hl, ht.imp_right Or.inl, hzero.mp hm0⟩, rfl⟩
          · rw [if_neg fun hand => hm0 hand.2]
            exact Or.inr (Or.inr ⟨fun hd => hm0 (hzero.mpr hd.2.2), fun hp => hone hp.2.2.1, rfl⟩)
    · rw [if_neg ht]
      refine Or.inr (Or.inr ⟨fun hd => ?_, fun hp => ht hp.2.1, rfl⟩)
      rcases hd.2.1 with h₁ | h₁ | ⟨k, hk, hkl⟩
      · exact ht (Or.inl h₁)
      · exact ht (Or.inr h₁)
      · have hke := List.inj_on_of_nodup_map h.nodup (h.kill_ghost k hk).1 he hkl
        exact hkill (hke ▸ hk.symm)

section
variable {labels labels' : List ℕ} {allocmap : ℕ → Bool} {label chunk : ℕ}

theorem dropElement_marked (halloc : allocmap chunk = true)
    (h : ∀ v, v ∈ labels' ↔ v ≠ label ∧ v ∈ labels) :
    dropElement (sb.marked (fun v => decide (v ∈ labels)) allocmap) label chunk =
      some (sb.marked (fun v => decide (v ∈ labels')) (Function.update allocmap chunk false)) := by
  rw [dropElement, freeChunk, if_pos (show Sb.allocmap _ chunk = true from halloc)]
  refine congrArg some ?_
  simp only [Sb.marked, Sb.setEntry]
  refine congrArg (fun t => ({ sb with
    table := t
    allocmap := Function.update allocmap chunk false } : Sb)) (funext fun v => ?_)
  by_cases hv : v = label
  · subst hv
    rw [Function.update_self, decide_eq_false fun hin => ((h v).mp hin).1 rfl]
  · rw [Function.update_of_ne hv, decide_eq_decide.mpr ((h v).trans (and_iff_right hv))]

theorem inheritElement_marked
    (h : ∀ v, v ∈ labels' ↔ v = getChild sb label 0 ∨ v ≠ label ∧ v ∈ labels) :
    (inheritElement (sb.marked (fun v => decide (v ∈ labels)) allocmap) label).2 =
      sb.marked (fun v => decide (v ∈ labels')) allocmap := by
  have hchild : getChild (sb.marked (fun v => decide (v ∈ labels)) allocmap) label 0 =
    getChild sb label 0 := rfl
  simp only [inheritElement, hchild]
  simp only [Sb.marked, Sb.setEntry]
  refine congrArg (fun t => ({ sb with
    table := t
    allocmap := allocmap } : Sb)) (funext fun v => ?_)
  by_cases hc : v = getChild sb label 0
  · subst hc
    rw [Function.update_self, decide_eq_true ((h _).mpr (Or.inl rfl))]
    by_cases hl : getChild sb label 0 = label
    · simp only [hl, Function.update_self]
    · simp only [Function.update_of_ne hl]
  · rw [Function.update_of_ne hc]
    by_cases hl : v = label
    · subst hl
      rw [Function.update_self, decide_eq_false fun hin => ?_]
      exact (((h v).mp hin).resolve_left hc).1 rfl
    · rw [Function.update_of_ne hl,
        decide_eq_decide.mpr ((h v).trans ((or_iff_right hc).trans (and_iff_right hl)))]

end

theorem Sweepable.label_new (h : Sweepable sb mem target parent kill depth)
    (hsplit : sb.elements = done ++ e :: es) :
    e.label ∉ (swept sb mem target parent kill done).map Element.label ++ es.map Element.label := by
  have hnodup := h.nodup
  rw [Sb.labels, hsplit, List.map_append, List.map_cons] at hnodup
  obtain ⟨-, hrest, hdisj⟩ := List.nodup_append.mp hnodup
  intro hin
  rcases List.mem_append.mp hin with hin | hin
  · obtain ⟨e', he', heq⟩ := List.mem_map.mp hin
    obtain ⟨k, hk, hr⟩ := mem_swept.mp he'
    obtain ⟨-, ⟨-, rfl⟩ | ⟨hp, rfl⟩⟩ := remains_some.mp hr
    · exact hdisj _ (List.mem_map.mpr ⟨e', hk, rfl⟩) _ List.mem_cons_self heq
    · refine (h.only hp).2 ?_
      rw [Sb.labels, hsplit, List.map_append, List.map_cons]
      exact List.mem_append_right _ (heq ▸ List.mem_cons_self)
  · exact (List.nodup_cons.mp hrest).1 hin

/-- The sweep keeps the elements that remain and frees the chunks of the others. -/
theorem Sweepable.sweep (h : Sweepable sb mem target parent kill depth)
    (hsplit : sb.elements = done ++ es) (allocmap : ℕ → Bool)
    (halloc : ∀ e ∈ es, allocmap e.chunk = true) :
    ∃ allocmap', sweep target parent kill (sb.marked (fun v => decide (v ∈
      (swept sb mem target parent kill done).map Element.label ++ es.map Element.label)) allocmap)
        es = some (swept sb mem target parent kill es, sb.marked (fun v => decide (v ∈
          (swept sb mem target parent kill (done ++ es)).map Element.label)) allocmap') ∧
      ∀ chunk, allocmap' chunk = true ↔ allocmap chunk = true ∧ (chunk ∈ es.map Element.chunk →
        chunk ∈ (swept sb mem target parent kill es).map Element.chunk) := by
  induction es generalizing done allocmap with
  | nil =>
      refine ⟨allocmap, ?_, fun chunk => ?_⟩
      · rw [Version.sweep, List.map_nil, List.append_nil, List.append_nil]
        rfl
      · exact ⟨fun hc => ⟨hc, fun hin => (nomatch hin)⟩, And.left⟩
  | cons e es ih =>
      have hdone : done ++ e :: es = (done ++ [e]) ++ es := by
        rw [List.append_assoc, List.singleton_append]
      have hnew := h.label_new hsplit
      have hchunk : e.chunk ∉ es.map Element.chunk := by
        have hnodup := h.chunks
        rw [hsplit, List.map_append, List.map_cons] at hnodup
        exact (List.nodup_cons.mp (List.nodup_append.mp hnodup).2.1).1
      have hkept : e.chunk ∉ (swept sb mem target parent kill es).map Element.chunk := by
        intro hin
        obtain ⟨e', he', heq⟩ := List.mem_map.mp hin
        obtain ⟨k, hk, hr⟩ := mem_swept.mp he'
        exact hchunk (List.mem_map.mpr ⟨k, hk, (remains_chunk hr).symm.trans heq⟩)
      have hrest : ∀ e' ∈ es, allocmap e'.chunk = true := fun e' he' =>
        halloc e' (List.mem_cons_of_mem e he')
      have hmid : ∀ v, v ∈ (swept sb mem target parent kill done).map Element.label ++
          (e :: es).map Element.label ↔ v = e.label ∨
            v ∈ (swept sb mem target parent kill done).map Element.label ++
              es.map Element.label := by
        intro v
        rw [List.map_cons, List.perm_middle.mem_iff, List.mem_cons]
      have hlose : ∀ v, v ∈ (swept sb mem target parent kill done).map Element.label ++
          es.map Element.label ↔ v ≠ e.label ∧
            v ∈ (swept sb mem target parent kill done).map Element.label ++
              (e :: es).map Element.label := by
        intro v
        rw [hmid]
        refine ⟨fun hv => ⟨fun heq => hnew (heq ▸ hv), Or.inr hv⟩, fun hv => ?_⟩
        exact hv.2.resolve_left hv.1
      have hstay : ∀ chunk, (chunk ∈ es.map Element.chunk →
          chunk ∈ (swept sb mem target parent kill es).map Element.chunk) ↔
          (chunk = e.chunk ∨ chunk ∈ es.map Element.chunk → chunk = e.chunk ∨
            chunk ∈ (swept sb mem target parent kill es).map Element.chunk) := by
        intro chunk
        by_cases hc : chunk = e.chunk
        · exact ⟨fun _ _ => Or.inl hc, fun _ hin => absurd (hc ▸ hin) hchunk⟩
        · rw [or_iff_right hc, or_iff_right hc]
      have hone := @swept_append sb mem target parent kill done [e]
      have hround := h.round hsplit (s := sb.marked _ allocmap) rfl
      rw [hdone]
      rw [hdone] at hsplit
      rcases hround with ⟨hd, heq⟩ | ⟨hp, heq⟩ | ⟨hd, hp, heq⟩
      · -- the element goes and its chunk is free
        rw [swept_drop hd, show swept sb mem target parent kill [] = [] from rfl,
          List.append_nil] at hone
        obtain ⟨allocmap', hrun, hkeep⟩ := ih hsplit (Function.update allocmap e.chunk false)
          fun e' he' => by
            have hne : e'.chunk ≠ e.chunk := fun heq =>
              hchunk (List.mem_map.mpr ⟨e', he', heq⟩)
            rw [Function.update_of_ne hne]
            exact hrest e' he'
        refine ⟨allocmap', ?_, fun chunk => ?_⟩
        · rw [heq, dropElement_marked (halloc e List.mem_cons_self) hlose, Option.bind_some,
            swept_drop hd, ← hone]
          exact hrun
        · rw [hkeep, swept_drop hd, List.map_cons, List.mem_cons]
          by_cases hc : chunk = e.chunk
          · subst hc
            rw [Function.update_self]
            exact ⟨fun hand => (nomatch hand.1), fun hand => absurd (hand.2 (Or.inl rfl)) hkept⟩
          · rw [Function.update_of_ne hc, or_iff_right hc]
      · -- its label becomes that of the only child
        rw [swept_pass hp, show swept sb mem target parent kill [] = [] from rfl] at hone
        obtain ⟨allocmap', hrun, hkeep⟩ := ih hsplit allocmap hrest
        have hlabels : ∀ v, v ∈ (swept sb mem target parent kill (done ++ [e])).map Element.label ++
            es.map Element.label ↔ v = getChild sb e.label 0 ∨ v ≠ e.label ∧
              v ∈ (swept sb mem target parent kill done).map Element.label ++
                (e :: es).map Element.label := by
          intro v
          rw [← hlose, hone, List.map_append, List.append_assoc, List.map_cons, List.map_nil,
            List.singleton_append, List.perm_middle.mem_iff, List.mem_cons]
        refine ⟨allocmap', ?_, fun chunk => ?_⟩
        · rw [heq, inheritElement_marked hlabels, hrun, swept_pass hp]
          rfl
        · rw [hkeep, swept_pass hp, List.map_cons, List.map_cons, List.mem_cons, List.mem_cons,
            hstay]
      · rw [swept_keep hd hp, show swept sb mem target parent kill [] = [] from rfl] at hone
        obtain ⟨allocmap', hrun, hkeep⟩ := ih hsplit allocmap hrest
        have hlabels : (swept sb mem target parent kill done).map Element.label ++
            (e :: es).map Element.label =
            (swept sb mem target parent kill (done ++ [e])).map Element.label ++
              es.map Element.label := by
          rw [hone, List.map_append, List.append_assoc]
          rfl
        refine ⟨allocmap', ?_, fun chunk => ?_⟩
        · rw [heq, hlabels, hrun, swept_keep hd hp]
          rfl
        · rw [hkeep, swept_keep hd hp, List.map_cons, List.map_cons, List.mem_cons, List.mem_cons,
            hstay]

end

end Tux3.Version
