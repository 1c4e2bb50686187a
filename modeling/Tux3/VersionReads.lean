import Tux3.VersionTidy

/-!
# Reads

`lookup_element` finds the deepest labelled version on the path of the target, and `count_near`
counts the labels on the target and its children. Both load a bitmap, which changes no value.
-/
namespace Tux3.Version

open Rooted

/-- The state with other bitmaps and flags for them. -/
def Sb.cached (sb : Sb) (table : ℕ → Entry) (pathmap nearmap : ℕ → ℕ → Bool) : Sb :=
  { sb with
    table := table
    pathmap := pathmap
    nearmap := nearmap }

/-- Only the flags of the bitmaps differ. -/
def Flagged (table table' : ℕ → Entry) : Prop := ∀ v, table' v =
  { table v with
    pathmap := (table' v).pathmap
    nearmap := (table' v).nearmap }

section
variable {sb : Sb} {table : ℕ → Entry} {pathmap nearmap : ℕ → ℕ → Bool} {v w tag t x : ℕ}

/-! ## Bitmaps -/

theorem Flagged.parent (f : Flagged sb.table table) :
    getParent (sb.cached table pathmap nearmap) = getParent sb := by
  funext v
  change (table v).parent = _
  rw [f v]
  rfl

theorem Flagged.ghost (f : Flagged sb.table table) :
    isGhost (sb.cached table pathmap nearmap) = isGhost sb := by
  funext v
  change (table v).ghost = _
  rw [f v]
  rfl

theorem Flagged.mem (f : Flagged sb.table table) :
    (sb.cached table pathmap nearmap).mem = sb.mem := by
  funext v
  change (v < sb.versionCount ∧ (table v).used = true) = _
  rw [f v]
  rfl

theorem Flagged.snapshot (f : Flagged sb.table table) :
    (sb.cached table pathmap nearmap).snapshot = sb.snapshot := by
  funext v tag
  rw [Sb.snapshot, f.mem, f.ghost]
  change (_ ∧ _ ∧ _ ∧ (table v).tag = tag) = _
  rw [f v]
  rfl

theorem Flagged.value (f : Flagged sb.table table) :
    (sb.cached table pathmap nearmap).value = sb.value := by
  funext v
  rw [Sb.value, f.parent]
  rfl

theorem Flagged.reads (f : Flagged sb.table table) :
    (sb.cached table pathmap nearmap).reads = sb.reads := by
  funext t x
  rw [Sb.reads, f.snapshot, f.value]
  rfl

theorem Flagged.distinct (f : Flagged sb.table table) (hd : sb.distinct) :
    (sb.cached table pathmap nearmap).distinct := by
  rw [Sb.distinct, f.snapshot]
  exact hd

theorem Tidy.cached (h : Tidy sb) (f : Flagged sb.table table)
    (hpath : ∀ v, sb.mem v → (table v).pathmap = true →
      ∀ u, pathmap v u = true ↔ u ≠ 0 ∧ Below 0 (getParent sb) u v)
    (hnear : ∀ v, sb.mem v → v ≠ 0 → (table v).nearmap = true →
      ∀ u, nearmap v u = true ↔ u = v ∨ u ∈ sb.kids v) :
    Tidy (sb.cached table pathmap nearmap) := by
  have hmem := @Flagged.mem sb table pathmap nearmap f
  have hghost := @Flagged.ghost sb table pathmap nearmap f
  have hparent := @Flagged.parent sb table pathmap nearmap f
  refine ⟨⟨⟨h.shape.packed.zero, h.shape.packed.next, h.shape.packed.beyond⟩, h.shape.le_max,
    fun v hv => hv, hmem ▸ hparent ▸ h.shape.tree, hmem ▸ hparent ▸ h.shape.kids,
    h.shape.single, fun v hv hf => ?_, fun v hv hv0 hf => hnear v (hmem ▸ hv) hv0 hf⟩, h.order, ?_,
    fun v => ?_, ?_, fun v hv hg => ?_, fun v hv hu => ?_, h.nodup, hmem ▸ h.place, ?_,
    ⟨h.store.nodup, h.store.alloc, h.store.lt, h.store.next⟩⟩
  · rw [hparent]
    exact hpath v (hmem ▸ hv) hf
  · refine h.active.trans (congrArg Finset.card (Finset.ext fun v => ?_))
    rw [mem_members, mem_members, hmem]
  · change (table v).present = false
    rw [f v]
    exact h.clear v
  · rw [hghost]
    exact h.origin
  · rw [hghost] at hg
    exact h.ghosts v (hmem ▸ hv) hg
  · rw [hghost]
    refine h.free v hv ?_
    change (table v).used = false at hu
    rw [f v] at hu
    exact hu
  · intro v hl hg
    rw [hghost] at hg
    obtain ⟨w, hw, hwg, hin⟩ := h.heirs v hl hg
    exact ⟨w, hmem ▸ hw, hghost ▸ hwg, hparent ▸ hin⟩

/-! ## `lookup_element` -/

theorem needPath_spec (h : Tidy sb) (hv : sb.mem v) : ∃ table pathmap,
    needPath sb v = some (sb.cached table pathmap sb.nearmap) ∧ Flagged sb.table table ∧
      Tidy (sb.cached table pathmap sb.nearmap) ∧
      ∀ u, pathmap v u = true ↔ u ≠ 0 ∧ Below 0 (getParent sb) u v := by
  rw [needPath]
  by_cases hf : (sb.table v).pathmap = true
  · rw [if_pos hf]
    exact ⟨sb.table, sb.pathmap, rfl, fun _ => rfl, h, h.shape.path v hv hf⟩
  · rw [if_neg hf]
    obtain ⟨map, hload, hmap⟩ := loadPath_spec h.shape.tree hv
      (Nat.le_of_lt (h.shape.depth_lt hv)) fun _ => false
    have hmap' : ∀ u, map u = true ↔ u ≠ 0 ∧ Below 0 (getParent sb) u v := fun u => by
      rw [hmap, Bool.false_eq_true, false_or]
    have hflag : Flagged sb.table
        (Function.update sb.table v { sb.table v with pathmap := true }) := by
      intro u
      by_cases hu : u = v
      · rw [hu, Function.update_self]
      · rw [Function.update_of_ne hu]
    refine ⟨_, Function.update sb.pathmap v map, by rw [hload]; rfl, hflag,
      h.cached hflag (fun w hw hwf u => ?_) (fun w hw hw0 hwf => ?_), ?_⟩
    · by_cases hwv : w = v
      · rw [hwv, Function.update_self]
        exact hmap' u
      · rw [Function.update_of_ne hwv] at hwf ⊢
        exact h.shape.path w hw hwf u
    · refine h.shape.near w hw hw0 ?_
      by_cases hwv : w = v
      · rw [hwv, Function.update_self] at hwf
        exact hwv ▸ hwf
      · rwa [Function.update_of_ne hwv] at hwf
    · intro u
      rw [Function.update_self]
      exact hmap' u

/-- The element found is the one with the greatest order on the path. -/
def Latest (sb : Sb) (path : ℕ → Bool) (es : List Element) (found : Option Element × ℕ) : Prop :=
  (∀ e ∈ es, path e.label = true → sb.ordmap e.label ≤ found.2) ∧
    (found = (none, 0) ∨ ∃ e ∈ es, path e.label = true ∧ found = (some e, sb.ordmap e.label))

theorem lookupStep_latest {path : ℕ → Bool} {es : List Element} {found : Option Element × ℕ}
    (h : Latest sb path es found) (e : Element) :
    Latest sb path (es ++ [e]) (lookupStep sb path found e) := by
  obtain ⟨hle, hfound⟩ := h
  rw [lookupStep]
  by_cases hcond : path e.label = true ∧ found.2 < sb.ordmap e.label
  · rw [if_pos hcond]
    refine ⟨fun e' he' hp => ?_, Or.inr ⟨e, List.mem_append_right _ List.mem_cons_self, hcond.1,
      rfl⟩⟩
    rcases List.mem_append.mp he' with he' | he'
    · exact (hle e' he' hp).trans (Nat.le_of_lt hcond.2)
    · rw [List.mem_singleton.mp he']
  · rw [if_neg hcond]
    refine ⟨fun e' he' hp => ?_, hfound.imp_right fun ⟨k, hk, hp, heq⟩ =>
      ⟨k, List.mem_append_left _ hk, hp, heq⟩⟩
    rcases List.mem_append.mp he' with he' | he'
    · exact hle e' he' hp
    · rw [List.mem_singleton.mp he'] at hp ⊢
      exact Nat.not_lt.mp fun hlt => hcond ⟨hp, hlt⟩

theorem lookup_latest (path : ℕ → Bool) (es : List Element) :
    Latest sb path es (es.foldl (lookupStep sb path) (none, 0)) := by
  induction es using List.reverseRecOn with
  | nil => exact ⟨fun e he => (nomatch he), Or.inl rfl⟩
  | append_singleton es e ih =>
      rw [List.foldl_append]
      exact lookupStep_latest ih e

/-- The element found holds the value. -/
theorem lookup_value (h : Tidy sb) (hv : sb.mem v) {path : ℕ → Bool}
    (hpath : ∀ u, path u = true ↔ u ≠ 0 ∧ Below 0 (getParent sb) u v) :
    (sb.elements.foldl (lookupStep sb path) (none, 0)).1.elim sb.orgdata
      (fun e => sb.snapdata e.chunk) = sb.value v := by
  obtain ⟨hle, hfound⟩ := @lookup_latest sb path sb.elements
  rcases hfound with hfound | ⟨e, he, hp, hfound⟩
  · rw [hfound]
    refine (value_unlabelled h.shape.tree hv fun u hu0 hu => datum_none.mpr fun hl => ?_).symm
    obtain ⟨e, he, rfl⟩ := mem_labels.mp hl
    have hz := hle e he ((hpath _).mpr ⟨hu0, hu⟩)
    rw [hfound] at hz
    have := h.shape.tree.depth_pos (h.place _ hl).2 hu0
    omega
  · rw [hfound]
    obtain ⟨hx0, hx⟩ := (hpath _).mp hp
    refine (value_nearest h.shape.tree hv hx0 hx (datum_eq h.nodup he) fun u hu hlt =>
      datum_none.mpr fun hl => ?_).symm
    obtain ⟨e', he', rfl⟩ := mem_labels.mp hl
    have hz := hle e' he' ((hpath _).mpr ⟨(h.place _ hl).1, hu⟩)
    rw [hfound] at hz
    dsimp only at hz
    omega

theorem snapshotRead_spec (h : Tidy sb) (hd : sb.distinct) (hv : sb.snapshot v tag) :
    ∃ sb', snapshotRead sb tag = some (sb.value v, sb') ∧ Tidy sb' ∧ sb'.distinct ∧
      sb'.orgdata = sb.orgdata ∧ ∀ t x, sb'.reads t x ↔ sb.reads t x := by
  obtain ⟨table, pathmap, hneed, f, h', hpath⟩ := needPath_spec h hv.1
  refine ⟨_, ?_, h', f.distinct hd, rfl, fun t x => by rw [f.reads]⟩
  rw [snapshotRead, h.findTag hd hv]
  simp only [Option.bind_eq_bind, Option.bind_some]
  rw [lookupElement, hneed]
  simp only [Option.bind_eq_bind, Option.bind_some]
  refine congrArg some (Prod.ext ?_ rfl)
  have hval := @lookup_value _ v h' (by rw [f.mem]; exact hv.1) (pathmap v)
    (by rw [f.parent]; exact hpath)
  rw [f.value] at hval
  exact hval

/-! ## `count_near` -/

/-- The labels near a version are at most one more than its children, and that only when the
version and all its children are labelled. -/
theorem near_card (h : Tidy sb) (hv : sb.mem v) (hv0 : v ≠ 0) {near : ℕ → Bool}
    (hnear : ∀ u, near u = true ↔ u = v ∨ u ∈ sb.kids v) :
    (sb.elements.countP fun e => near e.label) ≤ sb.childCount v + 1 ∧
      ((sb.elements.countP fun e => near e.label) = sb.childCount v + 1 ↔
        v ∈ sb.labels ∧ ∀ c ∈ sb.kids v, c ∈ sb.labels) := by
  have hself : v ∉ sb.kids v := fun hin => h.shape.tree.parent_ne hv hv0 (h.shape.kid hin).2.2.1
  have hcount : (sb.elements.countP fun e => near e.label) =
      ((sb.labels.toFinset).filter fun u => near u = true).card := by
    rw [List.countP_eq_length_filter, ← List.length_map (f := Element.label),
      ← List.toFinset_filter, List.toFinset_card_of_nodup (h.nodup.filter _), Sb.labels,
      List.filter_map]
    rfl
  have hall : (insert v (sb.kids v).toFinset).card = sb.childCount v + 1 := by
    rw [Finset.card_insert_of_notMem (mt List.mem_toFinset.mp hself), Kids.count h.shape.kids]
  have hsub : ((sb.labels.toFinset).filter fun u => near u = true) ⊆
      insert v (sb.kids v).toFinset := by
    intro u hu
    rw [Finset.mem_insert, List.mem_toFinset]
    exact (hnear u).mp (Finset.mem_filter.mp hu).2
  rw [hcount, ← hall]
  refine ⟨Finset.card_le_card hsub, fun heq => ?_, fun hl => ?_⟩
  · have hset := Finset.eq_of_subset_of_card_le hsub heq.ge
    have hin : ∀ u, u = v ∨ u ∈ sb.kids v → u ∈ sb.labels := by
      intro u hu
      have : u ∈ insert v (sb.kids v).toFinset := by
        rwa [Finset.mem_insert, List.mem_toFinset]
      rw [← hset, Finset.mem_filter, List.mem_toFinset] at this
      exact this.1
    exact ⟨hin v (Or.inl rfl), fun c hc => hin c (Or.inr hc)⟩
  · refine congrArg Finset.card (Finset.Subset.antisymm hsub fun u hu => ?_)
    rw [Finset.mem_insert, List.mem_toFinset] at hu
    rw [Finset.mem_filter, List.mem_toFinset]
    refine ⟨?_, (hnear u).mpr hu⟩
    rcases hu with rfl | hu
    · exact hl.1
    · exact hl.2 u hu

theorem countNear_spec (h : Tidy sb) (hv : sb.mem v) (hv0 : v ≠ 0) : ∃ near table nearmap,
    countNear sb v = some (near, sb.cached table sb.pathmap nearmap) ∧ Flagged sb.table table ∧
      Tidy (sb.cached table sb.pathmap nearmap) ∧
      (near = sb.childCount v + 1 ↔ v ∈ sb.labels ∧ ∀ c ∈ sb.kids v, c ∈ sb.labels) := by
  have hload : ∃ table nearmap,
      (if (sb.table v).nearmap then sb
        else { sb.setEntry v { sb.table v with nearmap := true } with
          nearmap := Function.update sb.nearmap v fun version =>
            (sb.kids v).contains version || version == v }) =
        sb.cached table sb.pathmap nearmap ∧ Flagged sb.table table ∧
      Tidy (sb.cached table sb.pathmap nearmap) ∧
      ∀ u, nearmap v u = true ↔ u = v ∨ u ∈ sb.kids v := by
    by_cases hf : (sb.table v).nearmap = true
    · rw [if_pos hf]
      exact ⟨sb.table, sb.nearmap, rfl, fun _ => rfl, h, h.shape.near v hv hv0 hf⟩
    · rw [if_neg hf]
      have hflag : Flagged sb.table
          (Function.update sb.table v { sb.table v with nearmap := true }) := by
        intro u
        by_cases hu : u = v
        · rw [hu, Function.update_self]
        · rw [Function.update_of_ne hu]
      have hmap : ∀ u, Function.update sb.nearmap v (fun version =>
          (sb.kids v).contains version || version == v) v u = true ↔ u = v ∨ u ∈ sb.kids v := by
        intro u
        rw [Function.update_self, Bool.or_eq_true, List.contains_iff_mem, beq_iff_eq, or_comm]
      refine ⟨Function.update sb.table v { sb.table v with nearmap := true }, _, rfl, hflag,
        h.cached hflag (fun w hw hwf => ?_) (fun w hw hw0 hwf => ?_), hmap⟩
      · refine h.shape.path w hw ?_
        by_cases hwv : w = v
        · rw [hwv, Function.update_self] at hwf
          exact hwv ▸ hwf
        · rwa [Function.update_of_ne hwv] at hwf
      · by_cases hwv : w = v
        · exact hwv ▸ hmap
        · rw [Function.update_of_ne hwv] at hwf ⊢
          exact h.shape.near w hw hw0 hwf
  obtain ⟨table, nearmap, hsb, f, h', hmap⟩ := hload
  obtain ⟨hle, hiff⟩ := near_card h hv hv0 hmap
  refine ⟨_, table, nearmap, ?_, f, h', hiff⟩
  rw [countNear]
  simp only [hsb]
  exact if_pos hle

end

end Tux3.Version
