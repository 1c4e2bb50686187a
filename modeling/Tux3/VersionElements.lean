import Tux3.VersionEdit

/-!
# The element list

The flags, counts and searches over the element list in terms of the labels on the version tree.
-/
namespace Tux3.Version

open Rooted

/-- The labels in the element list. -/
def Sb.labels (sb : Sb) : List ℕ := sb.elements.map Element.label

/-- The data that the element of a version holds. -/
def Sb.datum (sb : Sb) (v : ℕ) : Option ℕ := (findElement sb v).map fun e => sb.snapdata e.chunk

/-- The data that a version reads. -/
def Sb.value (sb : Sb) (v : ℕ) : ℕ := Rooted.value (getParent sb) sb.ordmap sb.datum sb.orgdata v

/-- The state with other `present` flags and chunks. -/
def Sb.marked (sb : Sb) (present : ℕ → Bool) (allocmap : ℕ → Bool) : Sb :=
  { sb with
    table := fun v => { sb.table v with present := present v }
    allocmap := allocmap }

/-- The chunks marked are those of the elements, one each. -/
structure Store (sb : Sb) : Prop where
  nodup : (sb.elements.map Element.chunk).Nodup
  alloc : ∀ chunk, sb.allocmap chunk = true ↔ chunk ∈ sb.elements.map Element.chunk
  lt : ∀ chunk, sb.allocmap chunk = true → chunk < maxChunks
  next : sb.nextchunk ≤ maxChunks

section
variable {sb : Sb} {mem : ℕ → Prop} {depth : ℕ → ℕ} {v w : ℕ} {e : Element}

/-! ## Elements by label -/

theorem mem_labels : v ∈ sb.labels ↔ ∃ e ∈ sb.elements, e.label = v := List.mem_map

theorem findElement_none : findElement sb v = none ↔ v ∉ sb.labels := by
  rw [findElement, List.find?_eq_none, mem_labels]
  simp only [decide_eq_true_eq, not_exists, not_and]

theorem findElement_some (h : findElement sb v = some e) : e ∈ sb.elements ∧ e.label = v :=
  ⟨List.mem_of_find?_eq_some h, by simpa using List.find?_some h⟩

theorem findElement_isSome : (∃ e, findElement sb v = some e) ↔ v ∈ sb.labels := by
  rw [← not_iff_not, ← findElement_none, not_exists, Option.eq_none_iff_forall_ne_some]

theorem findElement_eq (hnodup : sb.labels.Nodup) (he : e ∈ sb.elements) :
    findElement sb e.label = some e := by
  obtain ⟨e', he'⟩ := findElement_isSome.mpr (mem_labels.mpr ⟨e, he, rfl⟩)
  obtain ⟨hmem, hlabel⟩ := findElement_some he'
  rw [he', List.inj_on_of_nodup_map hnodup hmem he hlabel]

theorem datum_none : sb.datum v = none ↔ v ∉ sb.labels := by
  rw [Sb.datum, Option.map_eq_none_iff, findElement_none]

theorem datum_eq (hnodup : sb.labels.Nodup) (he : e ∈ sb.elements) :
    sb.datum e.label = some (sb.snapdata e.chunk) := by
  rw [Sb.datum, findElement_eq hnodup he]
  rfl

/-! ## Flags -/

theorem setPresent_table (sb : Sb) (flag : Bool) (v : ℕ) : (setPresent sb flag).table v =
    { sb.table v with present := if v ∈ sb.labels then flag else (sb.table v).present } := by
  have hfold : ∀ (es : List Element) (table : ℕ → Entry),
      es.foldl (fun table e => Function.update table e.label { table e.label with present := flag })
        table v =
      { table v with present := if v ∈ es.map Element.label then flag else (table v).present } := by
    intro es
    induction es with
    | nil => exact fun table => rfl
    | cons e es ih =>
        intro table
        rw [List.foldl_cons, ih, List.map_cons]
        by_cases hv : v = e.label
        · subst hv
          rw [Function.update_self, if_pos List.mem_cons_self]
          dsimp only
          rw [ite_self]
        · rw [Function.update_of_ne hv]
          simp only [List.mem_cons, hv, false_or]
  exact hfold sb.elements sb.table

theorem setPresent_true (hclear : ∀ v, (sb.table v).present = false) :
    setPresent sb true = sb.marked (fun v => decide (v ∈ sb.labels)) sb.allocmap := by
  have htable : (setPresent sb true).table =
      fun v => { sb.table v with present := decide (v ∈ sb.labels) } := by
    funext v
    rw [setPresent_table, hclear]
    by_cases hv : v ∈ sb.labels
    · rw [if_pos hv, decide_eq_true hv]
    · rw [if_neg hv, decide_eq_false hv]
  rw [Sb.marked, ← htable]
  rfl

/-- Clearing the flags of the elements clears all when no others are set. -/
theorem setPresent_false (hclear : ∀ v, (sb.table v).present = false) {present allocmap : ℕ → Bool}
    {es : List Element} (h : ∀ v, present v = true → v ∈ es.map Element.label) :
    setPresent { sb.marked present allocmap with elements := es } false =
      { sb with elements := es, allocmap := allocmap } := by
  have htable : (setPresent { sb.marked present allocmap with elements := es } false).table =
      sb.table := by
    funext v
    rw [setPresent_table]
    change { sb.table v with present := if v ∈ es.map Element.label then false else present v } = _
    have hflag : (if v ∈ es.map Element.label then false else present v) =
        (sb.table v).present := by
      rw [hclear]
      split
      · rfl
      · next hv =>
          by_contra hp
          exact hv (h v (Bool.not_eq_false _ ▸ hp))
    rw [hflag]
  rw [show ({ sb with elements := es, allocmap := allocmap } : Sb) =
    { sb.marked present allocmap with elements := es, table := sb.table } from rfl, ← htable]
  rfl

theorem Shape.marked (h : Shape sb mem depth) (present allocmap : ℕ → Bool) :
    Shape (sb.marked present allocmap) mem depth :=
  h.congr rfl rfl rfl rfl rfl rfl fun _ => ⟨rfl, rfl, id, id⟩

/-! ## Heirs -/

/-- `w` counts and inherits from `v` over versions that are not in a list. -/
def Heir (sb : Sb) (mem : ℕ → Prop) (labels : List ℕ) (v w : ℕ) : Prop :=
  mem w ∧ isGhost sb w = false ∧ Inherits 0 (getParent sb) (· ∈ labels) v w

/-- `count_heirs` counts the heirs over the flagged versions. -/
theorem countHeirs_spec (h : Shape sb mem depth) {labels : List ℕ} (allocmap : ℕ → Bool)
    (hv : mem v) :
    ∃ n, countHeirs (sb.marked (fun u => decide (u ∈ labels)) allocmap) v = some n ∧
      (n = 0 ↔ ∀ w, ¬ Heir sb mem labels v w) ∧
      (n = 1 → ∀ w w', Heir sb mem labels v w → Heir sb mem labels v w' → w = w') ∧
      ((∃ w, Heir sb mem labels v w) →
        (∀ w w', Heir sb mem labels v w → Heir sb mem labels v w' → w = w') → n = 1) := by
  have hm := h.marked (fun u => decide (u ∈ labels)) allocmap
  have hkid : ∀ v, mem v → ∀ c ∈ (sb.marked (fun u => decide (u ∈ labels)) allocmap).kids v,
      mem c ∧ depth c = depth v + 1 := by
    intro v _ c hc
    obtain ⟨hc, -, -, hd⟩ := hm.kid hc
    exact ⟨hc, hd⟩
  have heq := heirsFrom_eq hkid maxVersions (fun u hu => by have := h.depth_lt hu; omega) hv
  have hheight : ∀ u, mem u → depth u < maxVersions := fun u hu => h.depth_lt hu
  set l := heirs (sb.marked (fun u => decide (u ∈ labels)) allocmap).kids
    (isPresent (sb.marked (fun u => decide (u ∈ labels)) allocmap))
    (fun c => !isGhost (sb.marked (fun u => decide (u ∈ labels)) allocmap) c) maxVersions v with hl
  have hmem : ∀ w, w ∈ l ↔ Heir sb mem labels v w := by
    intro w
    rw [hl, mem_heirs hm.tree hm.kids hheight hv (Nat.le_add_right _ _), Heir, Bool.not_eq_true']
    refine and_congr_right fun _ => and_congr Iff.rfl ?_
    exact iff_of_eq (congrArg (fun P => Inherits 0 (getParent sb) P v w)
      (funext fun u => propext decide_eq_true_iff))
  have hnodup : l.Nodup := heirs_nodup hm.tree hm.kids hheight hv (Nat.le_add_right _ _)
  refine ⟨l.length, heq, ?_, fun hone w w' hw hw' => ?_, fun hex huniq => ?_⟩
  · rw [List.length_eq_zero_iff, List.eq_nil_iff_forall_not_mem]
    exact forall_congr' fun w => not_congr (hmem w)
  · obtain ⟨a, ha⟩ := List.length_eq_one_iff.mp hone
    have h₁ := (hmem w).mpr hw
    have h₂ := (hmem w').mpr hw'
    rw [ha, List.mem_singleton] at h₁ h₂
    exact h₁.trans h₂.symm
  · obtain ⟨w, hw⟩ := hex
    have hall : ∀ u ∈ l, u = w := fun u hu => huniq u w ((hmem u).mp hu) hw
    have hw' := (hmem w).mpr hw
    match l, hnodup, hall, hw' with
    | [a], _, _, _ => rfl
    | a :: b :: rest, hnodup, hall, _ =>
        have hab : a = b := (hall a List.mem_cons_self).trans
          (hall b (List.mem_cons_of_mem _ List.mem_cons_self)).symm
        exact absurd (hab ▸ List.mem_cons_self) (List.nodup_cons.mp hnodup).1

/-! ## Broods -/

theorem brood_eq (parent : ℕ → ℕ) (es : List Element) (brood : ℕ → ℕ) (v : ℕ) :
    es.foldl (fun brood e =>
      Function.update brood (parent e.label) (brood (parent e.label) + 1)) brood v =
      brood v + ((es.map Element.label).filter fun u => parent u = v).length := by
  induction es generalizing brood with
  | nil => rfl
  | cons e es ih =>
      rw [List.foldl_cons, ih, List.map_cons]
      by_cases hv : parent e.label = v
      · rw [List.filter_cons_of_pos (by simpa using hv), hv, Function.update_self, List.length_cons]
        omega
      · rw [List.filter_cons_of_neg (by simpa using hv), Function.update_of_ne (Ne.symm hv)]

/-- The brood of a version is how many of its children are in the list. -/
theorem brood_spec (h : Shape sb mem depth) {labels : List ℕ} (hnodup : labels.Nodup)
    (hkids : ∀ u ∈ labels, getParent sb u = v → u ∈ sb.kids v) :
    (labels.filter fun u => getParent sb u = v).length ≤ sb.childCount v ∧
      (sb.childCount v = (labels.filter fun u => getParent sb u = v).length →
        ∀ c ∈ sb.kids v, c ∈ labels) ∧
      ((labels.filter fun u => getParent sb u = v).length = 0 → ∀ c ∈ sb.kids v, c ∉ labels) := by
  have hsub : (labels.filter fun u => getParent sb u = v).toFinset ⊆ (sb.kids v).toFinset := by
    intro u hu
    rw [List.mem_toFinset, List.mem_filter, decide_eq_true_eq] at hu
    exact List.mem_toFinset.mpr (hkids u hu.1 hu.2)
  have hlen : (labels.filter fun u => getParent sb u = v).toFinset.card =
      (labels.filter fun u => getParent sb u = v).length :=
    List.toFinset_card_of_nodup (hnodup.filter _)
  have hcard := Kids.count h.kids v
  refine ⟨by rw [← hlen, hcard]; exact Finset.card_le_card hsub, fun heq c hc => ?_,
    fun hzero c hc hin => ?_⟩
  · have hall := Finset.eq_of_subset_of_card_le hsub (by rw [hlen, ← hcard, heq])
    have hc' := List.mem_toFinset.mpr hc
    rw [← hall, List.mem_toFinset, List.mem_filter] at hc'
    exact hc'.1
  · have hc' : c ∈ labels.filter fun u => getParent sb u = v :=
      List.mem_filter.mpr ⟨hin, decide_eq_true (h.kid hc).2.2.1⟩
    rw [List.length_eq_zero_iff.mp hzero] at hc'
    cases hc'

/-! ## The nearest label -/

/-- The walk up to a flagged version finds the one that `v` is or inherits from. -/
theorem presentAncestor_spec (t : Tree 0 mem (getParent sb) depth) {labels : List ℕ}
    (hflag : ∀ u, isPresent sb u = true ↔ u ∈ labels) (hv : mem v) {fuel : ℕ}
    (hfuel : depth v ≤ fuel) : ∃ a, presentAncestor sb fuel v = some a ∧ mem a ∧
      (a ≠ 0 → a ∈ labels ∧ (v = a ∨ Inherits 0 (getParent sb) (· ∈ labels) a v)) ∧
      ∀ x ∈ labels, v = x ∨ Inherits 0 (getParent sb) (· ∈ labels) x v → x = a := by
  induction fuel generalizing v with
  | zero =>
      cases v with
      | zero =>
          refine ⟨0, rfl, hv, fun hne => absurd rfl hne, fun x hx hin => ?_⟩
          rcases hin with rfl | hin
          · rfl
          · exact absurd rfl hin.ne_origin
      | succ v =>
          have := t.depth_pos hv (Nat.succ_ne_zero v)
          omega
  | succ fuel ih =>
      cases v with
      | zero =>
          refine ⟨0, rfl, hv, fun hne => absurd rfl hne, fun x hx hin => ?_⟩
          rcases hin with rfl | hin
          · rfl
          · exact absurd rfl hin.ne_origin
      | succ v =>
          rw [presentAncestor]
          by_cases hp : isPresent sb (v + 1) = true
          · rw [if_pos hp]
            have hin := (hflag _).mp hp
            refine ⟨v + 1, rfl, hv, fun _ => ⟨hin, Or.inl rfl⟩, fun x hx hx' => ?_⟩
            rcases hx' with rfl | hx'
            · rfl
            · exact absurd hin hx'.unlabelled
          · rw [if_neg hp]
            have hnot : v + 1 ∉ labels := mt (hflag _).mpr hp
            obtain ⟨hpm, hpd⟩ := t.up _ hv (Nat.succ_ne_zero v)
            obtain ⟨a, ha, ham, hup, huniq⟩ := ih hpm (by omega)
            refine ⟨a, ha, ham, fun ha0 => ⟨(hup ha0).1, Or.inr ?_⟩, fun x hx hin => ?_⟩
            · rcases (hup ha0).2 with heq | hin
              · exact .child (Nat.succ_ne_zero v) hnot heq
              · exact .step (Nat.succ_ne_zero v) hnot hin
            · rcases hin with rfl | hin
              · exact absurd hx hnot
              · exact huniq x hx ((inherits_iff (Nat.succ_ne_zero v)).mp hin).2

end

end Tux3.Version
