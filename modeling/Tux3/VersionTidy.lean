import Tux3.VersionDelete

/-!
# The invariant of the version table

The versions in use form a tree in which a ghost has at least two children, no label is shared,
and the element of a ghost is inherited. So there are fewer ghosts than snapshots.
-/
namespace Tux3.Version

open Rooted

/-- The versions in use. -/
def Sb.mem (sb : Sb) (v : ℕ) : Prop := v < sb.versionCount ∧ (sb.table v).used = true

def Sb.members (sb : Sb) : Finset ℕ :=
  (Finset.range sb.versionCount).filter fun v => (sb.table v).used = true

/-- A version that a tag can name. -/
def Sb.snapshot (sb : Sb) (v tag : ℕ) : Prop :=
  sb.mem v ∧ v ≠ 0 ∧ isGhost sb v = false ∧ (sb.table v).tag = tag

/-- No two snapshots have the same tag. -/
def Sb.distinct (sb : Sb) : Prop := ∀ v w tag, sb.snapshot v tag → sb.snapshot w tag → v = w

/-- The snapshot with a tag reads a value. -/
def Sb.reads (sb : Sb) (tag x : ℕ) : Prop := ∃ v, sb.snapshot v tag ∧ sb.value v = x

structure Tidy (sb : Sb) : Prop where
  shape : Shape sb sb.mem sb.ordmap
  order : sb.ordmap 0 = 0
  active : sb.activeCount = sb.members.card
  clear : ∀ v, (sb.table v).present = false
  origin : isGhost sb 0 = false
  ghosts : ∀ v, sb.mem v → isGhost sb v = true → 2 ≤ sb.childCount v
  free : ∀ v < sb.versionCount, (sb.table v).used = false → isGhost sb v = true
  nodup : sb.labels.Nodup
  place : ∀ v ∈ sb.labels, v ≠ 0 ∧ sb.mem v
  heirs : ∀ v ∈ sb.labels, isGhost sb v = true → ∃ w, Heir sb sb.mem sb.labels v w
  store : Store sb

section
variable {sb : Sb} {v w tag : ℕ}

theorem mem_members : v ∈ sb.members ↔ sb.mem v := by
  rw [Sb.members, Finset.mem_filter, Finset.mem_range, Sb.mem]

/-! ## Tags -/

theorem Tidy.findTag (h : Tidy sb) (hd : sb.distinct) (hv : sb.snapshot v tag) :
    findTag sb tag = some v := by
  have hmem := hv.1
  have hrange : ∀ u, u ∈ List.range' 1 (sb.versionCount - 1) ↔ u ≠ 0 ∧ u < sb.versionCount := by
    intro u
    rw [List.mem_range'_1]
    omega
  have hfind : ∀ u, u ≠ 0 → u < sb.versionCount →
      (!isGhost sb u && (sb.table u).tag == tag) = true → u = v := by
    intro u hu0 hu hcond
    rw [Bool.and_eq_true, Bool.not_eq_true', beq_iff_eq] at hcond
    have hused : (sb.table u).used = true := by
      by_contra hfree
      rw [h.free u hu (Bool.not_eq_true _ ▸ hfree)] at hcond
      cases hcond.1
    exact hd u v tag ⟨⟨hu, hused⟩, hu0, hcond⟩ hv
  rw [Version.findTag]
  cases hres : (List.range' 1 (sb.versionCount - 1)).find? fun version =>
      !isGhost sb version && (sb.table version).tag == tag with
  | some u =>
      have hu := (hrange u).mp (List.mem_of_find?_eq_some hres)
      have hcond := List.find?_some (p := fun version =>
        !isGhost sb version && (sb.table version).tag == tag) hres
      rw [hfind u hu.1 hu.2 hcond]
  | none =>
      have := List.find?_eq_none.mp hres v ((hrange v).mpr ⟨hv.2.1, hmem.1⟩)
      rw [hv.2.2.1, hv.2.2.2] at this
      exact absurd (by simp) this

/-! ## How many versions there are -/

def Sb.ghosts (sb : Sb) : Finset ℕ := sb.members.filter fun v => isGhost sb v = true

def Sb.snapshots (sb : Sb) : Finset ℕ :=
  sb.members.filter fun v => v ≠ 0 ∧ isGhost sb v = false

theorem mem_ghosts : v ∈ sb.ghosts ↔ sb.mem v ∧ isGhost sb v = true := by
  rw [Sb.ghosts, Finset.mem_filter, mem_members]

theorem mem_snapshots : v ∈ sb.snapshots ↔ sb.mem v ∧ v ≠ 0 ∧ isGhost sb v = false := by
  rw [Sb.snapshots, Finset.mem_filter, mem_members]

theorem Tidy.zero_mem (h : Tidy sb) : sb.mem 0 := h.shape.tree.origin

theorem Tidy.zero_ghost (h : Tidy sb) : 0 ∉ sb.ghosts := by
  rw [mem_ghosts, h.origin]
  exact fun hg => (nomatch hg.2)

theorem Tidy.members_card (h : Tidy sb) :
    sb.members.card = sb.ghosts.card + sb.snapshots.card + 1 := by
  have hunion : sb.members = insert 0 (sb.ghosts ∪ sb.snapshots) := by
    ext v
    rw [mem_members, Finset.mem_insert, Finset.mem_union, mem_ghosts, mem_snapshots]
    by_cases hv : v = 0
    · rw [hv]
      exact ⟨fun _ => Or.inl rfl, fun _ => h.zero_mem⟩
    · cases isGhost sb v with
      | true => exact ⟨fun hm => Or.inr (Or.inl ⟨hm, rfl⟩), fun hm => by tauto⟩
      | false => exact ⟨fun hm => Or.inr (Or.inr ⟨hm, hv, rfl⟩), fun hm => by tauto⟩
  have hdisjoint : Disjoint sb.ghosts sb.snapshots := by
    rw [Finset.disjoint_left]
    intro v hg hs
    rw [mem_ghosts] at hg
    rw [mem_snapshots, hg.2] at hs
    cases hs.2.2
  rw [hunion, Finset.card_insert_of_notMem, Finset.card_union_of_disjoint hdisjoint]
  rw [Finset.mem_union, mem_snapshots]
  rintro (hg | hs)
  · exact h.zero_ghost hg
  · exact hs.2.1 rfl

theorem Tidy.sum_children (h : Tidy sb) :
    ∑ v ∈ Finset.range sb.versionCount, sb.childCount v = sb.members.card - 1 := by
  classical
  rw [h.shape.sum_kids, ← Finset.card_erase_of_mem (mem_members.mpr h.zero_mem)]
  congr 1
  ext v
  rw [Finset.mem_erase, mem_members, Finset.mem_filter, Finset.mem_range]
  exact ⟨fun hv => ⟨hv.2.2, hv.2.1⟩, fun hv => ⟨hv.2.1, hv.2, hv.1⟩⟩

theorem Tidy.ghost_children (h : Tidy sb) :
    2 * sb.ghosts.card ≤ ∑ v ∈ sb.ghosts, sb.childCount v := by
  calc 2 * sb.ghosts.card = sb.ghosts.card * 2 := Nat.mul_comm _ _
    _ = ∑ _v ∈ sb.ghosts, 2 := (Finset.sum_const_nat fun _ _ => rfl).symm
    _ ≤ ∑ v ∈ sb.ghosts, sb.childCount v := Finset.sum_le_sum fun v hv => by
      obtain ⟨hm, hg⟩ := mem_ghosts.mp hv
      exact h.ghosts v hm hg

/-- The children of the ghosts, of the origin and of a snapshot are all different. -/
theorem Tidy.census (h : Tidy sb) (hv : v ∈ sb.snapshots) :
    sb.ghosts.card + sb.childCount v + 1 ≤ sb.snapshots.card := by
  obtain ⟨hm, hv0, hg⟩ := mem_snapshots.mp hv
  have hsub : insert 0 (insert v sb.ghosts) ⊆ Finset.range sb.versionCount := by
    intro u hu
    rw [Finset.mem_insert, Finset.mem_insert] at hu
    rw [Finset.mem_range]
    rcases hu with rfl | rfl | hu
    · exact h.zero_mem.1
    · exact hm.1
    · exact (mem_ghosts.mp hu).1.1
  have hvg : v ∉ sb.ghosts := by
    rw [mem_ghosts, hg]
    exact fun hc => (nomatch hc.2)
  have h0 : 0 ∉ insert v sb.ghosts := by
    rw [Finset.mem_insert, not_or]
    exact ⟨hv0.symm, h.zero_ghost⟩
  have hle := Finset.sum_le_sum_of_subset hsub (f := sb.childCount)
  rw [Finset.sum_insert h0, Finset.sum_insert hvg, h.sum_children, h.members_card] at hle
  obtain ⟨r, -, hr⟩ := h.shape.getRoot hm hv0
  have hone : sb.childCount 0 = 1 := by
    rw [← kids_length, hr]
    rfl
  have := h.ghost_children
  omega

theorem Tidy.no_ghosts (h : Tidy sb) (hnone : sb.snapshots.card = 0) : sb.ghosts.card = 0 := by
  have hsub : sb.ghosts ⊆ Finset.range sb.versionCount := fun u hu =>
    Finset.mem_range.mpr (mem_ghosts.mp hu).1.1
  have hle := Finset.sum_le_sum_of_subset hsub (f := sb.childCount)
  rw [h.sum_children, h.members_card] at hle
  have := h.ghost_children
  omega

theorem Tidy.slot (h : Tidy sb) (hcard : sb.members.card < maxVersions)
    (hfull : sb.versionCount = maxVersions) :
    ∃ v, 0 < v ∧ v < sb.versionCount ∧ (sb.table v).used = false := by
  by_contra hnone
  push Not at hnone
  have hall : Finset.range sb.versionCount ⊆ sb.members := by
    intro v hv
    rw [Finset.mem_range] at hv
    rw [mem_members]
    by_cases hv0 : v = 0
    · exact hv0 ▸ h.zero_mem
    · exact ⟨hv, Bool.eq_true_of_not_eq_false (hnone v (Nat.pos_of_ne_zero hv0) hv)⟩
  have hle := Finset.card_le_card hall
  rw [Finset.card_range, hfull] at hle
  omega

theorem Tidy.slot_new (h : Tidy sb) (hcard : sb.snapshots.card < 128) :
    sb.members.card < maxVersions := by
  rw [h.members_card, maxVersions]
  by_cases hzero : sb.snapshots.card = 0
  · rw [h.no_ghosts hzero]
    omega
  · obtain ⟨v, hv⟩ := Finset.card_pos.mp (Nat.pos_of_ne_zero hzero)
    have := h.census hv
    omega

theorem Tidy.slot_implicit (h : Tidy sb) (hcard : sb.snapshots.card ≤ 128) (hv : v ∈ sb.snapshots)
    (hkids : sb.childCount v ≠ 0) : sb.members.card < maxVersions := by
  have := h.census hv
  rw [h.members_card, maxVersions]
  omega

theorem Tidy.elements_lt (h : Tidy sb) : sb.elements.length < sb.members.card := by
  have hsub : sb.labels.toFinset ⊆ sb.members.erase 0 := by
    intro v hv
    obtain ⟨hv0, hm⟩ := h.place v (List.mem_toFinset.mp hv)
    exact Finset.mem_erase.mpr ⟨hv0, mem_members.mpr hm⟩
  have hle := Finset.card_le_card hsub
  rw [List.toFinset_card_of_nodup h.nodup,
    Finset.card_erase_of_mem (mem_members.mpr h.zero_mem), Sb.labels, List.length_map] at hle
  have := h.members_card
  omega

theorem Tidy.members_le (h : Tidy sb) : sb.members.card ≤ maxVersions := by
  refine (Finset.card_filter_le _ _).trans ?_
  rw [Finset.card_range]
  exact h.shape.le_max

/-! ## Ghosts -/

/-- A version becomes a ghost. -/
def hide (sb : Sb) (v tag : ℕ) : Sb := sb.setEntry v { sb.table v with tag := tag, ghost := true }

theorem hide_table (u : ℕ) : (hide sb v tag).table u = { sb.table u with
    tag := if u = v then tag else (sb.table u).tag
    ghost := if u = v then true else (sb.table u).ghost } := by
  rw [hide, Sb.setEntry]
  by_cases hu : u = v
  · subst hu
    simp only [Function.update_self, if_true]
  · simp only [Function.update_of_ne hu, if_neg hu]

theorem hide_parent : getParent (hide sb v tag) = getParent sb := by
  funext u
  rw [getParent, hide_table]
  rfl

theorem hide_mem : (hide sb v tag).mem = sb.mem := by
  funext u
  rw [Sb.mem, hide_table]
  rfl

theorem hide_ghost (u : ℕ) : isGhost (hide sb v tag) u = if u = v then true else isGhost sb u := by
  rw [isGhost, hide_table]
  rfl

theorem hide_snapshot {u t : ℕ} :
    (hide sb v tag).snapshot u t ↔ u ≠ v ∧ sb.snapshot u t := by
  rw [Sb.snapshot, hide_mem, hide_ghost, hide_table]
  by_cases hu : u = v
  · rw [if_pos hu]
    exact ⟨fun hs => (nomatch hs.2.2.1), fun hs => absurd hu hs.1⟩
  · rw [if_neg hu, and_iff_right hu]
    exact Iff.of_eq (by rw [if_neg hu]; rfl)

theorem hide_heir {mem : ℕ → Prop} {labels : List ℕ} {a : ℕ} :
    Heir (hide sb v tag) mem labels a w ↔ w ≠ v ∧ Heir sb mem labels a w := by
  rw [Heir, hide_ghost, hide_parent]
  by_cases hw : w = v
  · rw [if_pos hw]
    exact ⟨fun hh => Bool.noConfusion hh.2.1, fun hh => absurd hw hh.1⟩
  · rw [if_neg hw, and_iff_right hw]
    rfl

theorem hide_shape {mem : ℕ → Prop} {depth : ℕ → ℕ} (h : Shape sb mem depth) :
    Shape (hide sb v tag) mem depth := by
  refine h.congr rfl rfl rfl rfl rfl rfl fun u => ?_
  rw [hide_table]
  exact ⟨rfl, rfl, id, id⟩

theorem hide_value (u : ℕ) : (hide sb v tag).value u = sb.value u := by
  rw [Sb.value, hide_parent]
  rfl

/-- A version with two children, one of which inherits from it, can become a ghost. -/
theorem Tidy.hide {c : ℕ} (h : Tidy sb) (hv0 : v ≠ 0) (hkids : 2 ≤ sb.childCount v)
    (hc : c ∈ sb.kids v) (hg : isGhost sb c = false) (hl : c ∉ sb.labels) :
    Tidy (hide sb v tag) := by
  obtain ⟨hcm, hc0, hcp, -⟩ := h.shape.kid hc
  have hcv : c ≠ v := fun heq => h.shape.tree.parent_ne hcm hc0 (hcp.trans heq.symm)
  have hmem := @hide_mem sb v tag
  refine ⟨hmem ▸ hide_shape h.shape, h.order, ?_, fun u => ?_, ?_, fun u hu hgu => ?_,
    fun u hu hf => ?_, h.nodup, fun u hu => ?_, fun u hu hgu => ?_,
    ⟨h.store.nodup, h.store.alloc, h.store.lt, h.store.next⟩⟩
  · refine h.active.trans (congrArg Finset.card (Finset.ext fun u => ?_))
    rw [mem_members, mem_members, hmem]
  · rw [hide_table]
    exact h.clear u
  · rw [hide_ghost, if_neg hv0.symm]
    exact h.origin
  · rw [hmem] at hu
    by_cases huv : u = v
    · exact huv ▸ hkids
    · rw [hide_ghost, if_neg huv] at hgu
      exact h.ghosts u hu hgu
  · rw [hide_table] at hf
    rw [hide_ghost]
    split
    · rfl
    · exact h.free u hu hf
  · rw [hmem]
    exact h.place u hu
  · rw [hmem]
    change ∃ w, Heir (Version.hide sb v tag) sb.mem sb.labels u w
    by_cases huv : u = v
    · refine ⟨c, hide_heir.mpr ⟨hcv, hcm, hg, ?_⟩⟩
      exact .child hc0 hl (hcp.trans huv.symm)
    · rw [hide_ghost, if_neg huv] at hgu
      obtain ⟨w, hw⟩ := h.heirs u hu hgu
      by_cases hwv : w = v
      · subst hwv
        refine ⟨c, hide_heir.mpr ⟨hcv, hcm, hg, ?_⟩⟩
        exact .step hc0 hl (hcp ▸ hw.2.2)
      · exact ⟨w, hide_heir.mpr ⟨hwv, hw⟩⟩

end

end Tux3.Version
