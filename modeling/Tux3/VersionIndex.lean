import Tux3.Version
import Mathlib.Data.List.Sort

/-!
# The packed children array

The children of all versions lie in one array, slot after slot. Insertion, removal and
replacement shift it in place and do to the lists of children what they do to one list.
-/
namespace Tux3.Version

/-- The slots of the versions follow each other. -/
structure Packed (sb : Sb) : Prop where
  zero : sb.childIndex 0 = 0
  next : ∀ v, v + 1 < sb.versionCount → sb.childIndex (v + 1) = sb.childIndex v + sb.childCount v
  beyond : ∀ v, sb.versionCount ≤ v → sb.childCount v = 0

/-- The slots end before the last entry of the array. -/
def Room (sb : Sb) : Prop :=
  ∀ v < sb.versionCount, sb.childIndex v + sb.childCount v < sb.versionCount

section
variable {sb : Sb} {u v : ℕ}

@[simp] theorem kids_length (sb : Sb) (v : ℕ) : (sb.kids v).length = sb.childCount v := by
  rw [Sb.kids, List.length_map, List.length_range]

theorem kids_getElem {i : ℕ} (h : i < (sb.kids v).length) : (sb.kids v)[i] = getChild sb v i := by
  simp only [Sb.kids, List.getElem_map, List.getElem_range]

theorem Packed.slot_le (h : Packed sb) (huv : u < v) (hv : v < sb.versionCount) :
    sb.childIndex u + sb.childCount u ≤ sb.childIndex v := by
  induction v with
  | zero => cases huv
  | succ v ih =>
      rw [h.next v hv]
      cases Nat.lt_succ_iff_lt_or_eq.mp huv with
      | inl hlt => exact Nat.le_trans (ih hlt (by omega)) (Nat.le_add_right _ _)
      | inr heq => exact Nat.le_of_eq (by rw [heq])

theorem kids_eq {l : List ℕ} (hcount : sb.childCount v = l.length)
    (hslot : ∀ i (h : i < l.length), sb.children (sb.childIndex v + i) = l[i]) : sb.kids v = l := by
  refine List.ext_getElem (by rw [kids_length, hcount]) fun i h1 h2 => ?_
  rw [kids_getElem]
  exact hslot i h2

theorem kids_congr {sb' : Sb} (hcount : sb'.childCount v = sb.childCount v)
    (hslot : ∀ i < sb.childCount v,
      sb'.children (sb'.childIndex v + i) = sb.children (sb.childIndex v + i)) :
    sb'.kids v = sb.kids v := by
  refine kids_eq (by rw [kids_length, hcount]) fun i h => ?_
  rw [kids_getElem]
  exact hslot i (kids_length sb v ▸ h)

/-- Insertion of a value at place `k` of the children of `p`. -/
theorem insert_kids {sb' : Sb} {p k x : ℕ} (h : Packed sb) (hroom : Room sb)
    (hp : p < sb.versionCount) (hk : k ≤ sb.childCount p)
    (hcount : sb'.versionCount = sb.versionCount)
    (hchildren : sb'.children = Function.update (vecmove sb.children (sb.childIndex p + k + 1)
      (sb.childIndex p + k) (sb.versionCount - (sb.childIndex p + k) - 1)) (sb.childIndex p + k) x)
    (hindex : ∀ i, sb'.childIndex i =
      if p < i ∧ i < sb.versionCount then sb.childIndex i + 1 else sb.childIndex i)
    (hcounts : sb'.childCount = Function.update sb.childCount p (sb.childCount p + 1)) :
    Packed sb' ∧ sb'.kids p = (sb.kids p).take k ++ x :: (sb.kids p).drop k ∧
      ∀ v ≠ p, sb'.kids v = sb.kids v := by
  refine ⟨⟨?_, fun v hv => ?_, fun v hv => ?_⟩, ?_, fun v hv => ?_⟩
  · rw [hindex]
    simp only [Nat.not_lt_zero, false_and, if_false, h.zero]
  · rw [hcount] at hv
    have hnext := h.next v hv
    rw [hindex, hindex, hcounts]
    by_cases hvp : v = p
    · subst hvp
      rw [Function.update_self]
      simp only [Nat.lt_irrefl, false_and, if_false]
      rw [if_pos ⟨Nat.lt_succ_self v, hv⟩, hnext]
      rfl
    · rw [Function.update_of_ne hvp]
      by_cases hlt : p < v
      · rw [if_pos ⟨by omega, hv⟩, if_pos ⟨hlt, by omega⟩, hnext]
        omega
      · rw [if_neg (by omega), if_neg (by omega), hnext]
  · rw [hcount] at hv
    rw [hcounts, Function.update_of_ne (by omega), h.beyond v hv]
  · have hlen : (sb.kids p).length = sb.childCount p := kids_length sb p
    refine kids_eq ?_ fun i hi => ?_
    · rw [hcounts, Function.update_self, List.length_append, List.length_cons, List.length_take,
        List.length_drop, hlen]
      omega
    · have hroom' := hroom p hp
      have hi' : i < sb.childCount p + 1 := by
        rw [List.length_append, List.length_cons, List.length_take, List.length_drop, hlen] at hi
        omega
      rw [hindex, hchildren]
      simp only [Nat.lt_irrefl, false_and, if_false]
      rcases Nat.lt_trichotomy i k with hlt | heq | hgt
      · rw [Function.update_of_ne (by omega), vecmove, if_neg (by omega),
          List.getElem_append_left (by rw [List.length_take]; omega), List.getElem_take,
          kids_getElem]
        rfl
      · subst heq
        rw [Function.update_self, List.getElem_append_right (by rw [List.length_take]; omega)]
        simp only [List.length_take, hlen, Nat.min_eq_left hk, Nat.sub_self, List.getElem_cons_zero]
      · rw [Function.update_of_ne (by omega), vecmove, if_pos ⟨by omega, by omega⟩,
          List.getElem_append_right (by rw [List.length_take]; omega)]
        obtain ⟨j, rfl⟩ := Nat.exists_eq_add_of_lt hgt
        simp only [List.length_take, hlen, Nat.min_eq_left hk]
        have hj : k + j + 1 - k = j + 1 := by omega
        simp only [hj, List.getElem_cons_succ, List.getElem_drop, kids_getElem, getChild]
        congr 1
        omega
  · refine kids_congr (by rw [hcounts, Function.update_of_ne hv]) fun i hi => ?_
    by_cases hvn : v < sb.versionCount
    · rw [hindex, hchildren]
      have hroom' := hroom v hvn
      rcases Nat.lt_or_gt_of_ne hv with hlt | hgt
      · have hslot := h.slot_le hlt hp
        simp only [if_neg (show ¬ (p < v ∧ v < sb.versionCount) by omega)]
        rw [Function.update_of_ne (by omega), vecmove, if_neg (by omega)]
      · have hslot := h.slot_le hgt hvn
        simp only [if_pos (show p < v ∧ v < sb.versionCount by omega)]
        rw [Function.update_of_ne (by omega), vecmove, if_pos ⟨by omega, by omega⟩]
        congr 1
        omega
    · rw [h.beyond v (by omega)] at hi
      cases hi

/-- Removal of the value at place `k` of the children of `p`. -/
theorem remove_kids {sb' : Sb} {p k : ℕ} (h : Packed sb) (hroom : Room sb)
    (hp : p < sb.versionCount) (hk : k < sb.childCount p)
    (hcount : sb'.versionCount = sb.versionCount)
    (hchildren : sb'.children = vecmove sb.children (sb.childIndex p + k)
      (sb.childIndex p + k + 1) (sb.versionCount - (sb.childIndex p + k) - 1))
    (hindex : ∀ i, sb'.childIndex i =
      if p < i ∧ i < sb.versionCount then sb.childIndex i - 1 else sb.childIndex i)
    (hcounts : sb'.childCount = Function.update sb.childCount p (sb.childCount p - 1)) :
    Packed sb' ∧ sb'.kids p = (sb.kids p).eraseIdx k ∧ ∀ v ≠ p, sb'.kids v = sb.kids v := by
  have hlen : (sb.kids p).length = sb.childCount p := kids_length sb p
  refine ⟨⟨?_, fun v hv => ?_, fun v hv => ?_⟩, ?_, fun v hv => ?_⟩
  · rw [hindex]
    simp only [Nat.not_lt_zero, false_and, if_false, h.zero]
  · rw [hcount] at hv
    have hnext := h.next v hv
    rw [hindex, hindex, hcounts]
    by_cases hvp : v = p
    · subst hvp
      rw [Function.update_self]
      simp only [Nat.lt_irrefl, false_and, if_false]
      rw [if_pos ⟨Nat.lt_succ_self v, hv⟩, hnext]
      omega
    · rw [Function.update_of_ne hvp]
      by_cases hlt : p < v
      · have hslot := h.slot_le hlt (by omega)
        rw [if_pos ⟨by omega, hv⟩, if_pos ⟨hlt, by omega⟩, hnext]
        omega
      · rw [if_neg (by omega), if_neg (by omega), hnext]
  · rw [hcount] at hv
    rw [hcounts, Function.update_of_ne (by omega), h.beyond v hv]
  · refine kids_eq ?_ fun i hi => ?_
    · rw [hcounts, Function.update_self, List.length_eraseIdx_of_lt (by omega), hlen]
    · have hroom' := hroom p hp
      have hi' : i < sb.childCount p - 1 := by
        rw [List.length_eraseIdx_of_lt (by omega), hlen] at hi
        exact hi
      rw [hindex, hchildren, List.getElem_eraseIdx]
      simp only [Nat.lt_irrefl, false_and, if_false, kids_getElem, getChild]
      by_cases hik : i < k
      · rw [dif_pos hik, vecmove, if_neg (by omega)]
      · rw [dif_neg hik, vecmove, if_pos ⟨by omega, by omega⟩]
        congr 1
        omega
  · refine kids_congr (by rw [hcounts, Function.update_of_ne hv]) fun i hi => ?_
    by_cases hvn : v < sb.versionCount
    · rw [hindex, hchildren]
      have hroom' := hroom v hvn
      rcases Nat.lt_or_gt_of_ne hv with hlt | hgt
      · have hslot := h.slot_le hlt hp
        simp only [if_neg (show ¬ (p < v ∧ v < sb.versionCount) by omega)]
        rw [vecmove, if_neg (by omega)]
      · have hslot := h.slot_le hgt hvn
        simp only [if_pos (show p < v ∧ v < sb.versionCount by omega)]
        rw [vecmove, if_pos ⟨by omega, by omega⟩]
        congr 1
        omega
    · rw [h.beyond v (by omega)] at hi
      cases hi

theorem erase_slot {children : ℕ → ℕ} {p k : ℕ} (hk : k < sb.childCount p)
    (hchildren : children = vecmove sb.children (sb.childIndex p + k) (sb.childIndex p + k + 1)
      (sb.childIndex p + sb.childCount p - (sb.childIndex p + k) - 1)) :
    (List.range (sb.childCount p - 1)).map (fun i => children (sb.childIndex p + i)) =
      (sb.kids p).eraseIdx k := by
  have hlen : (sb.kids p).length = sb.childCount p := kids_length sb p
  refine List.ext_getElem ?_ fun i h1 h2 => ?_
  · rw [List.length_map, List.length_range, List.length_eraseIdx_of_lt (by omega), hlen]
  · have hi : i < sb.childCount p - 1 := by
      rwa [List.length_map, List.length_range] at h1
    rw [List.getElem_map, List.getElem_range, hchildren, List.getElem_eraseIdx]
    simp only [kids_getElem, getChild]
    by_cases hik : i < k
    · rw [dif_pos hik, vecmove, if_neg (by omega)]
    · rw [dif_neg hik, vecmove, if_pos ⟨by omega, by omega⟩]
      congr 1
      omega

/-- Replacement of the value at place `j` of the children of `p` by `x` at place `k`. -/
theorem replace_kids {sb' : Sb} {children : ℕ → ℕ} {p j k x : ℕ} (h : Packed sb)
    (hp : p < sb.versionCount) (hj : j < sb.childCount p) (hk : k < sb.childCount p)
    (hcount : sb'.versionCount = sb.versionCount)
    (herase : children = vecmove sb.children (sb.childIndex p + j) (sb.childIndex p + j + 1)
      (sb.childIndex p + sb.childCount p - (sb.childIndex p + j) - 1))
    (hchildren : sb'.children = Function.update (vecmove children (sb.childIndex p + k + 1)
      (sb.childIndex p + k) (sb.childIndex p + sb.childCount p - (sb.childIndex p + k) - 1))
      (sb.childIndex p + k) x)
    (hindex : sb'.childIndex = sb.childIndex) (hcounts : sb'.childCount = sb.childCount) :
    Packed sb' ∧
      sb'.kids p = ((sb.kids p).eraseIdx j).take k ++ x :: ((sb.kids p).eraseIdx j).drop k ∧
      ∀ v ≠ p, sb'.kids v = sb.kids v := by
  have hrest := erase_slot hj herase
  have hlen : ((sb.kids p).eraseIdx j).length = sb.childCount p - 1 := by
    rw [List.length_eraseIdx_of_lt (by rw [kids_length]; exact hj), kids_length]
  have hget : ∀ i (hi : i < ((sb.kids p).eraseIdx j).length),
      ((sb.kids p).eraseIdx j)[i] = children (sb.childIndex p + i) := by
    intro i hi
    simp only [← hrest, List.getElem_map, List.getElem_range]
  refine ⟨⟨hindex ▸ h.zero, ?_, ?_⟩, ?_, fun v hv => ?_⟩
  · rw [hindex, hcounts, hcount]
    exact h.next
  · rw [hcounts, hcount]
    exact h.beyond
  · refine kids_eq ?_ fun i hi => ?_
    · rw [hcounts, List.length_append, List.length_cons, List.length_take, List.length_drop, hlen]
      omega
    · have hi' : i < sb.childCount p := by
        rw [List.length_append, List.length_cons, List.length_take, List.length_drop, hlen] at hi
        omega
      rw [hindex, hchildren]
      rcases Nat.lt_trichotomy i k with hlt | heq | hgt
      · rw [Function.update_of_ne (by omega), vecmove, if_neg (by omega),
          List.getElem_append_left (by rw [List.length_take]; omega), List.getElem_take, hget]
      · subst heq
        rw [Function.update_self, List.getElem_append_right (by rw [List.length_take]; omega)]
        simp only [List.length_take, hlen, Nat.min_eq_left (show i ≤ sb.childCount p - 1 by omega),
          Nat.sub_self, List.getElem_cons_zero]
      · rw [Function.update_of_ne (by omega), vecmove, if_pos ⟨by omega, by omega⟩,
          List.getElem_append_right (by rw [List.length_take]; omega)]
        obtain ⟨i, rfl⟩ := Nat.exists_eq_add_of_lt hgt
        simp only [List.length_take, hlen, Nat.min_eq_left (show k ≤ sb.childCount p - 1 by omega)]
        have hsub : k + i + 1 - k = i + 1 := by omega
        simp only [hsub, List.getElem_cons_succ, List.getElem_drop, hget]
        congr 1
        omega
  · refine kids_congr (by rw [hcounts]) fun i hi => ?_
    by_cases hvn : v < sb.versionCount
    · rw [hindex, hchildren]
      rcases Nat.lt_or_gt_of_ne hv with hlt | hgt
      · have hslot := h.slot_le hlt hp
        rw [Function.update_of_ne (by omega), vecmove, if_neg (by omega), herase, vecmove,
          if_neg (by omega)]
      · have hslot := h.slot_le hgt hvn
        rw [Function.update_of_ne (by omega), vecmove, if_neg (by omega), herase, vecmove,
          if_neg (by omega)]
    · rw [h.beyond v (by omega)] at hi
      cases hi

end

/-- The place of `find_child_pos`. -/
theorem insert_place (l : List ℕ) (x : ℕ) :
    l.take (l.takeWhile fun other => other ≤ x).length ++
      x :: l.drop (l.takeWhile fun other => other ≤ x).length =
        l.orderedInsert (· < ·) x := by
  induction l with
  | nil => rfl
  | cons a l ih =>
      rw [List.orderedInsert_cons]
      by_cases hle : a ≤ x
      · rw [if_neg (Nat.not_lt.mpr hle), List.takeWhile_cons_of_pos (by simpa using hle), ← ih]
        rfl
      · rw [if_pos (Nat.not_le.mp hle), List.takeWhile_cons_of_neg (by simpa using hle)]
        rfl

theorem insert_sorted {l : List ℕ} {x : ℕ} (hl : l.Pairwise (· < ·)) (hx : x ∉ l) :
    (l.orderedInsert (· < ·) x).Pairwise (· < ·) := by
  induction l with
  | nil => exact List.pairwise_singleton _ x
  | cons a l ih =>
      rw [List.mem_cons, not_or] at hx
      rw [List.pairwise_cons] at hl
      rw [List.orderedInsert_cons]
      by_cases hlt : x < a
      · rw [if_pos hlt, List.pairwise_cons, List.pairwise_cons]
        refine ⟨fun b hb => ?_, hl⟩
        rcases List.mem_cons.mp hb with rfl | hb
        · exact hlt
        · exact hlt.trans (hl.1 b hb)
      · rw [if_neg hlt, List.pairwise_cons]
        refine ⟨fun b hb => ?_, ih hl.2 hx.2⟩
        rcases (List.mem_orderedInsert (· < ·)).mp hb with rfl | hb
        · omega
        · exact hl.1 b hb

end Tux3.Version
