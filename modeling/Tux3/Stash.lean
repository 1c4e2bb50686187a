import Tux3.Basic

/-!
# Stashes

`stash_value` and `unstash` of `kernel/log.c`: a queue of pages of values. Page
allocation succeeds. `stash_values` and `unstash_ok` say that it is a list.
-/
namespace Tux3

/-- `PAGE_SIZE / sizeof(u64)` in userspace. -/
def pageValues : ℕ := 8

/-- `struct stash`: no page yet, or the full pages in queue order and the values below `pos`
in the last page. -/
structure Stash (α : Type) where
  pages : Option (List (List α) × List α)

section
variable {α σ : Type}

def stashInit : Stash α := ⟨none⟩

def stashValue (stash : Stash α) (value : α) : Stash α :=
  match stash.pages with
  | none => ⟨some ([], [value])⟩
  | some (full, last) =>
      if last.length = pageValues then ⟨some (full ++ [last], [value])⟩
      else ⟨some (full, last ++ [value])⟩

/-- The loop over the values of a page, up to the first error of the actor. -/
def drain (actor : σ → α → Option (ℤ × σ)) : List α → σ → Option (ℤ × σ)
  | [], sb => some (0, sb)
  | value :: vec, sb => do
      let (err, sb) ← actor sb value
      if err ≠ 0 then return (err, sb)
      drain actor vec sb

/-- The loop over the pages. A page is freed once it is drained, except the last one. -/
def unstashPages (actor : σ → α → Option (ℤ × σ)) (last : List α) :
    List (List α) → σ → Option (ℤ × Stash α × σ)
  | [], sb => do
      let (err, sb) ← drain actor last sb
      if err ≠ 0 then return (err, ⟨some ([], last)⟩, sb)
      return (0, ⟨some ([], [])⟩, sb)
  | page :: full, sb => do
      let (err, sb) ← drain actor page sb
      if err ≠ 0 then return (err, ⟨some (page :: full, last)⟩, sb)
      unstashPages actor last full sb

def unstash (actor : σ → α → Option (ℤ × σ)) (stash : Stash α) (sb : σ) :
    Option (ℤ × Stash α × σ) :=
  match stash.pages with
  | none => some (0, stash, sb)
  | some (full, last) => unstashPages actor last full sb

/-- The queued values, oldest first. -/
def Stash.values (stash : Stash α) : List α :=
  match stash.pages with
  | none => []
  | some (full, last) => full.flatten ++ last

@[simp] theorem stashInit_values : (stashInit : Stash α).values = [] := rfl

@[simp] theorem stashValue_values (stash : Stash α) (value : α) :
    (stashValue stash value).values = stash.values ++ [value] := by
  obtain ⟨pages⟩ := stash
  cases pages with
  | none => rfl
  | some pages =>
      obtain ⟨full, last⟩ := pages
      simp only [stashValue]
      split
      · simp only [Stash.values, List.flatten_append, List.flatten_singleton]
      · simp only [Stash.values, List.append_assoc]

variable {actor : σ → α → Option (ℤ × σ)}

theorem drain_append {xs ys : List α} {sb sb1 sb2 : σ} (hx : drain actor xs sb = some (0, sb1))
    (hy : drain actor ys sb1 = some (0, sb2)) : drain actor (xs ++ ys) sb = some (0, sb2) := by
  induction xs generalizing sb with
  | nil =>
      cases hx
      exact hy
  | cons x xs ih =>
      simp only [drain, List.cons_append, Option.bind_eq_bind, Option.bind_eq_some_iff] at hx ⊢
      obtain ⟨⟨err, sb'⟩, hact, hx⟩ := hx
      refine ⟨(err, sb'), hact, ?_⟩
      by_cases herr : err = 0
      · simp only [herr, ne_eq, not_true_eq_false, if_false] at hx ⊢
        exact ih hx
      · simp only [herr, ne_eq, not_false_eq_true, if_true, Option.pure_def, Option.some.injEq,
          Prod.mk.injEq, false_and] at hx

theorem unstashPages_ok {last : List α} {full : List (List α)} {sb sb' : σ} {stash' : Stash α}
    (h : unstashPages actor last full sb = some (0, stash', sb')) :
    drain actor (full.flatten ++ last) sb = some (0, sb') ∧ stash'.values = [] := by
  induction full generalizing sb with
  | nil =>
      simp only [unstashPages, Option.bind_eq_bind, Option.bind_eq_some_iff] at h
      obtain ⟨⟨err, sb1⟩, hdrain, h⟩ := h
      by_cases herr : err = 0
      · simp only [herr, ne_eq, not_true_eq_false, if_false, Option.pure_def, Option.some.injEq,
          Prod.mk.injEq, true_and] at h hdrain
        obtain ⟨rfl, rfl⟩ := h
        exact ⟨hdrain, rfl⟩
      · simp only [herr, ne_eq, not_false_eq_true, if_true, Option.pure_def, Option.some.injEq,
          Prod.mk.injEq, false_and] at h
  | cons page full ih =>
      simp only [unstashPages, Option.bind_eq_bind, Option.bind_eq_some_iff] at h
      obtain ⟨⟨err, sb1⟩, hdrain, h⟩ := h
      by_cases herr : err = 0
      · simp only [herr, ne_eq, not_true_eq_false, if_false] at h hdrain
        obtain ⟨hrest, hempty⟩ := ih h
        rw [List.flatten_cons, List.append_assoc]
        exact ⟨drain_append hdrain hrest, hempty⟩
      · simp only [herr, ne_eq, not_false_eq_true, if_true, Option.pure_def, Option.some.injEq,
          Prod.mk.injEq, false_and] at h

theorem unstash_ok {stash stash' : Stash α} {sb sb' : σ}
    (h : unstash actor stash sb = some (0, stash', sb')) :
    drain actor stash.values sb = some (0, sb') ∧ stash'.values = [] := by
  obtain ⟨pages⟩ := stash
  cases pages with
  | none =>
      cases h
      exact ⟨rfl, rfl⟩
  | some pages =>
      obtain ⟨full, last⟩ := pages
      exact unstashPages_ok h

theorem drain_err {xs : List α} {sb sb' : σ} {err : ℤ}
    (hactor : ∀ sb x err sb', actor sb x = some (err, sb') → err = 0)
    (h : drain actor xs sb = some (err, sb')) : err = 0 := by
  induction xs generalizing sb with
  | nil =>
      cases h
      rfl
  | cons x xs ih =>
      simp only [drain, Option.bind_eq_bind, Option.bind_eq_some_iff] at h
      obtain ⟨⟨err1, sb1⟩, hact, h⟩ := h
      simp only [hactor _ _ _ _ hact, ne_eq, not_true_eq_false, if_false] at h
      exact ih h

/-- An actor that never fails leaves no error. -/
theorem unstash_err {stash stash' : Stash α} {sb sb' : σ} {err : ℤ}
    (hactor : ∀ sb x err sb', actor sb x = some (err, sb') → err = 0)
    (h : unstash actor stash sb = some (err, stash', sb')) : err = 0 := by
  obtain ⟨pages⟩ := stash
  cases pages with
  | none =>
      cases h
      rfl
  | some pages =>
      obtain ⟨full, last⟩ := pages
      simp only [unstash] at h
      induction full generalizing sb with
      | nil =>
          simp only [unstashPages, Option.bind_eq_bind, Option.bind_eq_some_iff] at h
          obtain ⟨⟨err1, sb1⟩, hdrain, h⟩ := h
          simp only [drain_err hactor hdrain, ne_eq, not_true_eq_false, if_false, Option.pure_def,
            Option.some.injEq, Prod.mk.injEq] at h
          exact h.1.symm
      | cons page full ih =>
          simp only [unstashPages, Option.bind_eq_bind, Option.bind_eq_some_iff] at h
          obtain ⟨⟨err1, sb1⟩, hdrain, h⟩ := h
          simp only [drain_err hactor hdrain, ne_eq, not_true_eq_false, if_false] at h
          exact ih h

theorem drain_some {P : σ → Prop} {xs : List α} {sb : σ}
    (hstep : ∀ x ∈ xs, ∀ sb, P sb → ∃ sb', actor sb x = some (0, sb') ∧ P sb') (h : P sb) :
    ∃ sb', drain actor xs sb = some (0, sb') ∧ P sb' := by
  induction xs generalizing sb with
  | nil => exact ⟨sb, rfl, h⟩
  | cons x xs ih =>
      obtain ⟨sb1, hact, h1⟩ := hstep x List.mem_cons_self sb h
      obtain ⟨sb2, hdrain, h2⟩ := ih (fun y hy => hstep y (List.mem_cons_of_mem x hy)) h1
      refine ⟨sb2, ?_, h2⟩
      rw [drain, hact]
      exact hdrain

theorem unstashPages_some {P : σ → Prop} {last : List α} {full : List (List α)} {sb : σ}
    (hstep : ∀ x ∈ full.flatten ++ last, ∀ sb, P sb → ∃ sb', actor sb x = some (0, sb') ∧ P sb')
    (h : P sb) : ∃ stash' sb', unstashPages actor last full sb = some (0, stash', sb') ∧ P sb' := by
  induction full generalizing sb with
  | nil =>
      obtain ⟨sb1, hdrain, h1⟩ := @drain_some _ _ actor P last _ hstep h
      refine ⟨⟨some ([], [])⟩, sb1, ?_, h1⟩
      rw [unstashPages, hdrain]
      rfl
  | cons page full ih =>
      rw [List.flatten_cons, List.append_assoc] at hstep
      obtain ⟨sb1, hdrain, h1⟩ :=
        drain_some (fun x hx => hstep x (List.mem_append_left _ hx)) h
      obtain ⟨stash', sb2, hrest, h2⟩ := ih (fun x hx => hstep x (List.mem_append_right _ hx)) h1
      refine ⟨stash', sb2, ?_, h2⟩
      rw [unstashPages, hdrain]
      exact hrest

theorem unstash_some {P : σ → Prop} {stash : Stash α} {sb : σ}
    (hstep : ∀ x ∈ stash.values, ∀ sb, P sb → ∃ sb', actor sb x = some (0, sb') ∧ P sb')
    (h : P sb) : ∃ stash' sb', unstash actor stash sb = some (0, stash', sb') ∧ P sb' := by
  obtain ⟨pages⟩ := stash
  cases pages with
  | none => exact ⟨_, sb, rfl, h⟩
  | some pages => exact unstashPages_some hstep h

theorem drain_induct {P : List α → σ → Prop} {xs : List α} {sb sb' : σ}
    (h : drain actor xs sb = some (0, sb')) (h0 : P xs sb)
    (hstep : ∀ x xs sb sb', P (x :: xs) sb → actor sb x = some (0, sb') → P xs sb') : P [] sb' := by
  induction xs generalizing sb with
  | nil =>
      cases h
      exact h0
  | cons x xs ih =>
      simp only [drain, Option.bind_eq_bind, Option.bind_eq_some_iff] at h
      obtain ⟨⟨err, sb1⟩, hact, h⟩ := h
      by_cases herr : err = 0
      · simp only [herr, ne_eq, not_true_eq_false, if_false] at h hact
        exact ih h (hstep x xs sb sb1 h0 hact)
      · simp only [herr, ne_eq, not_false_eq_true, if_true, Option.pure_def, Option.some.injEq,
          Prod.mk.injEq, false_and] at h

end

end Tux3
