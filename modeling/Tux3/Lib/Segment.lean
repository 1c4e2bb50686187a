import Mathlib.Data.List.Basic
import Mathlib.Tactic.Common

/-!
# Segments of a flat memory

A memory is a function of its addresses; `put` overwrites a segment and `Holds`
says what a segment contains.
-/
namespace Segment

variable {α : Type*}

/-- Write `xs` at `pos`. -/
def put (mem : ℕ → α) (pos : ℕ) (xs : List α) : ℕ → α :=
  fun i => if pos ≤ i then (xs[i - pos]?).getD (mem i) else mem i

/-- The memory contains `xs` at `pos`. -/
def Holds (mem : ℕ → α) (pos : ℕ) (xs : List α) : Prop :=
  ∀ i x, xs[i]? = some x → mem (pos + i) = x

variable {mem mem' : ℕ → α} {pos : ℕ} {xs ys : List α}

theorem put_of_lt {i : ℕ} (h : i < pos) : put mem pos xs i = mem i :=
  if_neg (Nat.not_le_of_lt h)

theorem holds_put : Holds (put mem pos xs) pos xs := by
  intro i x hx
  rw [put, if_pos (Nat.le_add_right pos i), Nat.add_sub_cancel_left, hx, Option.getD_some]

theorem put_put : put (put mem pos xs) (pos + xs.length) ys = put mem pos (xs ++ ys) := by
  funext i
  simp only [put]
  by_cases hi : pos + xs.length ≤ i
  · have hle : pos ≤ i := Nat.le_trans (Nat.le_add_right _ _) hi
    rw [if_pos hi, if_pos hle, if_pos hle, List.getElem?_append_right (by omega),
      List.getElem?_eq_none (show xs.length ≤ i - pos by omega), Option.getD_none,
      Nat.sub_add_eq]
  · rw [if_neg hi]
    by_cases hle : pos ≤ i
    · rw [if_pos hle, if_pos hle, List.getElem?_append_left (by omega)]
    · rw [if_neg hle, if_neg hle]

theorem put_of_ge {i : ℕ} (h : pos + xs.length ≤ i) : put mem pos xs i = mem i := by
  rw [put, if_pos (by omega), List.getElem?_eq_none (by omega), Option.getD_none]

theorem put_nil : put mem pos [] = mem := by
  funext i
  simp only [put, List.getElem?_nil, Option.getD_none, ite_self]

theorem holds_nil : Holds mem pos [] := by
  intro i x hx
  cases hx

theorem Holds.head {x : α} (h : Holds mem pos (x :: xs)) : mem pos = x :=
  h 0 x rfl

theorem Holds.tail {x : α} (h : Holds mem pos (x :: xs)) : Holds mem (pos + 1) xs := by
  intro i y hy
  rw [Nat.add_assoc, Nat.add_comm 1]
  exact h (i + 1) y hy

theorem holds_append :
    Holds mem pos (xs ++ ys) ↔ Holds mem pos xs ∧ Holds mem (pos + xs.length) ys := by
  constructor
  · intro h
    refine ⟨fun i x hx => h i x ?_, fun i y hy => ?_⟩
    · rw [List.getElem?_append_left ((List.getElem?_eq_some_iff.mp hx).1), hx]
    · rw [Nat.add_assoc]
      refine h _ y ?_
      rw [List.getElem?_append_right (Nat.le_add_right _ _), Nat.add_sub_cancel_left, hy]
  · rintro ⟨hl, hr⟩ i z hz
    by_cases hi : i < xs.length
    · rw [List.getElem?_append_left hi] at hz
      exact hl i z hz
    · have hle : xs.length ≤ i := Nat.le_of_not_lt hi
      rw [List.getElem?_append_right hle] at hz
      have := hr (i - xs.length) z hz
      rwa [Nat.add_assoc, Nat.add_sub_cancel' hle] at this

theorem Holds.frame (h : Holds mem pos xs)
    (hsame : ∀ i, pos ≤ i → i < pos + xs.length → mem' i = mem i) : Holds mem' pos xs := by
  intro i x hx
  rw [hsame _ (Nat.le_add_right _ _)
    (Nat.add_lt_add_left (List.getElem?_eq_some_iff.mp hx).1 pos)]
  exact h i x hx

theorem Holds.put_after (h : Holds mem 0 xs) (ys : List α) :
    Holds (put mem xs.length ys) 0 (xs ++ ys) := by
  refine holds_append.mpr ⟨h.frame fun i _ hi => put_of_lt ?_, ?_⟩
  · rwa [Nat.zero_add] at hi
  · rw [Nat.zero_add]
    exact holds_put

theorem Holds.put_eq_iff (h : Holds mem pos xs) (hlen : ys.length = xs.length) :
    put mem pos ys = mem ↔ ys = xs := by
  constructor
  · intro heq
    have hys : Holds mem pos ys := heq ▸ holds_put
    refine List.ext_getElem hlen fun i h1 h2 => ?_
    rw [← hys i _ (List.getElem?_eq_getElem h1), ← h i _ (List.getElem?_eq_getElem h2)]
  · rintro rfl
    funext i
    rw [put]
    split
    · next hi =>
        cases hy : ys[i - pos]? with
        | none => rfl
        | some y =>
            rw [Option.getD_some, ← h _ y hy, Nat.add_sub_cancel' hi]
    · rfl

/-- Several writes, one after the other. -/
def putAll (mem : ℕ → α) (fields : List (ℕ × List α)) : ℕ → α :=
  fields.foldl (fun mem field => put mem field.1 field.2) mem

/-- Fields that do not overlap. -/
def Apart (f g : ℕ × List α) : Prop := f.1 + f.2.length ≤ g.1 ∨ g.1 + g.2.length ≤ f.1

variable {fields : List (ℕ × List α)} {f : ℕ × List α}

theorem putAll_cons : putAll mem (f :: fields) = putAll (put mem f.1 f.2) fields := rfl

theorem putAll_append {gs : List (ℕ × List α)} :
    putAll (putAll mem fields) gs = putAll mem (fields ++ gs) := List.foldl_append.symm

theorem putAll_outside {i : ℕ} (h : ∀ f ∈ fields, i < f.1 ∨ f.1 + f.2.length ≤ i) :
    putAll mem fields i = mem i := by
  induction fields generalizing mem with
  | nil => rfl
  | cons g fields ih =>
      refine (ih fun f hf => h f (List.mem_cons_of_mem g hf)).trans ?_
      rcases h g List.mem_cons_self with hlt | hge
      · exact put_of_lt hlt
      · exact put_of_ge hge

theorem holds_putAll (h : fields.Pairwise Apart) (hf : f ∈ fields) :
    Holds (putAll mem fields) f.1 f.2 := by
  induction fields generalizing mem with
  | nil => cases hf
  | cons g fields ih =>
      obtain ⟨hg, h⟩ := List.pairwise_cons.mp h
      rcases List.mem_cons.mp hf with rfl | hf
      · have hput : Holds (put mem f.1 f.2) f.1 f.2 := holds_put
        refine hput.frame fun i hle hlt => ?_
        rw [putAll_cons]
        refine putAll_outside fun k hk => ?_
        rcases hg k hk with hbefore | hafter
        · exact Or.inl (Nat.lt_of_lt_of_le hlt hbefore)
        · exact Or.inr (Nat.le_trans hafter hle)
      · exact ih h hf

end Segment
