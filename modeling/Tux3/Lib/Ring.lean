import Mathlib.Data.List.Basic
import Mathlib.Logic.Function.Iterate
import Mathlib.Tactic.Common

/-!
# Circular lists

A circular list is a function from a node to the next one, and is reached through its tail. The
list of the other nodes, from the head on, says what it holds.
-/
namespace Ring

variable {α : Type*}

/-- The links go from the tail through `front` and back to the tail. -/
structure Holds (next : α → α) (tail : α) (front : List α) : Prop where
  links : (tail :: front).map next = front ++ [tail]
  nodup : (tail :: front).Nodup

variable {next next' : α → α} {tail a b : α} {front : List α}

theorem holds_single (h : next a = a) : Holds next a [] :=
  ⟨congrArg (fun b => [b]) h, by simp⟩

theorem Holds.next_cons (h : Holds next tail (a :: front)) :
    next tail = a ∧ (a :: front).map next = front ++ [tail] :=
  List.cons.inj h.links

theorem Holds.next_eq_tail (h : Holds next tail front) : next tail = tail ↔ front = [] := by
  cases front with
  | nil => exact ⟨fun _ => rfl, fun _ => (List.cons.inj h.links).1⟩
  | cons a front =>
      refine ⟨fun heq => ?_, nofun⟩
      rw [h.next_cons.1] at heq
      exact absurd (heq ▸ List.mem_cons_self) (List.nodup_cons.mp h.nodup).1

theorem Holds.congr (h : Holds next tail front) (hsame : ∀ a ∈ tail :: front, next' a = next a) :
    Holds next' tail front :=
  ⟨(List.map_congr_left hsame).trans h.links, h.nodup⟩

theorem Holds.next_mem (h : Holds next tail front) (ha : a ∈ tail :: front) :
    next a ∈ tail :: front := by
  have hmem := @List.mem_map_of_mem _ _ _ _ next ha
  rw [h.links, List.mem_append, List.mem_singleton] at hmem
  rw [List.mem_cons]
  exact hmem.symm

/-- The nodes of the list are those that the links reach from the tail. -/
theorem Holds.mem_iff (h : Holds next tail front) :
    a ∈ tail :: front ↔ ∃ n, next^[n] tail = a := by
  constructor
  · intro ha
    obtain ⟨i, hi, rfl⟩ := List.getElem_of_mem ha
    refine ⟨i, ?_⟩
    induction i with
    | zero => rfl
    | succ i ih =>
        have hi' : i < (tail :: front).length := Nat.lt_of_succ_lt hi
        have hlink : ((tail :: front).map next)[i]? = (front ++ [tail])[i]? := by rw [h.links]
        rw [List.getElem?_map, List.getElem?_eq_getElem hi', Option.map_some,
          List.getElem?_append_left (Nat.lt_of_succ_lt_succ hi),
          List.getElem?_eq_getElem (Nat.lt_of_succ_lt_succ hi)] at hlink
        rw [Function.iterate_succ_apply', ih hi' (List.getElem_mem hi')]
        exact Option.some.inj hlink
  · rintro ⟨n, rfl⟩
    induction n with
    | zero => exact List.mem_cons_self
    | succ n ih =>
        rw [Function.iterate_succ_apply']
        exact h.next_mem ih

section
variable [DecidableEq α]

/-- Insert `b` behind `a`. -/
def insertAfter (next : α → α) (a b : α) : α → α :=
  Function.update (Function.update next b (next a)) a b

/-- Take the node behind `a` out. -/
def removeAfter (next : α → α) (a : α) : α → α := Function.update next a (next (next a))

theorem Holds.insertAfter (h : Holds next tail front) (hb : b ∉ tail :: front) :
    Holds (insertAfter next tail b) b (front ++ [tail]) := by
  obtain ⟨hbt, hbf⟩ : b ≠ tail ∧ b ∉ front := not_or.mp (mt List.mem_cons.mpr hb)
  have htail : tail ∉ front := (List.nodup_cons.mp h.nodup).1
  have hfront : front.map (Ring.insertAfter next tail b) = front.map next := by
    refine List.map_congr_left fun a ha => ?_
    rw [Ring.insertAfter, Function.update_of_ne (ne_of_mem_of_not_mem ha htail),
      Function.update_of_ne (ne_of_mem_of_not_mem ha hbf)]
  refine ⟨?_, List.nodup_cons.mpr ⟨?_, ?_⟩⟩
  · rw [List.map_cons, List.map_append, hfront, Ring.insertAfter, Function.update_of_ne hbt,
      Function.update_self, List.map_singleton, Function.update_self, ← List.cons_append,
      ← List.map_cons, h.links]
  · rw [List.mem_append, List.mem_singleton, or_comm, ← List.mem_cons]
    exact hb
  · rw [List.perm_append_singleton tail front |>.nodup_iff]
    exact h.nodup

theorem Holds.removeAfter (h : Holds next tail (a :: front)) :
    Holds (removeAfter next tail) tail front := by
  obtain ⟨hnext, hlinks⟩ := h.next_cons
  obtain ⟨htail, hnodup⟩ := List.nodup_cons.mp h.nodup
  obtain ⟨-, hnodup⟩ := List.nodup_cons.mp hnodup
  have hfront : front.map (Ring.removeAfter next tail) = front.map next := by
    refine List.map_congr_left fun b hb => Function.update_of_ne ?_ _ _
    exact ne_of_mem_of_not_mem (List.mem_cons_of_mem a hb) htail
  refine ⟨?_, List.nodup_cons.mpr ⟨fun hmem => htail (List.mem_cons_of_mem a hmem), hnodup⟩⟩
  rw [List.map_cons, hfront, Ring.removeAfter, Function.update_self, hnext, ← List.map_cons, hlinks]

end

end Ring
