import Tux3.TreeChop

/-!
# Removing an entry of a node

`remove_index` takes the entry before `->next` out of its node. When the node then starts with
another entry, the climb sets a separator further up: in the common parent, the first level that is
not at its first entry.
-/
namespace Tux3.TreeChop

open Btree

/-! ## Separators -/

/-- The same entries but for the one at a place. -/
structure Rekeyed (n : ℕ) (l l' : List IndexEntry) : Prop where
  before : l'.take n = l.take n
  after : l'.drop (n + 1) = l.drop (n + 1)

/-- A node that is the same, or the common parent of a climb with another separator. -/
def Kept (path : List PathLevel) (node node' : Nodes) (x : ℕ) : Prop :=
  node' x = node x ∨ ∃ p, path.find? (fun p => p.next - 1 ≠ 0) = some p ∧ p.block = x ∧
    Rekeyed (p.next - 1) (node x) (node' x)

section
variable {node node' node'' : Nodes} {path upper : List PathLevel} {at' : PathLevel} {x sep n : ℕ}

theorem Rekeyed.eraseIdx {l l' : List IndexEntry} (h : Rekeyed n l l') :
    l'.eraseIdx n = l.eraseIdx n := by
  rw [List.eraseIdx_eq_take_drop_succ, List.eraseIdx_eq_take_drop_succ, h.before, h.after]

theorem Kept.trans (h : Kept path node node' x) (h' : Kept path node' node'' x) :
    Kept path node node'' x := by
  rcases h with h | ⟨p, hp, rfl, hkeyed⟩
  · rcases h' with h' | ⟨p, hp, rfl, hkeyed⟩
    · exact .inl (h'.trans h)
    · exact .inr ⟨p, hp, rfl, h ▸ hkeyed⟩
  · rcases h' with h' | ⟨q, hq, heq, hkeyed'⟩
    · exact .inr ⟨p, hp, rfl, h' ▸ hkeyed⟩
    · rw [hp, Option.some_inj] at hq
      subst hq
      exact .inr ⟨p, hp, rfl, hkeyed'.before.trans hkeyed.before,
        hkeyed'.after.trans hkeyed.after⟩

theorem Kept.of_notMem (h : Kept path node node' x) (hx : ∀ p ∈ path, p.block ≠ x) :
    node' x = node x := by
  rcases h with h | ⟨p, hp, hpx, -⟩
  · exact h
  · exact absurd hpx (hx p (List.mem_of_find?_eq_some hp))

theorem Kept.of_stop (h : Kept (at' :: upper) node node' x) (hstop : at'.next - 1 ≠ 0) :
    node' x = node x ∨ at'.block = x ∧ Rekeyed (at'.next - 1) (node x) (node' x) := by
  rcases h with h | ⟨p, hp, hpx, hkeyed⟩
  · exact .inl h
  · rw [List.find?_cons_of_pos (by simpa using hstop), Option.some_inj] at hp
    subst hp
    exact .inr ⟨hpx, hkeyed⟩

theorem Kept.of_first (h : Kept (at' :: upper) node node' x) (hfirst : at'.next - 1 = 0) :
    Kept upper node node' x := by
  rcases h with h | ⟨p, hp, hpx, hkeyed⟩
  · exact .inl h
  · rw [List.find?_cons_of_neg (by simpa using hfirst)] at hp
    exact .inr ⟨p, hp, hpx, hkeyed⟩

theorem modify_rekeyed {l : List IndexEntry} {f : IndexEntry → IndexEntry} :
    Rekeyed n l (l.modify n f) := by
  constructor
  · apply List.ext_getElem?
    intro i
    by_cases hi : i < n
    · rw [List.getElem?_take_of_lt hi, List.getElem?_take_of_lt hi,
        List.getElem?_modify_ne f l (Nat.ne_of_gt hi)]
    · rw [List.getElem?_eq_none (by rw [List.length_take]; omega),
        List.getElem?_eq_none (by rw [List.length_take]; omega)]
  · apply List.ext_getElem?
    intro i
    have hne : n ≠ n + 1 + i := by omega
    rw [List.getElem?_drop, List.getElem?_drop, List.getElem?_modify_ne f l hne]

theorem setSeparator_kept : Kept path node (setSeparator node sep path) x := by
  induction path with
  | nil => exact .inl rfl
  | cons at' upper ih =>
      rw [setSeparator]
      by_cases hfirst : at'.next - 1 = 0
      · rw [if_pos hfirst]
        rcases ih with h | ⟨p, hp, hpx, hkeyed⟩
        · exact .inl h
        · refine .inr ⟨p, ?_, hpx, hkeyed⟩
          rw [List.find?_cons_of_neg (by simpa using hfirst), hp]
      · rw [if_neg hfirst]
        by_cases hx : x = at'.block
        · subst hx
          rw [Kept, Function.update_self]
          exact .inr ⟨at', List.find?_cons_of_pos (by simpa using hfirst), rfl, modify_rekeyed⟩
        · exact .inl (Function.update_of_ne hx _ _)

/-! ## Removing an entry -/

theorem removeIndex_path : (removeIndex node (⟨x, n + 1⟩ :: upper)).2 = ⟨x, n⟩ :: upper := by
  rw [removeIndex]
  dsimp only
  rw [Nat.add_sub_cancel]
  split <;> rfl

theorem removeIndex_self (hx : ∀ p ∈ upper, p.block ≠ x) :
    (removeIndex node (⟨x, n + 1⟩ :: upper)).1 x = (node x).eraseIdx n := by
  rw [removeIndex]
  dsimp only
  rw [Nat.add_sub_cancel]
  split
  · exact Function.update_self _ _ _
  · split
    · exact (setSeparator_kept.of_notMem hx).trans (Function.update_self _ _ _)
    · exact Function.update_self _ _ _

theorem removeIndex_other {y : ℕ} (hy : y ≠ x) :
    Kept upper node (removeIndex node (⟨x, n + 1⟩ :: upper)).1 y ∧
      (n ≠ 0 → (removeIndex node (⟨x, n + 1⟩ :: upper)).1 y = node y) := by
  have hupdate : (Function.update node x ((node x).eraseIdx n)) y = node y :=
    Function.update_of_ne hy _ _
  rw [removeIndex]
  dsimp only
  rw [Nat.add_sub_cancel]
  split
  · exact ⟨.inl hupdate, fun _ => hupdate⟩
  · split
    case isTrue hzero =>
      exact ⟨Kept.trans (.inl hupdate) setSeparator_kept, fun hn => absurd hzero hn⟩
    case isFalse => exact ⟨.inl hupdate, fun _ => hupdate⟩

end

end Tux3.TreeChop
