import Mathlib.Tactic.Common

/-!
# Outcomes

Postconditions of programs that may stop with an error: the rules to compose them.
-/
namespace Outcome

variable {ε α β : Type} {allowed : ε → Prop} {post : α → Prop} {post' : β → Prop}

/-- The program returns a value with `post` or stops with an allowed error. -/
def Yields (allowed : ε → Prop) (post : α → Prop) : Except ε α → Prop
  | .ok a => post a
  | .error e => allowed e

theorem yields_pure {a : α} (h : post a) : Yields allowed post (pure a) := h

theorem yields_throw {e : ε} (h : allowed e) : Yields allowed post (throw e) := h

theorem Yields.bind {x : Except ε α} {f : α → Except ε β} (hx : Yields allowed post x)
    (hf : ∀ a, post a → Yields allowed post' (f a)) : Yields allowed post' (x >>= f) := by
  cases x with
  | ok a => exact hf a hx
  | error e => exact hx

theorem Yields.mono {x : Except ε α} {post₂ : α → Prop} (hx : Yields allowed post x)
    (h : ∀ a, post a → post₂ a) : Yields allowed post₂ x := by
  cases x with
  | ok a => exact h a hx
  | error e => exact hx

theorem Yields.ok {x : Except ε α} {a : α} (hx : Yields allowed post x) (h : x = .ok a) :
    post a := by
  subst h
  exact hx

theorem Yields.error {x : Except ε α} {e : ε} (hx : Yields allowed post x) (h : x = .error e) :
    allowed e := by
  subst h
  exact hx

end Outcome
