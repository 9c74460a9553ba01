import Mathlib.Logic.Function.Basic

/-!
# A function changed at one place
-/

namespace Xv6.Lib

variable {α β : Type} [DecidableEq α] {f : α → β} {a x : α} {v y : β}

theorem update_cases (h : Function.update f a v x = y) : x = a ∧ v = y ∨ x ≠ a ∧ f x = y := by
  by_cases hx : x = a
  · subst hx
    exact .inl ⟨rfl, Function.update_self x v f ▸ h⟩
  · exact .inr ⟨hx, Function.update_of_ne hx v f ▸ h⟩

end Xv6.Lib
