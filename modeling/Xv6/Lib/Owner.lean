import Mathlib.Logic.Function.Basic

/-!
# Owned things and a bitmap

Some of the managed things are fixed, and each of the others has at most one owner. A bitmap marks
those that are fixed or owned.
-/

namespace Xv6.Lib

variable {ρ β : Type}

structure Owns (managed fixed : β → Prop) (used : β → Bool) (own : ρ → Option β) : Prop where
  inj : ∀ r r' b, own r = some b → own r' = some b → r = r'
  range : ∀ r b, own r = some b → managed b ∧ ¬ fixed b
  bits : ∀ b, managed b → (used b = true ↔ fixed b ∨ ∃ r, own r = some b)

namespace Owns

variable {managed fixed : β → Prop} {used : β → Bool} {own : ρ → Option β} {r r' : ρ} {b : β}

theorem used_of_own (h : Owns managed fixed used own) (hr : own r = some b) : used b = true :=
  (h.bits b (h.range r b hr).1).mpr (.inr ⟨r, hr⟩)

theorem unowned (h : Owns managed fixed used own) (hu : used b = false) (r : ρ) : own r ≠ some b := by
  intro hr
  rw [h.used_of_own hr] at hu
  cases hu

theorem not_fixed (h : Owns managed fixed used own) (hb : managed b) (hu : used b = false) : ¬ fixed b := by
  intro hf
  rw [(h.bits b hb).mpr (.inl hf)] at hu
  cases hu

variable [DecidableEq ρ] [DecidableEq β]

theorem take (h : Owns managed fixed used own) (hb : managed b) (hu : used b = false) (hr : own r = none) :
    Owns managed fixed (Function.update used b true) (Function.update own r (some b)) := by
  have hne : ∀ r' b', own r' = some b' → r' ≠ r ∧ b' ≠ b := by
    intro r' b' h'
    refine ⟨?_, ?_⟩
    · rintro rfl
      rw [hr] at h'
      cases h'
    · rintro rfl
      exact h.unowned hu r' h'
  have hother : ∀ r' b', Function.update own r (some b) r' = some b' → (r' = r ∧ b' = b) ∨ own r' = some b' := by
    intro r' b' h'
    by_cases hrr : r' = r
    · subst hrr
      rw [Function.update_self] at h'
      exact .inl ⟨rfl, (Option.some.inj h').symm⟩
    · rw [Function.update_of_ne hrr] at h'
      exact .inr h'
  refine ⟨?_, ?_, ?_⟩
  · intro r₁ r₂ b' h₁ h₂
    rcases hother r₁ b' h₁ with ⟨hr₁, hb₁⟩ | ho₁ <;> rcases hother r₂ b' h₂ with ⟨hr₂, hb₂⟩ | ho₂
    · exact hr₁.trans hr₂.symm
    · exact absurd hb₁ (hne r₂ b' ho₂).2
    · exact absurd hb₂ (hne r₁ b' ho₁).2
    · exact h.inj r₁ r₂ b' ho₁ ho₂
  · intro r₁ b' h₁
    rcases hother r₁ b' h₁ with ⟨-, rfl⟩ | h₁
    · exact ⟨hb, h.not_fixed hb hu⟩
    · exact h.range r₁ b' h₁
  · intro b' hb'
    by_cases hbb : b' = b
    · subst hbb
      rw [Function.update_self]
      exact iff_of_true rfl (.inr ⟨r, Function.update_self ..⟩)
    · rw [Function.update_of_ne hbb, h.bits b' hb']
      refine or_congr_right ⟨?_, ?_⟩
      · rintro ⟨r', h'⟩
        exact ⟨r', by rw [Function.update_of_ne (hne r' b' h').1, h']⟩
      · rintro ⟨r', h'⟩
        rcases hother r' b' h' with ⟨-, he⟩ | h'
        · exact absurd he hbb
        · exact ⟨r', h'⟩

theorem drop (h : Owns managed fixed used own) (hr : own r = some b) :
    Owns managed fixed (Function.update used b false) (Function.update own r none) := by
  have hother : ∀ r' b', Function.update own r none r' = some b' → r' ≠ r ∧ own r' = some b' := by
    intro r' b' h'
    by_cases hrr : r' = r
    · subst hrr
      rw [Function.update_self] at h'
      cases h'
    · rw [Function.update_of_ne hrr] at h'
      exact ⟨hrr, h'⟩
  refine ⟨?_, ?_, ?_⟩
  · intro r₁ r₂ b' h₁ h₂
    exact h.inj r₁ r₂ b' (hother r₁ b' h₁).2 (hother r₂ b' h₂).2
  · intro r₁ b' h₁
    exact h.range r₁ b' (hother r₁ b' h₁).2
  · intro b' hb'
    by_cases hbb : b' = b
    · subst hbb
      rw [Function.update_self]
      refine iff_of_false (by simp) ?_
      rintro (hf | ⟨r', h'⟩)
      · exact (h.range r b' hr).2 hf
      · obtain ⟨hne, h'⟩ := hother r' b' h'
        exact hne (h.inj r' r b' h' hr)
    · rw [Function.update_of_ne hbb, h.bits b' hb']
      refine or_congr_right ⟨?_, ?_⟩
      · rintro ⟨r', h'⟩
        refine ⟨r', ?_⟩
        rw [Function.update_of_ne, h']
        rintro rfl
        rw [hr] at h'
        exact hbb (Option.some.inj h').symm
      · rintro ⟨r', h'⟩
        exact ⟨r', (hother r' b' h').2⟩

end Owns

end Xv6.Lib
