import Xv6.Lib.Op

/-!
# Runs of a system

A system takes one action after the other. A path is a run whose steps all meet a condition on
the action and the state it starts in.
-/

namespace Xv6.Lib

variable {σ A : Type}

inductive Path (act : A → Op σ Unit) (C : A → σ → Prop) (s₀ : σ) : σ → Prop
  | refl : Path act C s₀ s₀
  | step {s s' : σ} {a : A} : Path act C s₀ s → C a s → act a s = .ok ((), s') → Path act C s₀ s'

namespace Path

variable {act : A → Op σ Unit} {C D : A → σ → Prop} {s₀ s : σ}

theorem invariant {I : σ → Prop} (h₀ : I s₀)
    (hstep : ∀ a s s', I s → C a s → act a s = .ok ((), s') → I s') (h : Path act C s₀ s) : I s := by
  induction h with
  | refl => exact h₀
  | step _ hc hrun ih => exact hstep _ _ _ ih hc hrun

def follow (act : A → Op σ Unit) (C : A → σ → Prop) [∀ a s, Decidable (C a s)] : List A → Op σ Unit
  | [] => pure ()
  | a :: as => do
    let s ← Op.gets id
    if C a s then do
      act a
      follow act C as
    else Op.stop "outside the condition"

theorem of_follow [∀ a s, Decidable (C a s)] {as : List A} {s' : σ} (h : Path act C s₀ s)
    (hrun : follow act C as s = .ok ((), s')) : Path act C s₀ s' := by
  induction as generalizing s with
  | nil =>
    rw [follow, Op.pure_ok] at hrun
    rw [hrun.2]
    exact h
  | cons a as ih =>
    simp only [follow, Op.bind_ok, Op.gets_ok, id] at hrun
    obtain ⟨_, t, ⟨rfl, rfl⟩, hrun⟩ := hrun
    split at hrun
    · rename_i hc
      obtain ⟨_, u, hact, hrun⟩ := (Op.bind_ok _ _).mp hrun
      exact ih (h.step hc hact) hrun
    · simp at hrun

/-- A run that can be computed, to a state that passes a test. -/
theorem exists_of_follow (act : A → Op σ Unit) [∀ a s, Decidable (C a s)] (as : List A) (s : σ) (P : σ → Bool)
    (h : (follow act C as s).toOption.map (fun r => P r.2) = some true) :
    ∃ s', Path act C s s' ∧ P s' = true := by
  obtain ⟨⟨_, s'⟩, hrun, hP⟩ := Option.map_eq_some_iff.mp h
  exact ⟨s', of_follow .refl (toOption_eq_some.mp hrun), hP⟩

end Path

end Xv6.Lib
