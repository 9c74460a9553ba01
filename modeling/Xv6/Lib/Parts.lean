import Mathlib.Logic.Function.Basic
import Xv6.Lib.Op

/-!
# Operations on a part of the state

An operation on a state of two parts follows one on the left part if it returns and stops with it, and leaves the left
part as that one does.
-/

namespace Xv6.Lib.Op

variable {τ ρ α β : Type} {t : τ} {u : ρ}

def left (x : Op τ α) : Op (τ × ρ) α := fun s =>
  match x s.1 with
  | .ok (a, t) => .ok (a, (t, s.2))
  | .error msg => .error msg

def right (x : Op ρ α) : Op (τ × ρ) α := fun s =>
  match x s.2 with
  | .ok (a, u) => .ok (a, (s.1, u))
  | .error msg => .error msg

theorem left_ok {x : Op τ α} {s s' : τ × ρ} {a : α} :
    left x s = .ok (a, s') ↔ x s.1 = .ok (a, s'.1) ∧ s'.2 = s.2 := by
  unfold left
  cases x s.1 with
  | error msg => simp
  | ok r => simp [Prod.ext_iff, and_assoc, eq_comm]

theorem right_ok {x : Op ρ α} {s s' : τ × ρ} {a : α} :
    right x s = .ok (a, s') ↔ x s.2 = .ok (a, s'.2) ∧ s'.1 = s.1 := by
  unfold right
  cases x s.2 with
  | error msg => simp
  | ok r => simp [Prod.ext_iff, and_comm, and_assoc, eq_comm]

theorem ends_left {x : Op τ α} {s : τ × ρ} {Q : α → τ × ρ → Prop} {E : String → Prop} :
    Ends (left x) s Q E ↔ Ends x s.1 (fun a t => Q a (t, s.2)) E := by
  unfold Ends left
  cases x s.1 with
  | error msg => rfl
  | ok r => rfl

theorem ends_right {x : Op ρ α} {s : τ × ρ} {Q : α → τ × ρ → Prop} {E : String → Prop} :
    Ends (right x) s Q E ↔ Ends x s.2 (fun a u => Q a (s.1, u)) E := by
  unfold Ends right
  cases x s.2 with
  | error msg => rfl
  | ok r => rfl

def entry {ι : Type} [DecidableEq ι] (i : ι) (x : Op τ α) : Op (ι → τ) α := fun s =>
  match x (s i) with
  | .ok (a, t) => .ok (a, Function.update s i t)
  | .error msg => .error msg

theorem ends_entry {ι : Type} [DecidableEq ι] {i : ι} {x : Op τ α} {s : ι → τ} {Q : α → (ι → τ) → Prop}
    {E : String → Prop} : Ends (entry i x) s Q E ↔ Ends x (s i) (fun a t => Q a (Function.update s i t)) E := by
  unfold Ends entry
  cases x (s i) with
  | error msg => rfl
  | ok r => rfl

/-- From `s`, `X` does what `x` does on the left part, and ends with a right part in `R`. -/
def Follows (X : Op (τ × ρ) α) (x : Op τ α) (s : τ × ρ) (R : ρ → Prop) : Prop :=
  Ends X s (fun a s' => x s.1 = .ok (a, s'.1) ∧ R s'.2) fun msg => x s.1 = .error msg

namespace Follows

variable {X Y : Op (τ × ρ) α} {x y : Op τ α} {s : τ × ρ} {R : ρ → Prop}

theorem pure {a : α} (h : R s.2) : Follows (Pure.pure a) (Pure.pure a) s R := ⟨rfl, h⟩

theorem ite {c : Prop} [Decidable c] (hx : c → Follows X x s R) (hy : ¬ c → Follows Y y s R) :
    Follows (if c then X else Y) (if c then x else y) s R := by
  split
  next hc => exact hx hc
  next hc => exact hy hc

theorem left {z : Op τ β} {F : β → Op (τ × ρ) α} {f : β → Op τ α}
    (h : ∀ b t, z s.1 = .ok (b, t) → Follows (F b) (f b) (t, s.2) R) :
    Follows (Op.left z >>= F) (z >>= f) s R := by
  cases hz : z s.1 with
  | error msg =>
    have hrun : (Op.left z : Op (τ × ρ) β) s = .error msg := by simp only [Op.left, hz]
    rw [Follows, Ends, run_bind_error hrun]
    exact run_bind_error hz
  | ok r =>
    obtain ⟨b, t⟩ := r
    have hrun : (Op.left z : Op (τ × ρ) β) s = .ok (b, (t, s.2)) := by simp only [Op.left, hz]
    have := h b t hz
    rw [Follows, Ends, run_bind hz] at *
    rw [run_bind hrun]
    exact this

theorem right {z : Op ρ β} {F : β → Op (τ × ρ) α} {b : β} (hz : z s.2 = .ok (b, u))
    (h : Follows (F b) x (s.1, u) R) : Follows (Op.right z >>= F) x s R := by
  have hrun : (Op.right z : Op (τ × ρ) β) s = .ok (b, (s.1, u)) := by simp only [Op.right, hz]
  rw [Follows, Ends, run_bind hrun]
  exact h

theorem of_ok {a : α} {s' : τ × ρ} (h : Follows X x s R) (hrun : X s = .ok (a, s')) :
    x s.1 = .ok (a, s'.1) ∧ R s'.2 := by
  rwa [Follows, Ends, hrun] at h

theorem of_error {msg : String} (h : Follows X x s R) (hrun : X s = .error msg) : x s.1 = .error msg := by
  rwa [Follows, Ends, hrun] at h

end Follows

end Xv6.Lib.Op
