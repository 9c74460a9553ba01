import Xv6.Lib.Op

/-!
# Operations that draw on a resource

A state has some `level` of the resource. An operation that finds enough of it stays within a bound, and one operation
may do the same as another for as long as it lasts.
-/

namespace Xv6.Lib.Op

variable {σ α β : Type} {level : σ → Nat} {R : σ → σ → Prop} {k l m : Nat} {s : σ} {x y : Op σ α} {f g : α → Op σ β}

def Idle (level : σ → Nat) (R : σ → σ → Prop) (s t : σ) : Prop := level s ≤ level t ∧ R s t

instance [IsPreorder σ R] : IsPreorder σ (Idle level R) where
  refl s := ⟨Nat.le_refl _, refl_of R s⟩
  trans _ _ _ h h' := ⟨Nat.le_trans h.1 h'.1, trans_of R h.2 h'.2⟩

/-- With `k` to draw on, `x` draws at most `k`, and the states are related. -/
def Draws (level : σ → Nat) (R : σ → σ → Prop) (k : Nat) (x : Op σ α) (s : σ) : Prop :=
  ∀ a t, x s = .ok (a, t) → k ≤ level s → level s ≤ level t + k ∧ R s t

/-- What `x` returns `y` returns, and the states are related. With `k` to draw on, `x` returns what `y` does. -/
structure Mirrors (level : σ → Nat) (R : σ → σ → Prop) (k : Nat) (x y : Op σ α) (s : σ) : Prop where
  back : ∀ a t, x s = .ok (a, t) → y s = .ok (a, t) ∧ R s t
  forth : ∀ a t, y s = .ok (a, t) → k ≤ level s → x s = .ok (a, t) ∧ level s ≤ level t + k

theorem Mirrors.draws (h : Mirrors level R k x y s) : Draws level R k y s := by
  intro a t hy hk
  obtain ⟨hx, hle⟩ := h.forth a t hy hk
  exact ⟨hle, (h.back a t hx).2⟩

namespace Mirrors

theorem idle (hx : Keeps (Idle level R) x) (s : σ) : Mirrors level R k x x s where
  back a t h := ⟨h, (hx s a t h).2⟩
  forth a t h _ := ⟨h, Nat.le_trans (hx s a t h).1 (Nat.le_add_right _ _)⟩

theorem ite {x' y' : Op σ α} {c : Prop} [Decidable c] (hx : Mirrors level R k x x' s) (hy : Mirrors level R k y y' s) :
    Mirrors level R k (if c then x else y) (if c then x' else y') s := by
  split
  · exact hx
  · exact hy

variable [IsPreorder σ R]

theorem pure (a : α) (s : σ) : Mirrors level R k (Pure.pure a) (Pure.pure a) s := idle (.pure a) s

theorem bind (hx : Mirrors level R k x y s) (l : Nat) (hm : k + l ≤ m)
    (hf : ∀ a t, y s = .ok (a, t) → Mirrors level R l (f a) (g a) t) : Mirrors level R m (x >>= f) (y >>= g) s where
  back b u h := by
    obtain ⟨a, t, hxs, hft⟩ := (bind_ok x f).mp h
    obtain ⟨hy, hR⟩ := hx.back a t hxs
    obtain ⟨hg, hR'⟩ := (hf a t hy).back b u hft
    exact ⟨(bind_ok y g).mpr ⟨a, t, hy, hg⟩, trans_of R hR hR'⟩
  forth b u h hle := by
    obtain ⟨a, t, hy, hg⟩ := (bind_ok y g).mp h
    obtain ⟨hxs, hk⟩ := hx.forth a t hy (by omega)
    obtain ⟨hft, hl⟩ := (hf a t hy).forth b u hg (by omega)
    exact ⟨(bind_ok x f).mpr ⟨a, t, hxs, hft⟩, by omega⟩

theorem skip (hx : Keeps (Idle level R) x) (hf : ∀ a t, x s = .ok (a, t) → Mirrors level R k (f a) (g a) t) :
    Mirrors level R k (x >>= f) (x >>= g) s :=
  (idle hx s).bind (k := 0) k (by omega) hf

end Mirrors

end Xv6.Lib.Op
