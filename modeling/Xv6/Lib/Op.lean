import Mathlib.Order.Defs.Unbundled

/-!
# Operations on a state that can stop for good

An operation reads and changes a state, and either returns a value or stops with a
message. What ran before a stop is lost with it, as after a panic that freezes the machine.
-/

namespace Xv6.Lib

abbrev Op (σ α : Type) := StateT σ (Except String) α

theorem toOption_eq_some {α : Type} {x : Except String α} {a : α} : x.toOption = some a ↔ x = .ok a := by
  cases x <;> simp [Except.toOption]

def message {α : Type} : Except String α → Option String
  | .error msg => some msg
  | .ok _ => none

theorem message_eq_some {α : Type} {x : Except String α} {msg : String} : message x = some msg ↔ x = .error msg := by
  cases x <;> simp [message]

namespace Op

variable {σ α β : Type} {s s' : σ} {a a' : α} {b : β}

def stop (msg : String) : Op σ α := fun _ => .error msg

def gets (f : σ → α) : Op σ α := fun s => .ok (f s, s)

def update (f : σ → σ) : Op σ Unit := fun s => .ok ((), f s)

/-! ## What a finished run says -/

theorem run_pure : (pure a : Op σ α) s = .ok (a, s) := rfl

@[simp] theorem pure_ok : (pure a : Op σ α) s = .ok (a', s') ↔ a' = a ∧ s' = s := by
  rw [run_pure, Except.ok.injEq, Prod.mk.injEq]
  exact ⟨fun h => ⟨h.1.symm, h.2.symm⟩, fun h => ⟨h.1.symm, h.2.symm⟩⟩

@[simp] theorem bind_ok (x : Op σ α) (f : α → Op σ β) :
    (x >>= f) s = .ok (b, s') ↔ ∃ a t, x s = .ok (a, t) ∧ f a t = .ok (b, s') := by
  simp only [bind, StateT.bind, Except.bind]
  cases x s with
  | error e => simp
  | ok r =>
    obtain ⟨a, t⟩ := r
    constructor
    · intro h; exact ⟨a, t, rfl, h⟩
    · rintro ⟨a', t', h, h'⟩
      cases h
      exact h'

@[simp] theorem stop_ok (msg : String) : (stop msg : Op σ α) s = .ok (a, s') ↔ False := by
  simp [stop]

@[simp] theorem gets_ok (f : σ → α) : gets f s = .ok (a, s') ↔ a = f s ∧ s' = s := by
  simp only [gets, Except.ok.injEq, Prod.mk.injEq]
  exact ⟨fun h => ⟨h.1.symm, h.2.symm⟩, fun h => ⟨h.1.symm, h.2.symm⟩⟩

@[simp] theorem update_ok (f : σ → σ) (u : Unit) : update f s = .ok (u, s') ↔ s' = f s := by
  simp only [update, Except.ok.injEq, Prod.mk.injEq, true_and]
  exact ⟨Eq.symm, Eq.symm⟩

theorem bind_congr {x : Op σ α} {f g : α → Op σ β} (h : ∀ a t, x s = .ok (a, t) → f a t = g a t) :
    (x >>= f) s = (x >>= g) s := by
  simp only [bind, StateT.bind, Except.bind]
  cases hx : x s with
  | error msg => rfl
  | ok r => exact h r.1 r.2 hx

/-! ## What a stop says -/

theorem bind_error {x : Op σ α} {f : α → Op σ β} {msg : String} :
    (x >>= f) s = .error msg ↔ x s = .error msg ∨ ∃ a t, x s = .ok (a, t) ∧ f a t = .error msg := by
  simp only [bind, StateT.bind, Except.bind]
  cases x s with
  | error e => simp
  | ok r =>
    simp only [reduceCtorEq, false_or, Except.ok.injEq]
    refine ⟨fun h => ⟨r.1, r.2, rfl, h⟩, ?_⟩
    rintro ⟨_, _, hr, h⟩
    rwa [hr]

theorem gets_error {f : σ → α} {msg : String} : gets f s = .error msg ↔ False := by
  simp [gets]

theorem update_error {f : σ → σ} {msg : String} : update f s = .error msg ↔ False := by
  simp [update]

theorem pure_error {msg : String} : (pure a : Op σ α) s = .error msg ↔ False := by
  simp [run_pure]

theorem stop_error {m msg : String} : (stop m : Op σ α) s = .error msg ↔ m = msg := by
  simp [stop]

/-! ## Running forward -/

theorem run_bind {x : Op σ α} {f : α → Op σ β} {t : σ} (h : x s = .ok (a, t)) :
    (x >>= f) s = f a t := by
  simp only [bind, StateT.bind, Except.bind, h]

theorem run_bind_error {x : Op σ α} {f : α → Op σ β} {msg : String} (h : x s = .error msg) :
    (x >>= f) s = .error msg := by
  simp only [bind, StateT.bind, Except.bind, h]

theorem run_gets (f : σ → α) : gets f s = .ok (f s, s) := rfl

theorem run_update (f : σ → σ) : update f s = .ok ((), f s) := rfl

/-! ## Operations that return -/

def Runs (x : Op σ α) (s : σ) : Prop := ∃ a s', x s = .ok (a, s')

namespace Runs

variable {x : Op σ α} {f : α → Op σ β}

theorem of_ok (h : x s = .ok (a, s')) : Runs x s := ⟨a, s', h⟩

theorem pure (a : α) (s : σ) : Runs (Pure.pure a : Op σ α) s := of_ok run_pure

theorem gets (g : σ → α) (s : σ) : Runs (Op.gets g) s := of_ok (run_gets g)

theorem update (g : σ → σ) (s : σ) : Runs (Op.update g) s := of_ok (run_update g)

theorem bind (hx : Runs x s) (hf : ∀ a t, x s = .ok (a, t) → Runs (f a) t) : Runs (x >>= f) s := by
  obtain ⟨a, t, h⟩ := hx
  obtain ⟨b, u, h'⟩ := hf a t h
  exact ⟨b, u, by rw [run_bind h, h']⟩

end Runs

/-! ## What every run keeps -/

/-- Every finished run goes from a state to one that is related to it. -/
def Keeps (R : σ → σ → Prop) (x : Op σ α) : Prop := ∀ s a s', x s = .ok (a, s') → R s s'

namespace Keeps

variable {R : σ → σ → Prop} {x y : Op σ α} {f : α → Op σ β}

theorem stop (msg : String) : Keeps R (Op.stop msg : Op σ α) := by
  intro s a s' h
  simp at h

theorem update {g : σ → σ} (h : ∀ s, R s (g s)) : Keeps R (Op.update g) := by
  intro s u s' hrun
  rw [update_ok] at hrun
  rw [hrun]
  exact h s

theorem ite {c : Prop} [Decidable c] (hx : Keeps R x) (hy : Keeps R y) :
    Keeps R (if c then x else y) := by
  split
  · exact hx
  · exact hy

variable [IsPreorder σ R]

theorem pure (a : α) : Keeps R (Pure.pure a : Op σ α) := by
  intro s b s' h
  rw [(pure_ok.mp h).2]
  exact refl s

theorem gets (g : σ → α) : Keeps R (Op.gets g) := by
  intro s b s' h
  rw [((gets_ok g).mp h).2]
  exact refl s

theorem bind (hx : Keeps R x) (hf : ∀ a, Keeps R (f a)) : Keeps R (x >>= f) := by
  intro s b s' h
  obtain ⟨a, t, h₁, h₂⟩ := (bind_ok x f).mp h
  exact trans_of R (hx s a t h₁) (hf a t b s' h₂)

end Keeps

/-! ## Stops that cannot happen -/

/-- No run stops with the message. -/
def Avoids (msg : String) (x : Op σ α) : Prop := ∀ s, x s ≠ .error msg

namespace Avoids

variable {msg m : String} {x y : Op σ α} {f : α → Op σ β}

theorem stop (h : m ≠ msg) : Avoids msg (Op.stop m : Op σ α) := by
  intro s hs
  exact h (Except.error.inj hs)

theorem pure (a : α) : Avoids msg (Pure.pure a : Op σ α) := fun _ => (by rintro ⟨⟩)

theorem gets (g : σ → α) : Avoids msg (Op.gets g) := fun _ => (by rintro ⟨⟩)

theorem update (g : σ → σ) : Avoids msg (Op.update g) := fun _ => (by rintro ⟨⟩)

theorem ite {c : Prop} [Decidable c] (hx : Avoids msg x) (hy : Avoids msg y) :
    Avoids msg (if c then x else y) := by
  split
  · exact hx
  · exact hy

theorem bind (hx : Avoids msg x) (hf : ∀ a, Avoids msg (f a)) : Avoids msg (x >>= f) := by
  intro s h
  obtain h | ⟨a, t, -, h⟩ := bind_error.mp h
  · exact hx s h
  · exact hf a t h

end Avoids

/-! ## Where an operation ends -/

/-- An operation that runs only if `c` holds. -/
def when (c : Prop) [Decidable c] (x : Op σ Unit) : Op σ Unit := if c then x else pure ()

/-- From `s` the operation returns with `Q`, or it stops with a message of `E`. -/
def Ends (x : Op σ α) (s : σ) (Q : α → σ → Prop) (E : String → Prop) : Prop :=
  match x s with
  | .ok (a, t) => Q a t
  | .error msg => E msg

section ends

variable {Q R : α → σ → Prop} {E : String → Prop} {x y : Op σ α} {f : β → Op σ α}

@[simp] theorem ends_pure : Ends (pure a) s Q E ↔ Q a s := Iff.rfl

@[simp] theorem ends_gets {g : σ → α} : Ends (gets g) s Q E ↔ Q (g s) s := Iff.rfl

@[simp] theorem ends_update {g : σ → σ} {Q : Unit → σ → Prop} : Ends (update g) s Q E ↔ Q () (g s) := Iff.rfl

@[simp] theorem ends_stop {msg : String} : Ends (stop msg : Op σ α) s Q E ↔ E msg := Iff.rfl

@[simp] theorem ends_bind {z : Op σ β} :
    Ends (z >>= f) s Q E ↔ Ends z s (fun b t => Ends (f b) t Q E) E := by
  simp only [Ends, bind, StateT.bind, Except.bind]
  cases z s with
  | error msg => rfl
  | ok r => rfl

@[simp] theorem ends_ite {c : Prop} [Decidable c] :
    Ends (if c then x else y) s Q E ↔ (c → Ends x s Q E) ∧ (¬ c → Ends y s Q E) := by
  split <;> simp [*]

@[simp] theorem ends_when {c : Prop} [Decidable c] {x : Op σ Unit} {Q : Unit → σ → Prop} :
    Ends (when c x) s Q E ↔ (c → Ends x s Q E) ∧ (¬ c → Q () s) := by
  rw [when, ends_ite, ends_pure]

theorem ends_of_run (h : x s = .ok (a, s')) : Ends x s Q E ↔ Q a s' := by
  simp only [Ends, h]

theorem ends_of_error {msg : String} (h : x s = .error msg) : Ends x s Q E ↔ E msg := by
  unfold Ends
  rw [h]

namespace Ends

theorem mono (h : Ends x s Q E) (hQ : ∀ a t, Q a t → R a t) : Ends x s R E := by
  unfold Ends at *
  split at h
  · exact hQ _ _ h
  · exact h

theorem weaken {F : String → Prop} (h : Ends x s Q E) (hE : ∀ msg, E msg → F msg) : Ends x s Q F := by
  unfold Ends at *
  split at h
  · exact h
  · exact hE _ h

theorem and (h : Ends x s Q E) (h' : Ends x s R E) : Ends x s (fun a t => Q a t ∧ R a t) E := by
  unfold Ends at *
  split at h <;> simp_all

theorem with_run (h : Ends x s Q E) : Ends x s (fun a t => Q a t ∧ x s = .ok (a, t)) E := by
  unfold Ends at *
  cases hx : x s with
  | ok r =>
    rw [hx] at h
    exact ⟨h, rfl⟩
  | error msg =>
    rw [hx] at h
    exact h

theorem of_ok (h : Ends x s Q E) (hx : x s = .ok (a, s')) : Q a s' := by
  simpa only [Ends, hx] using h

theorem of_error {msg : String} (h : Ends x s Q E) (hx : x s = .error msg) : E msg := by
  simpa only [Ends, hx] using h

end Ends

end ends

/-- From `s` the operation returns, or it stops with a message of `E`. -/
abbrev Safe (E : String → Prop) (x : Op σ α) (s : σ) : Prop := Ends x s (fun _ _ => True) E

namespace Safe

variable {E F : String → Prop} {x y : Op σ α} {f : α → Op σ β} {Q : α → σ → Prop}

theorem ends (h : Safe E x s) (hQ : ∀ a t, x s = .ok (a, t) → Q a t) : Ends x s Q E := by
  unfold Safe Ends at *
  split
  next a t hx => exact hQ a t hx
  next msg hx => simpa only [hx] using h

theorem bind (hx : Safe E x s) (hf : ∀ a t, x s = .ok (a, t) → Safe E (f a) t) : Safe E (x >>= f) s :=
  ends_bind.mpr (hx.ends hf)

theorem ite {c : Prop} [Decidable c] (hx : c → Safe E x s) (hy : ¬ c → Safe E y s) :
    Safe E (if c then x else y) s :=
  ends_ite.mpr ⟨hx, hy⟩

theorem of_ends (h : Ends x s Q E) : Safe E x s := h.mono fun _ _ _ => trivial

theorem after (hx : Ends x s Q E) (hf : ∀ a t, Q a t → Safe E (f a) t) : Safe E (x >>= f) s :=
  ends_bind.mpr (hx.mono hf)

end Safe

/-! ## What an operation leaves alone -/

/-- From every state the operation returns in a state that is related to it, or it stops with a message of `E`. -/
def Stays (R : σ → σ → Prop) (E : String → Prop) (x : Op σ α) : Prop := ∀ s, Ends x s (fun _ t => R s t) E

namespace Stays

variable {R : σ → σ → Prop} {E : String → Prop} {x y : Op σ α} {f : α → Op σ β}

theorem stop {msg : String} (h : E msg) : Stays R E (Op.stop msg : Op σ α) := fun _ => h

theorem update {g : σ → σ} (h : ∀ s, R s (g s)) : Stays R E (Op.update g) := h

theorem ite {c : Prop} [Decidable c] (hx : Stays R E x) (hy : Stays R E y) : Stays R E (if c then x else y) := by
  split
  · exact hx
  · exact hy

variable [IsPreorder σ R]

theorem pure (a : α) : Stays R E (Pure.pure a : Op σ α) := fun s => refl_of R s

theorem gets (g : σ → α) : Stays R E (Op.gets g) := fun s => refl_of R s

theorem bind (hx : Stays R E x) (hf : ∀ a, Stays R E (f a)) : Stays R E (x >>= f) := by
  intro s
  rw [ends_bind]
  exact (hx s).mono fun a t hst => (hf a t).mono fun b u htu => trans_of R hst htu

theorem when {c : Prop} [Decidable c] {x : Op σ Unit} (hx : Stays R E x) : Stays R E (Op.when c x) := ite hx (pure ())

end Stays

end Op

end Xv6.Lib
