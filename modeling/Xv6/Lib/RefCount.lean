import Mathlib.Data.Finset.Card
import Mathlib.Logic.Function.Basic

/-!
# Counting references

An allocator counts the references `ρ` to each thing `π` that it manages and keeps a list of free ones. Which references
may point at the same thing is a parameter.
-/

namespace Xv6.Lib

variable {ρ π : Type} [DecidableEq π] {U : Finset ρ} {f g : ρ → Option π} {x y : ρ} {P Q : π}

def refCount (U : Finset ρ) (f : ρ → Option π) (P : π) : Nat := (U.filter fun x => f x = some P).card

theorem refCount_eq_zero : refCount U f P = 0 ↔ ∀ x ∈ U, f x ≠ some P := by
  simp [refCount, Finset.filter_eq_empty_iff]

theorem refCount_pos (hx : x ∈ U) (h : f x = some P) : 0 < refCount U f P :=
  Finset.card_pos.mpr ⟨x, Finset.mem_filter.mpr ⟨hx, h⟩⟩

theorem eq_of_refCount_le_one (h : refCount U f P ≤ 1) (hx : x ∈ U) (hy : y ∈ U)
    (hfx : f x = some P) (hfy : f y = some P) : x = y :=
  Finset.card_le_one.mp h x (Finset.mem_filter.mpr ⟨hx, hfx⟩) y (Finset.mem_filter.mpr ⟨hy, hfy⟩)

theorem refCount_le_one (h : ∀ y ∈ U, f y = some P → y = x) : refCount U f P ≤ 1 := by
  apply Finset.card_le_one.mpr
  intro a ha b hb
  rw [Finset.mem_filter] at ha hb
  exact (h a ha.1 ha.2).trans (h b hb.1 hb.2).symm

theorem exists_ne_of_two_le (h : 2 ≤ refCount U f P) (x : ρ) : ∃ y ∈ U, f y = some P ∧ y ≠ x := by
  by_contra hno
  have hle : refCount U f P ≤ 1 := by
    apply refCount_le_one
    intro y hy hfy
    by_contra hne
    exact hno ⟨y, hy, hfy, hne⟩
  omega

theorem two_le_refCount (hx : x ∈ U) (hy : y ∈ U) (hne : x ≠ y) (hfx : f x = some P)
    (hfy : f y = some P) : 2 ≤ refCount U f P := by
  by_contra hlt
  exact hne (eq_of_refCount_le_one (by omega) hx hy hfx hfy)

theorem refCount_drop (h : ∀ x ∈ U, g x = f x ∨ g x = none) :
    refCount U f P = refCount U g P + (U.filter fun x => f x = some P ∧ g x = none).card := by
  have hleft : (U.filter fun x => f x = some P).filter (fun x => ¬ g x = none) = U.filter fun x => g x = some P := by
    ext x
    simp only [Finset.mem_filter, and_assoc]
    refine and_congr_right fun hx => ?_
    rcases h x hx with he | he
    · rw [he]
      exact ⟨And.left, fun hp => ⟨hp, by rw [hp]; simp⟩⟩
    · simp [he]
  have hsplit := Finset.card_filter_add_card_filter_not (s := U.filter fun x => f x = some P) (fun x => g x = none)
  rw [hleft, Finset.filter_filter] at hsplit
  unfold refCount
  omega

variable [DecidableEq ρ]

theorem refCount_update (hx : x ∈ U) (t : Option π) :
    refCount U (Function.update f x t) P + (if f x = some P then 1 else 0) =
      refCount U f P + (if t = some P then 1 else 0) := by
  have hrest : ∀ h : ρ → Option π, refCount U h P =
      (U.erase x |>.filter fun y => h y = some P).card + (if h x = some P then 1 else 0) := by
    intro h
    unfold refCount
    nth_rewrite 1 [← Finset.insert_erase hx]
    rw [Finset.filter_insert]
    split_ifs
    · rw [Finset.card_insert_of_notMem]
      simp
    · rfl
  have hsame : ((U.erase x).filter fun y => Function.update f x t y = some P) =
      (U.erase x).filter fun y => f y = some P := by
    apply Finset.filter_congr
    intro y hy
    rw [Function.update_of_ne (Finset.ne_of_mem_erase hy)]
  rw [hrest f, hrest (Function.update f x t), hsame, Function.update_self]
  omega

/-- The counts `c` are exact, what is on the list `free` has none, and two references to one thing
are compatible. If `L` holds then nothing is lost: what has no reference is on the list. -/
structure Counted (U : Finset ρ) (managed : π → Prop) (L : Prop) (compat : ρ → ρ → Prop)
    (f : ρ → Option π) (c : π → Int) (free : List π) : Prop where
  mem : ∀ x P, f x = some P → x ∈ U ∧ managed P
  apart : ∀ x y P, f x = some P → f y = some P → x = y ∨ compat x y
  exact : ∀ P, managed P → c P = refCount U f P
  free_ok : ∀ P ∈ free, managed P ∧ c P = 0
  nodup : free.Nodup
  full : L → ∀ P, managed P → c P = 0 → P ∈ free

namespace Counted

variable {managed : π → Prop} {compat q : ρ → ρ → Prop} {L : Prop} {c d : π → Int}
  {free rest : List π} {p : π}

omit [DecidableEq ρ]

theorem pos (h : Counted U managed L compat f c free) (hx : f x = some P) : 0 < c P := by
  obtain ⟨hU, hP⟩ := h.mem x P hx
  have := refCount_pos hU hx
  rw [h.exact P hP]
  omega

theorem exists_of_pos (h : Counted U managed L compat f c free) (hP : managed P) (hc : 0 < c P) :
    ∃ x, f x = some P := by
  by_contra hno
  have hzero : refCount U f P = 0 := refCount_eq_zero.mpr fun x _ hx => hno ⟨x, hx⟩
  rw [h.exact P hP, hzero] at hc
  exact absurd hc (by simp)

theorem not_free (h : Counted U managed L compat f c free) (hx : f x = some P) : P ∉ free := by
  intro hP
  have := h.pos hx
  have := (h.free_ok P hP).2
  omega

theorem free_none (h : Counted U managed L compat f c free) (hP : P ∈ free) (x : ρ) :
    f x ≠ some P := fun hx => h.not_free hx hP

theorem unique (h : Counted U managed L compat f c free) (hc : c P ≤ 1) (hx : f x = some P)
    (hy : f y = some P) : x = y := by
  obtain ⟨hU, hP⟩ := h.mem x P hx
  have := h.exact P hP
  exact eq_of_refCount_le_one (by omega) hU (h.mem y P hy).1 hx hy

theorem mono (h : Counted U managed L compat f c free)
    (hm : ∀ x y P, f x = some P → f y = some P → x ≠ y → compat x y → q x y) :
    Counted U managed L q f c free := by
  refine ⟨h.mem, ?_, h.exact, h.free_ok, h.nodup, h.full⟩
  intro x y P hx hy
  by_cases hxy : x = y
  · exact .inl hxy
  · exact .inr (hm x y P hx hy hxy ((h.apart x y P hx hy).resolve_left hxy))

theorem count_congr (h : Counted U managed L compat f c free)
    (hc : ∀ P, managed P → d P = c P) : Counted U managed L compat f d free := by
  refine ⟨h.mem, h.apart, ?_, ?_, h.nodup, ?_⟩
  · intro P hP
    rw [hc P hP, h.exact P hP]
  · intro P hP
    obtain ⟨hm, h0⟩ := h.free_ok P hP
    exact ⟨hm, by rw [hc P hm, h0]⟩
  · intro hL P hP h0
    rw [hc P hP] at h0
    exact h.full hL P hP h0

variable [DecidableEq ρ]

theorem add (h : Counted U managed L compat f c free) (hx : x ∈ U) (hfx : f x = none)
    (hP : managed P) (hfree : P ∉ free)
    (hcomp : ∀ y, f y = some P → compat x y ∧ compat y x)
    (hc : ∀ Q, managed Q → d Q = if Q = P then c Q + 1 else c Q) :
    Counted U managed L compat (Function.update f x (some P)) d free := by
  refine ⟨?_, ?_, ?_, ?_, h.nodup, ?_⟩
  · intro y Q hy
    by_cases hyx : y = x
    · subst hyx
      rw [Function.update_self, Option.some.injEq] at hy
      exact ⟨hx, hy ▸ hP⟩
    · rw [Function.update_of_ne hyx] at hy
      exact h.mem y Q hy
  · intro y z Q hy hz
    by_cases hyx : y = x <;> by_cases hzx : z = x
    · exact .inl (hyx.trans hzx.symm)
    · subst hyx
      rw [Function.update_self, Option.some.injEq] at hy
      rw [Function.update_of_ne hzx] at hz
      subst hy
      exact .inr (hcomp z hz).1
    · subst hzx
      rw [Function.update_self, Option.some.injEq] at hz
      rw [Function.update_of_ne hyx] at hy
      subst hz
      exact .inr (hcomp y hy).2
    · rw [Function.update_of_ne hyx] at hy
      rw [Function.update_of_ne hzx] at hz
      exact h.apart y z Q hy hz
  · intro Q hQ
    have hu := refCount_update (P := Q) (f := f) hx (some P)
    have he := h.exact Q hQ
    rw [hfx] at hu
    rw [hc Q hQ]
    by_cases hQP : Q = P
    · subst hQP
      simp at hu ⊢
      omega
    · simp [hQP, Ne.symm hQP] at hu ⊢
      omega
  · intro Q hQ
    obtain ⟨hm, h0⟩ := h.free_ok Q hQ
    have hQP : Q ≠ P := fun he => hfree (he ▸ hQ)
    exact ⟨hm, by rw [hc Q hm, if_neg hQP, h0]⟩
  · intro hL Q hQ h0
    rw [hc Q hQ] at h0
    split_ifs at h0 with hQP
    · have := h.exact Q hQ
      omega
    · exact h.full hL Q hQ h0

theorem take (h : Counted U managed L compat f c (p :: rest)) (hx : x ∈ U) (hfx : f x = none)
    (hc : ∀ Q, managed Q → d Q = if Q = p then 1 else c Q) :
    Counted U managed L compat (Function.update f x (some p)) d rest := by
  obtain ⟨hp, h0⟩ := h.free_ok p (by simp)
  have hnone := h.free_none (P := p) (by simp)
  obtain ⟨hnot, hnd⟩ := List.nodup_cons.mp h.nodup
  -- Off the list, and not yet counted: only `full` does not hold of `p` any more.
  have h' : Counted U managed False compat f c rest :=
    ⟨h.mem, h.apart, h.exact, fun Q hQ => h.free_ok Q (List.mem_cons_of_mem _ hQ), hnd, False.elim⟩
  have hadd := h'.add (d := d) hx hfx hp hnot (fun y hy => absurd hy (hnone y)) (by
    intro Q hQ
    rw [hc Q hQ]
    split_ifs with hQp
    · rw [hQp, h0]
      rfl
    · rfl)
  refine ⟨hadd.mem, hadd.apart, hadd.exact, hadd.free_ok, hadd.nodup, ?_⟩
  intro hL Q hQ hQ0
  by_cases hQp : Q = p
  · rw [hc Q hQ, if_pos hQp] at hQ0
    omega
  · rw [hc Q hQ, if_neg hQp] at hQ0
    exact (List.mem_cons.mp (h.full hL Q hQ hQ0)).resolve_left hQp

theorem del_keep (h : Counted U managed L compat f c free) (hfx : f x = some P)
    (hL : L → c P ≠ 1) (hc : ∀ Q, managed Q → d Q = if Q = P then c Q - 1 else c Q) :
    Counted U managed L compat (Function.update f x none) d free := by
  have hpos := h.pos hfx
  have hback : ∀ y Q, Function.update f x none y = some Q → f y = some Q := by
    intro y Q hy
    by_cases hyx : y = x
    · subst hyx
      simp at hy
    · rwa [Function.update_of_ne hyx] at hy
  refine ⟨?_, ?_, ?_, ?_, h.nodup, ?_⟩
  · intro y Q hy
    exact h.mem y Q (hback y Q hy)
  · intro y z Q hy hz
    exact h.apart y z Q (hback y Q hy) (hback z Q hz)
  · intro Q hQ
    have hu := refCount_update (P := Q) (f := f) (h.mem x P hfx).1 none
    have he := h.exact Q hQ
    rw [hfx] at hu
    rw [hc Q hQ]
    by_cases hQP : Q = P
    · subst hQP
      simp at hu ⊢
      omega
    · simp [hQP, Ne.symm hQP] at hu ⊢
      omega
  · intro Q hQ
    obtain ⟨hm, h0⟩ := h.free_ok Q hQ
    have hQP : Q ≠ P := by
      rintro rfl
      omega
    exact ⟨hm, by rw [hc Q hm, if_neg hQP, h0]⟩
  · intro hl Q hQ h0
    rw [hc Q hQ] at h0
    split_ifs at h0 with hQP
    · subst hQP
      exact absurd (by omega) (hL hl)
    · exact h.full hl Q hQ h0

/-- A reference goes away, and with the last one the thing is freed. -/
theorem del (h : Counted U managed L compat f c free) (hfx : f x = some P)
    (hc : ∀ Q, managed Q → d Q = if Q = P then c Q - 1 else c Q) :
    Counted U managed L compat (Function.update f x none) d
      (if c P = 1 then P :: free else free) := by
  split_ifs with h1
  · have h' : Counted U managed False compat f c free :=
      ⟨h.mem, h.apart, h.exact, h.free_ok, h.nodup, False.elim⟩
    have hdel := h'.del_keep (d := d) hfx False.elim hc
    obtain ⟨-, hP⟩ := h.mem x P hfx
    refine ⟨hdel.mem, hdel.apart, hdel.exact, ?_, ?_, ?_⟩
    · intro Q hQ
      rcases List.mem_cons.mp hQ with rfl | hQ
      · exact ⟨hP, by rw [hc Q hP, if_pos rfl, h1]; rfl⟩
      · exact hdel.free_ok Q hQ
    · exact List.nodup_cons.mpr ⟨h.not_free hfx, h.nodup⟩
    · intro hL Q hQ h0
      rw [hc Q hQ] at h0
      split_ifs at h0 with hQP
      · exact hQP ▸ List.mem_cons_self
      · exact List.mem_cons_of_mem _ (h.full hL Q hQ h0)
  · exact h.del_keep hfx (fun _ => h1) hc

theorem move (h : Counted U managed L compat f c free) (hfx : f x = some P) (hfy : f y = none)
    (hy : y ∈ U) (hex : ∀ z, ¬ compat x z) :
    Counted U managed L compat (Function.update (Function.update f x none) y (some P)) c free := by
  have hdel := (⟨h.mem, h.apart, h.exact, h.free_ok, h.nodup, False.elim⟩ :
    Counted U managed False compat f c free).del_keep
      (d := fun Q => if Q = P then c Q - 1 else c Q) hfx False.elim (fun _ _ => rfl)
  have hxy : y ≠ x := by
    rintro rfl
    rw [hfx] at hfy
    cases hfy
  have hgone : ∀ z, Function.update f x none z ≠ some P := by
    intro z hz
    by_cases hzx : z = x
    · subst hzx
      simp at hz
    · rw [Function.update_of_ne hzx] at hz
      rcases h.apart x z P hfx hz with he | he
      · exact hzx he.symm
      · exact hex z he
  have hadd := hdel.add (d := c) hy (by rw [Function.update_of_ne hxy, hfy]) (h.mem x P hfx).2
    (h.not_free hfx) (fun z hz => absurd hz (hgone z)) (by
      intro Q _
      split_ifs <;> omega)
  exact ⟨hadd.mem, hadd.apart, hadd.exact, hadd.free_ok, hadd.nodup, h.full⟩

end Counted

end Xv6.Lib
