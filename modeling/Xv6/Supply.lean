import Xv6.Access
import Xv6.Boot

/-!
# Allocation

A call that reports failure has met a `kalloc` that returned 0, and one that succeeds has met none. Where the invariant
holds, none of these functions panics.
-/

open Xv6.Lib Op Radix

namespace Xv6

/-! ## Failures -/

def Counts (failed : Prop) (s s' : Kernel) : Prop :=
  (failed → s.kalloc_failures < s'.kalloc_failures) ∧
    (¬ failed → s'.kalloc_failures = s.kalloc_failures)

namespace Counts

variable {f g : Prop} {s s' t : Kernel}

theorem after (h : Counts f t s') (hs : t.kalloc_failures = s.kalloc_failures) : Counts f s s' := by
  rw [Counts, ← hs]
  exact h

theorem of_not (hf : ¬ f) (hs : s'.kalloc_failures = s.kalloc_failures) : Counts f s s' :=
  ⟨fun h => absurd h hf, fun _ => hs⟩

theorem of_lt (hf : f) (hs : s.kalloc_failures < s'.kalloc_failures) : Counts f s s' :=
  ⟨fun _ => hs, fun h => absurd hf h⟩

theorem iff_ne (h : Counts f s s') : f ↔ s'.kalloc_failures ≠ s.kalloc_failures := by
  constructor
  · intro hf
    have := h.1 hf
    omega
  · intro hne
    by_contra hf
    exact hne (h.2 hf)

end Counts

variable [Image] {n₀ : Nat} {L : Prop} {s s' t : Kernel} {T H : Finset Nat} {r v va p P i : Nat}

omit [Image] in
@[simp] theorem freed_failures : (freed P s).kalloc_failures = s.kalloc_failures := by
  unfold freed
  split <;> rfl

theorem swapout_failures {res : Int} (h : swapout r va s = .ok (res, s')) :
    s'.kalloc_failures = s.kalloc_failures := by
  rcases swapout_ok h with ⟨-, rfl⟩ | ⟨-, -, q, k, -, -, -, -, t, ht, rfl⟩
  · rfl
  · simp only [freed_failures, ht]
    rfl

theorem victim_failures {res : Int} (h : select_victim_page s = .ok (res, s')) :
    s'.kalloc_failures = s.kalloc_failures := by
  obtain ⟨-, rfl⟩ | ⟨-, i, -, -, -, a, -, hout⟩ := victim_scan_ok NPROC (Nat.le_refl _) h
  · rfl
  · exact swapout_failures hout

theorem kalloc_counts {res : Option Nat} (h : kalloc s = .ok (res, s')) : Counts (res = none) s s' := by
  rcases kalloc_ok h with ⟨p, rest, -, rfl, rfl⟩ | ⟨-, v, t, hvictim, hend⟩
  · exact .of_not (by simp) rfl
  · have hf := victim_failures hvictim
    rcases hend with ⟨-, rfl, rfl⟩ | ⟨-, p, rest, -, rfl, rfl⟩
    · refine .of_lt rfl ?_
      rw [← hf]
      exact Nat.lt_succ_self _
    · exact .of_not (by simp) hf

theorem walk_level_counts {level : Nat} {res : Option Nat}
    (h : walk_level (some kalloc) p level va s = .ok (res, s')) : Counts (res = none) s s' := by
  unfold walk_level at h
  simp only [bind_ok, load64_ok] at h
  obtain ⟨e, t, ⟨rfl, rfl⟩, h⟩ := h
  split_ifs at h
  · simp only [pure_ok] at h
    obtain ⟨rfl, rfl⟩ := h
    exact .of_not (by simp) rfl
  · simp only [bind_ok] at h
    obtain ⟨r, t₁, halloc, h⟩ := h
    have hc := kalloc_counts halloc
    cases r with
    | none =>
      simp only [pure_ok] at h
      obtain ⟨rfl, rfl⟩ := h
      exact hc
    | some q =>
      simp only [bind_ok, memset_ok, store64_ok, pure_ok] at h
      obtain ⟨_, _, rfl, _, _, rfl, rfl, rfl⟩ := h
      exact .of_not (by simp) (hc.2 (by simp))

theorem walk_counts {res : Option Nat} (h : walk r va true s = .ok (res, s')) :
    Counts (res = none) s s' := by
  unfold walk walk_with at h
  simp only [if_true] at h
  split_ifs at h
  · simp at h
  · simp only [bind_ok] at h
    obtain ⟨t1, s₁, hlevel₁, h⟩ := h
    have hc₁ := walk_level_counts hlevel₁
    cases t1 with
    | none =>
      simp only [pure_ok] at h
      obtain ⟨rfl, rfl⟩ := h
      exact hc₁
    | some t1 =>
      simp only [bind_ok] at h
      obtain ⟨t0, s₂, hlevel₂, h⟩ := h
      have hc₂ := (walk_level_counts hlevel₂).after (hc₁.2 (by simp))
      cases t0 with
      | none =>
        simp only [pure_ok] at h
        obtain ⟨rfl, rfl⟩ := h
        exact hc₂
      | some t0 =>
        simp only [pure_ok] at h
        obtain ⟨rfl, rfl⟩ := h
        exact .of_not (by simp) (hc₂.2 (by simp))

theorem mappages_counts {pa : Nat} {perm : Pte} {res : Int}
    (h : mappages r va PGSIZE pa perm s = .ok (res, s')) : Counts (res ≠ 0) s s' := by
  obtain ⟨-, ⟨rfl, hwalk⟩ | ⟨a, t, hwalk, -, rfl, rfl⟩⟩ := mappages_ok h
  · exact .of_lt (by decide) ((walk_counts hwalk).1 rfl)
  · exact .of_not (by simp) ((walk_counts hwalk).2 (by simp))

end Xv6
