import Xv6.Lib.Path
import Xv6.Reachable

/-!
# The slots of the swap space

`swapalloc` takes the lowest slot that is not taken, and `swapfree` gives one back. The slots that callers have are
kept beside the allocator.
-/

open Xv6.Lib Op

namespace Xv6

/-- The kernel, and the slots that `swapalloc` returned and `swapfree` did not get back. -/
structure Swapper where
  kernel : Kernel
  taken : Finset Nat

namespace Swapper

variable {y y' : Swapper}

inductive Call
  | swapalloc
  | swapfree (k : Nat)

def lift {α : Type} (x : K α) : Op Swapper α := fun y =>
  match x y.kernel with
  | .ok (a, s) => .ok (a, { y with kernel := s })
  | .error msg => .error msg

def act : Call → Op Swapper Unit
  | .swapalloc => do
    let r ← lift Xv6.swapalloc
    Op.update fun y => { y with taken := r.elim y.taken fun k => insert k y.taken }
  | .swapfree k => do
    lift (Xv6.swapfree k)
    Op.update fun y => { y with taken := y.taken.erase k }

def Allowed : Call → Swapper → Prop
  | .swapalloc, _ => True
  | .swapfree k, y => k ∈ y.taken

instance (c : Call) (y : Swapper) : Decidable (Allowed c y) := by
  cases c
  · exact inferInstanceAs (Decidable True)
  · exact inferInstanceAs (Decidable (_ ∈ _))

theorem lift_ok {α : Type} {x : K α} {a : α} (h : lift x y = .ok (a, y')) :
    ∃ t, x y.kernel = .ok (a, t) ∧ y' = { y with kernel := t } := by
  unfold lift at h
  split at h
  · rename_i b t hx
    cases h
    exact ⟨t, hx, rfl⟩
  · cases h

def Tallied (s : Kernel) : Prop := s.swap.nfree = (Bitmap.free s.swap.inuse SWAP_MAX_BLOCKS).card

theorem Tallied.mark {s : Kernel} {k : Nat} (h : Tallied s) (hk : s.swap.Spare k) :
    Tallied { s with swap := s.swap.mark k } := by
  have hcard := Bitmap.card_free_set hk.lt hk.free
  have hsome := hk.some
  rw [Tallied] at h ⊢
  change s.swap.nfree - 1 = ((Bitmap.set s.swap.inuse k).free SWAP_MAX_BLOCKS).card
  omega

theorem Tallied.release {s : Kernel} {k : Nat} (h : Tallied s) (hk : k < SWAP_MAX_BLOCKS)
    (hu : inuse s.swap k = true) : Tallied { s with swap := s.swap.release k } := by
  have hcard := Bitmap.card_free_clear hk hu
  rw [Tallied] at h ⊢
  change s.swap.nfree + 1 = ((Bitmap.clear s.swap.inuse k).free SWAP_MAX_BLOCKS).card
  omega

/-- The bits that are set are the slots that are taken, and the free ones are counted. -/
structure Inv (y : Swapper) : Prop where
  tallied : Tallied y.kernel
  bits : ∀ k, inuse y.kernel.swap k = true ↔ k ∈ y.taken
  lt : ∀ k ∈ y.taken, k < SWAP_MAX_BLOCKS

theorem inv_swapinit {s t : Kernel} (h : swapinit s = .ok ((), t)) : Inv ⟨t, ∅⟩ := by
  rw [swapinit, update_ok] at h
  subst h
  refine ⟨?_, fun k => by simp [inuse], by simp⟩
  rw [Tallied, Bitmap.free, Finset.filter_true_of_mem, Finset.card_range]
  exact fun k _ => by simp [Bitmap.test]

theorem Inv.step {c : Call} (h : Inv y) (hrun : act c y = .ok ((), y')) : Inv y' := by
  cases c with
  | swapalloc =>
    simp only [act, bind_ok, update_ok] at hrun
    obtain ⟨r, y₁, hlift, rfl⟩ := hrun
    obtain ⟨t, hx, rfl⟩ := lift_ok hlift
    rcases swapalloc_ok hx with ⟨rfl, rfl⟩ | ⟨k, rfl, hk, rfl⟩
    · exact h
    · refine ⟨h.tallied.mark hk, fun j => ?_, fun j hj => ?_⟩
      · simp only [inuse_mark, Bool.or_eq_true, decide_eq_true_eq, Option.elim_some, Finset.mem_insert, h.bits]
      · rcases Finset.mem_insert.mp hj with rfl | hj
        · exact hk.lt
        · exact h.lt j hj
  | swapfree k =>
    simp only [act, bind_ok, update_ok] at hrun
    obtain ⟨_, y₁, hlift, rfl⟩ := hrun
    obtain ⟨t, hx, rfl⟩ := lift_ok hlift
    obtain ⟨⟨hk, hu⟩, rfl⟩ := swapfree_ok hx
    refine ⟨h.tallied.release hk hu, fun j => ?_, fun j hj => h.lt j (Finset.mem_of_mem_erase hj)⟩
    simp only [inuse_release, Bool.and_eq_true, Bool.not_eq_true', decide_eq_false_iff_not, Finset.mem_erase, h.bits]

theorem Inv.nfree_eq_zero (h : Inv y) : y.kernel.swap.nfree = 0 ↔ y.taken = Finset.range SWAP_MAX_BLOCKS := by
  have htal := h.tallied
  rw [Tallied] at htal
  rw [htal, Finset.card_eq_zero, Finset.eq_empty_iff_forall_notMem]
  constructor
  · intro hno
    ext k
    refine ⟨fun hk => Finset.mem_range.mpr (h.lt k hk), fun hk => ?_⟩
    have := hno k
    rw [Bitmap.mem_free, not_and, Bool.not_eq_false] at this
    exact (h.bits k).mp (this (Finset.mem_range.mp hk))
  · intro hall k hk
    obtain ⟨hlt, hfree⟩ := Bitmap.mem_free.mp hk
    have hset := (h.bits k).mpr (by rw [hall]; exact Finset.mem_range.mpr hlt)
    exact absurd (hset.symm.trans hfree) (by decide)

theorem Inv.swapalloc (h : Inv y) : ∃ res t, Xv6.swapalloc y.kernel = .ok (res, t) ∧
    (res = none ↔ y.taken = Finset.range SWAP_MAX_BLOCKS) ∧
      ∀ k, res = some k → k < SWAP_MAX_BLOCKS ∧ k ∉ y.taken ∧ ∀ j < k, j ∈ y.taken := by
  rw [Xv6.swapalloc, run_bind (run_gets _)]
  by_cases h0 : y.kernel.swap.nfree = 0
  · rw [if_pos h0]
    exact ⟨none, y.kernel, rfl, iff_of_true rfl (h.nfree_eq_zero.mp h0), (by simp)⟩
  rw [if_neg h0]
  cases hfind : (List.range SWAP_MAX_BLOCKS).find? fun i => !inuse y.kernel.swap i with
  | none =>
    -- The count is positive, so there is a clear bit to find.
    refine absurd (h.nfree_eq_zero.mpr ?_) h0
    ext k
    refine ⟨fun hk => Finset.mem_range.mpr (h.lt k hk), fun hk => (h.bits k).mp ?_⟩
    simpa using List.find?_eq_none.mp hfind k (List.mem_range.mpr (Finset.mem_range.mp hk))
  | some i =>
    have hlt : i < SWAP_MAX_BLOCKS := List.mem_range.mp (List.mem_of_find?_eq_some hfind)
    have hfree : i ∉ y.taken := by
      rw [← h.bits]
      simpa using List.find?_some hfind
    refine ⟨some i, _, rfl, iff_of_false (by simp) fun hall => hfree (by rw [hall]; exact Finset.mem_range.mpr hlt), ?_⟩
    rintro _ ⟨⟩
    refine ⟨hlt, hfree, fun j hj => (h.bits j).mp ?_⟩
    obtain ⟨-, hbefore⟩ := List.find?_range_eq_some.mp hfind
    simpa using hbefore.2 j hj

/-- After every sequence of calls from `swapinit` on. -/
theorem swap_slots_exact {s t : Kernel} (hinit : swapinit s = .ok ((), t)) (hrun : Path act Allowed ⟨t, ∅⟩ y) :
    y.kernel.swap.nfree = (Bitmap.free y.kernel.swap.inuse SWAP_MAX_BLOCKS).card ∧
      (∀ k, SWAP_MAX_BLOCKS ≤ k → inuse y.kernel.swap k = false) ∧
      (∃ res u, Xv6.swapalloc y.kernel = .ok (res, u) ∧
        (res = none ↔ y.taken = Finset.range SWAP_MAX_BLOCKS) ∧
          ∀ k, res = some k → k < SWAP_MAX_BLOCKS ∧ k ∉ y.taken ∧ ∀ j < k, j ∈ y.taken) ∧
      ∀ k ∈ y.taken, ∃ u, Xv6.swapfree k y.kernel = .ok ((), u) := by
  have h : Inv y := hrun.invariant (inv_swapinit hinit) fun _ _ _ h _ hact => h.step hact
  refine ⟨h.tallied, fun k hk => ?_, h.swapalloc, fun k hk => ⟨_, swapfree_run (h.lt k hk) ((h.bits k).mpr hk)⟩⟩
  by_contra hset
  exact absurd (h.lt k ((h.bits k).mp (eq_true_of_ne_false hset))) (not_lt.mpr hk)

theorem swap_slots_exact_three : ∃ y,
    Path act Allowed ⟨{ bootSystem.kernel with swap := { nfree := SWAP_MAX_BLOCKS } }, ∅⟩ y ∧ y.taken = {1} ∧
    y.kernel.swap.nfree = (Bitmap.free y.kernel.swap.inuse SWAP_MAX_BLOCKS).card := by
  obtain ⟨y, hpath, htest⟩ := Path.exists_of_follow act (C := Allowed) [.swapalloc, .swapalloc, .swapfree 0]
    ⟨{ bootSystem.kernel with swap := { nfree := SWAP_MAX_BLOCKS } }, ∅⟩ (fun y => decide (y.taken = {1}))
    (by decide +kernel)
  exact ⟨y, hpath, of_decide_eq_true htest, (swap_slots_exact (s := bootSystem.kernel) rfl hpath).1⟩

end Swapper

end Xv6
