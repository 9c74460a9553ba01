import Xv6.Disk.Virtio

/-!
# Chains of descriptors

What allocation and release do to the table of descriptors.
-/

open Xv6.Lib Op

namespace Xv6.Disk

variable {s t : State} {i j k : Nat} {E : String → Prop}

abbrev Idx := Nat × Nat × Nat

def Idx.list (idx : Idx) : List Nat := [idx.1, idx.2.1, idx.2.2]

/-- The three descriptors of a request for the buffer `b`. -/
structure Chain (s : State) (b : Nat) (idx : Idx) : Prop where
  bound : ∀ i ∈ idx.list, i < NUM
  nodup : idx.list.Nodup
  used : ∀ i ∈ idx.list, s.free i = false
  head : (s.desc idx.1).flags &&& VRING_DESC_F_NEXT ≠ 0 ∧ (s.desc idx.1).next = idx.2.1
  data : (s.desc idx.2.1).flags &&& VRING_DESC_F_NEXT ≠ 0 ∧ (s.desc idx.2.1).next = idx.2.2 ∧
    (s.desc idx.2.1).addr = .data b
  status : (s.desc idx.2.2).flags &&& VRING_DESC_F_NEXT = 0 ∧ (s.desc idx.2.2).addr = .status idx.1

theorem update_three {α : Type} (f : Nat → α) (a : α) :
    Function.update (Function.update (Function.update f i a) j a) k a =
      fun r => if r ∈ Idx.list (i, j, k) then a else f r := by
  funext r
  by_cases hrk : r = k
  · subst hrk
    simp [Idx.list]
  · by_cases hrj : r = j
    · subst hrj
      simp [Idx.list, hrk]
    · by_cases hri : r = i
      · subst hri
        simp [Idx.list, hrk, hrj]
      · simp [Idx.list, hrk, hrj, hri]

theorem Chain.dataOf {b : Nat} {idx : Idx} (h : Chain s b idx) : s.dataOf idx.1 = .data b := by
  rw [State.dataOf, h.head.2, h.data.2.2]

theorem Chain.statusOf {b : Nat} {idx : Idx} (h : Chain s b idx) : s.statusOf idx.1 = .status idx.1 := by
  rw [State.statusOf, h.head.2, h.data.2.1, h.status.2]

theorem Chain.congr {b : Nat} {idx : Idx} (h : Chain s b idx) (hfree : ∀ i ∈ idx.list, t.free i = s.free i)
    (hdesc : ∀ i ∈ idx.list, t.desc i = s.desc i) : Chain t b idx := by
  have h0 : idx.1 ∈ idx.list := by simp [Idx.list]
  have h1 : idx.2.1 ∈ idx.list := by simp [Idx.list]
  have h2 : idx.2.2 ∈ idx.list := by simp [Idx.list]
  refine ⟨h.bound, h.nodup, fun i hi => ?_, ?_, ?_, ?_⟩
  · rw [hfree i hi]
    exact h.used i hi
  · rw [hdesc _ h0]
    exact h.head
  · rw [hdesc _ h1]
    exact h.data
  · rw [hdesc _ h2]
    exact h.status

theorem alloc_desc_loop_ends (h : i + k = NUM) : Ends (alloc_desc_loop k i) s
    (fun r t => r.elim (t = s) fun i => i < NUM ∧ s.free i = true ∧
      t = { s with free := Function.update s.free i false }) E := by
  induction k generalizing i with
  | zero => exact rfl
  | succ k ih =>
    simp only [alloc_desc_loop, ends_bind, ends_gets, ends_ite, ends_update, ends_pure]
    exact ⟨fun hfree => ⟨by omega, hfree, rfl⟩, fun _ => ih (by omega)⟩

theorem alloc_desc_ends : Ends alloc_desc s
    (fun r t => r.elim (t = s) fun i => i < NUM ∧ s.free i = true ∧
      t = { s with free := Function.update s.free i false }) E :=
  alloc_desc_loop_ends rfl

theorem free_desc_ends (hi : i < NUM) (hused : s.free i = false) : Ends (free_desc i) s
    (fun _ t => t = { s with desc := Function.update s.desc i zero, free := Function.update s.free i true }) E := by
  simp only [free_desc, ends_bind, ends_gets, ends_ite, ends_stop, ends_update]
  refine ⟨fun h => absurd hi (Nat.not_lt.mpr h), fun _ => ⟨fun h => ?_, fun _ => trivial⟩⟩
  rw [hused] at h
  cases h

theorem alloc3_desc_ends : Ends alloc3_desc s
    (fun r t => r.elim (∃ desc, t = { s with desc := desc } ∧ ∀ i, s.free i = false → desc i = s.desc i) fun idx =>
      (∀ i ∈ Idx.list idx, i < NUM ∧ s.free i = true) ∧ (Idx.list idx).Nodup ∧
      t.free = (fun i => if i ∈ Idx.list idx then false else s.free i) ∧ t = { s with free := t.free }) E := by
  unfold alloc3_desc
  rw [ends_bind]
  refine alloc_desc_ends.mono ?_
  rintro (_ | i) s₁ h₁
  · obtain rfl : s₁ = s := h₁
    exact ⟨s₁.desc, rfl, fun _ _ => rfl⟩
  obtain ⟨hi, hfi, rfl⟩ := h₁
  rw [ends_bind]
  refine alloc_desc_ends.mono ?_
  rintro (_ | j) s₂ h₂
  · obtain rfl : s₂ = _ := h₂
    rw [ends_bind]
    refine (free_desc_ends hi (Function.update_self ..)).mono ?_
    rintro _ t rfl
    refine ⟨Function.update s.desc i zero, ?_, fun r hr => Function.update_of_ne ?_ ..⟩
    · simp only [Function.update_idem]
      rw [← hfi, Function.update_eq_self]
    · rintro rfl
      rw [hfi] at hr
      cases hr
  obtain ⟨hj, hfj, rfl⟩ := h₂
  have hij : j ≠ i := by
    rintro rfl
    simp at hfj
  have hfj' : s.free j = true := by simpa [hij] using hfj
  rw [ends_bind]
  refine alloc_desc_ends.mono ?_
  rintro (_ | k) s₃ h₃
  · obtain rfl : s₃ = _ := h₃
    rw [ends_bind]
    refine (free_desc_ends hi (by simp [hij.symm])).mono ?_
    rintro _ t rfl
    rw [ends_bind]
    refine (free_desc_ends hj (by simp [hij])).mono ?_
    rintro _ t rfl
    refine ⟨Function.update (Function.update s.desc i zero) j zero, ?_, fun r hr => ?_⟩
    · congr 1
      funext r
      by_cases hrj : r = j
      · subst hrj
        simp [hfj']
      · by_cases hri : r = i
        · subst hri
          simp [hrj, hfi]
        · simp [hrj, hri]
    · have hri : r ≠ i := by
        rintro rfl
        rw [hfi] at hr
        cases hr
      have hrj : r ≠ j := by
        rintro rfl
        rw [hfj'] at hr
        cases hr
      rw [Function.update_of_ne hrj, Function.update_of_ne hri]
  obtain ⟨hk, hfk, rfl⟩ := h₃
  have hkj : k ≠ j := by
    rintro rfl
    simp at hfk
  have hki : k ≠ i := by
    rintro rfl
    simp [hkj] at hfk
  have hfk' : s.free k = true := by simpa [hkj, hki] using hfk
  refine ⟨?_, ?_, ?_, rfl⟩
  · simp [Idx.list, hi, hj, hk, hfi, hfj', hfk']
  · simp [Idx.list, hij.symm, hki.symm, hkj.symm]
  · exact update_three ..

theorem ends_free_chain {fuel : Nat} {Q : Unit → State → Prop} (hi : i < NUM) (hused : s.free i = false)
    (h : Ends (if (s.desc i).flags &&& VRING_DESC_F_NEXT ≠ 0 then free_chain fuel (s.desc i).next else pure ())
      { s with desc := Function.update s.desc i zero, free := Function.update s.free i true } Q E) :
    Ends (free_chain (fuel + 1) i) s Q E := by
  rw [free_chain, ends_bind, ends_gets, ends_bind]
  refine (free_desc_ends hi hused).mono ?_
  rintro _ t rfl
  exact h

theorem Chain.free_chain_ends {b : Nat} {idx : Idx} (h : Chain s b idx) (hs : t.free = s.free ∧ t.desc = s.desc) :
    Ends (free_chain (NUM + 1) idx.1) t (fun _ u => u = { t with
      desc := fun i => if i ∈ idx.list then zero else s.desc i
      free := fun i => if i ∈ idx.list then true else s.free i }) E := by
  obtain ⟨i, j, k⟩ := idx
  have hb := h.bound
  have hu := h.used
  obtain ⟨hij, hik, hjk⟩ : i ≠ j ∧ i ≠ k ∧ j ≠ k := by simpa [Idx.list, and_assoc] using h.nodup
  simp only [Idx.list, List.mem_cons, List.not_mem_nil, or_false, forall_eq_or_imp, forall_eq] at hb hu
  have hhead := h.head
  have hdata := h.data
  have hstatus := h.status
  dsimp only at hhead hdata hstatus
  refine ends_free_chain hb.1 (by rw [hs.1]; exact hu.1) ?_
  rw [hs.2, if_pos hhead.1, hhead.2]
  refine ends_free_chain hb.2.1 (by simp [hs.1, hij.symm, hu.2.1]) ?_
  simp only [Function.update_of_ne hij.symm]
  rw [if_pos hdata.1, hdata.2.1]
  refine ends_free_chain hb.2.2 (by simp [hs.1, hik.symm, hjk.symm, hu.2.2]) ?_
  simp only [Function.update_of_ne hik.symm, Function.update_of_ne hjk.symm]
  rw [if_neg (by rw [hstatus.1]; simp), ends_pure, hs.1, update_three, update_three]

end Xv6.Disk
