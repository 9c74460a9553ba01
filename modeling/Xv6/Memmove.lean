import Mathlib.Data.BitVec
import Mathlib.Logic.Function.Basic

/-!
# Moving bytes within memory

The kernel's `memmove` copies backwards where the source starts below the destination and reaches into it; the user
library's copies backwards wherever the source does not start above the destination.
-/

namespace Xv6.Memmove

abbrev Addr := BitVec 64

abbrev Mem := Addr → BitVec 8

variable {m : Mem} {d s a : Addr} {n i j : Nat}

-- `while(n-- > 0) *d++ = *s++;`
def forward : Nat → Mem → Addr → Addr → Mem
  | 0, m, _, _ => m
  | n + 1, m, d, s => forward n (Function.update m d (m s)) (d + 1) (s + 1)

-- `while(n-- > 0) *--d = *--s;`
def backward : Nat → Mem → Addr → Addr → Mem
  | 0, m, _, _ => m
  | n + 1, m, d, s => backward n (Function.update m (d - 1) (m (s - 1))) (d - 1) (s - 1)

/-- `memmove` of the kernel, where `n` is unsigned. -/
def Kernel.memmove (m : Mem) (dst src : Addr) (n : BitVec 32) : Addr × Mem :=
  if n = 0 then (dst, m)
  else if src < dst ∧ src + n.setWidth 64 > dst then
    (dst, backward n.toNat m (dst + n.setWidth 64) (src + n.setWidth 64))
  else (dst, forward n.toNat m dst src)

/-- `memmove` of the user library, where `n` is signed. -/
def Ulib.memmove (m : Mem) (vdst vsrc : Addr) (n : BitVec 32) : Addr × Mem :=
  if vsrc > vdst then (vdst, forward n.toInt.toNat m vdst vsrc)
  else (vdst, backward n.toInt.toNat m (vdst + n.signExtend 64) (vsrc + n.signExtend 64))

/-- The `n` bytes from `d` on are what those from `s` on were, and the others are as they were. -/
structure Moved (m : Mem) (d s : Addr) (n : Nat) (m' : Mem) : Prop where
  copied : ∀ i < n, m' (d + BitVec.ofNat 64 i) = m (s + BitVec.ofNat 64 i)
  kept : ∀ a, (∀ i < n, a ≠ d + BitVec.ofNat 64 i) → m' a = m a

theorem Moved.unique {m₁ m₂ : Mem} (h₁ : Moved m d s n m₁) (h₂ : Moved m d s n m₂) : m₁ = m₂ := by
  ext1 a
  by_cases ha : ∃ i < n, a = d + BitVec.ofNat 64 i
  · obtain ⟨i, hi, rfl⟩ := ha
    rw [h₁.copied i hi, h₂.copied i hi]
  · push Not at ha
    rw [h₁.kept a ha, h₂.kept a ha]

@[simp] theorem add_ofNat_zero (d : Addr) : d + BitVec.ofNat 64 0 = d := by simp

theorem add_ofNat_succ (d : Addr) (i : Nat) : d + BitVec.ofNat 64 (i + 1) = d + 1 + BitVec.ofNat 64 i := by
  rw [BitVec.ofNat_add]
  simp only [BitVec.ofNat_eq_ofNat]
  rw [BitVec.add_comm (BitVec.ofNat 64 i), BitVec.add_assoc]

theorem toNat_add_ofNat (h : d.toNat + i < 2 ^ 64) : (d + BitVec.ofNat 64 i).toNat = d.toNat + i := by
  rw [BitVec.toNat_add, BitVec.toNat_ofNat, Nat.add_mod_mod, Nat.mod_eq_of_lt h]

theorem add_ofNat_ne (hi : i < 2 ^ 64) (hj : j < 2 ^ 64) (h : i ≠ j) :
    d + BitVec.ofNat 64 i ≠ d + BitVec.ofNat 64 j := by
  intro heq
  rw [BitVec.add_right_inj] at heq
  have := congrArg BitVec.toNat heq
  rw [BitVec.toNat_ofNat, BitVec.toNat_ofNat, Nat.mod_eq_of_lt hi, Nat.mod_eq_of_lt hj] at this
  exact h this

theorem moved_forward (hn : n ≤ 2 ^ 64)
    (h : ∀ i j, i < j → j < n → d + BitVec.ofNat 64 i ≠ s + BitVec.ofNat 64 j) : Moved m d s n (forward n m d s) := by
  induction n generalizing m d s with
  | zero => exact ⟨(by simp), fun _ _ => rfl⟩
  | succ n ih =>
    have ih : Moved (Function.update m d (m s)) (d + 1) (s + 1) n (forward (n + 1) m d s) := by
      refine ih (by omega) fun i j hij hj => ?_
      rw [← add_ofNat_succ, ← add_ofNat_succ]
      exact h (i + 1) (j + 1) (by omega) (by omega)
    refine ⟨fun i hi => ?_, fun a ha => ?_⟩
    · cases i with
      | zero =>
        rw [add_ofNat_zero, add_ofNat_zero, ih.kept, Function.update_self]
        intro i hi
        rw [← add_ofNat_succ]
        simpa using add_ofNat_ne (d := d) (i := 0) (j := i + 1) (by omega) (by omega) (by omega)
      | succ i =>
        have hne := h 0 (i + 1) (by omega) hi
        rw [add_ofNat_zero] at hne
        rw [add_ofNat_succ, ih.copied i (by omega), add_ofNat_succ, Function.update_of_ne]
        rw [← add_ofNat_succ]
        exact hne.symm
    · rw [ih.kept, Function.update_of_ne]
      · simpa using ha 0 (by omega)
      · intro i hi
        rw [← add_ofNat_succ]
        exact ha (i + 1) (by omega)

theorem moved_backward (hn : n ≤ 2 ^ 64)
    (h : ∀ i j, i < j → j < n → s + BitVec.ofNat 64 i ≠ d + BitVec.ofNat 64 j) :
    Moved m d s n (backward n m (d + BitVec.ofNat 64 n) (s + BitVec.ofNat 64 n)) := by
  induction n generalizing m with
  | zero => exact ⟨(by simp), fun _ _ => rfl⟩
  | succ n ih =>
    have hend : ∀ p : Addr, p + BitVec.ofNat 64 (n + 1) - 1 = p + BitVec.ofNat 64 n := fun p => by
      rw [BitVec.ofNat_add, ← BitVec.add_assoc]
      exact BitVec.add_sub_cancel _ _
    simp only [backward, hend]
    have ih := ih (m := Function.update m (d + BitVec.ofNat 64 n) (m (s + BitVec.ofNat 64 n))) (by omega)
      fun i j hij hj => h i j hij (by omega)
    refine ⟨fun i hi => ?_, fun a ha => ?_⟩
    · rcases Nat.lt_succ_iff_lt_or_eq.mp hi with hlt | rfl
      · rw [ih.copied i hlt, Function.update_of_ne (h i n hlt (by omega))]
      · rw [ih.kept _ fun j hj => add_ofNat_ne (by omega) (by omega) (by omega), Function.update_self]
    · rw [ih.kept a fun i hi => ha i (by omega), Function.update_of_ne (ha n (by omega))]

/-- Where the source does not start below the destination, or ends before it, bytes may go forwards. -/
theorem ne_of_forward (hd : d.toNat + n ≤ 2 ^ 64) (hs : s.toNat + n ≤ 2 ^ 64)
    (h : d.toNat ≤ s.toNat ∨ s.toNat + n ≤ d.toNat) (hij : i < j) (hj : j < n) :
    d + BitVec.ofNat 64 i ≠ s + BitVec.ofNat 64 j := by
  intro heq
  have := congrArg BitVec.toNat heq
  rw [toNat_add_ofNat (by omega), toNat_add_ofNat (by omega)] at this
  omega

theorem moved_kernel {n : BitVec 32} (hd : d.toNat + n.toNat ≤ 2 ^ 64) (hs : s.toNat + n.toNat ≤ 2 ^ 64) :
    Moved m d s n.toNat (Kernel.memmove m d s n).2 := by
  have hw : n.setWidth 64 = BitVec.ofNat 64 n.toNat := by simp
  unfold Kernel.memmove
  split
  · rename_i h0
    subst h0
    exact ⟨(by simp), fun _ _ => rfl⟩
  rw [hw]
  split
  · rename_i hlt
    exact moved_backward (by omega) fun i j hij hj =>
      ne_of_forward hs hd (.inl (Nat.le_of_lt (BitVec.lt_def.mp hlt.1))) hij hj
  · rename_i hge
    refine moved_forward (by omega) fun i j hij hj => ne_of_forward hd hs ?_ hij hj
    -- A source below the destination does not wrap, since the destination's range does not.
    rw [not_and_or, BitVec.not_lt, gt_iff_lt, BitVec.not_lt] at hge
    rcases hge with hge | hge
    · exact .inl (BitVec.le_def.mp hge)
    · by_cases hsd : s.toNat < d.toNat
      · rw [BitVec.le_def, toNat_add_ofNat (by omega)] at hge
        exact .inr hge
      · exact .inl (by omega)

theorem moved_ulib {n : BitVec 32} (hn : 0 ≤ n.toInt) (hd : d.toNat + n.toNat ≤ 2 ^ 64)
    (hs : s.toNat + n.toNat ≤ 2 ^ 64) : Moved m d s n.toNat (Ulib.memmove m d s n).2 := by
  have hmsb : n.msb = false := by
    rw [BitVec.msb_eq_toInt]
    exact decide_eq_false (not_lt.mpr hn)
  have ht : n.toInt.toNat = n.toNat := by rw [BitVec.toInt_eq_toNat_of_msb hmsb, Int.toNat_natCast]
  have hw : n.signExtend 64 = BitVec.ofNat 64 n.toNat := by
    rw [BitVec.signExtend_eq_setWidth_of_msb_false hmsb]
    simp
  unfold Ulib.memmove
  rw [ht, hw]
  split
  · rename_i hlt
    exact moved_forward (by omega) fun i j hij hj =>
      ne_of_forward hd hs (.inl (Nat.le_of_lt (BitVec.lt_def.mp hlt))) hij hj
  · rename_i hge
    exact moved_backward (by omega) fun i j hij hj =>
      ne_of_forward hs hd (.inl (BitVec.le_def.mp (BitVec.not_lt.mp hge))) hij hj

/-- Both move the bytes, so they agree wherever both are defined. -/
theorem memmove_moves (m : Mem) (dst src : Addr) (n : BitVec 32) (hd : dst.toNat + n.toNat ≤ 2 ^ 64)
    (hs : src.toNat + n.toNat ≤ 2 ^ 64) : Moved m dst src n.toNat (Kernel.memmove m dst src n).2 ∧
      (0 ≤ n.toInt → Moved m dst src n.toNat (Ulib.memmove m dst src n).2 ∧
        Ulib.memmove m dst src n = Kernel.memmove m dst src n) := by
  refine ⟨moved_kernel hd hs, fun hn => ⟨moved_ulib hn hd hs, Prod.ext ?_ ?_⟩⟩
  · unfold Ulib.memmove Kernel.memmove
    split <;> split <;> try split
    all_goals rfl
  · exact (moved_ulib hn hd hs).unique (moved_kernel hd hs)

theorem memmove_moves_up : (Kernel.memmove (fun a => a.setWidth 8) 0x1001 0x1000 8).2 0x1008 = 0x07 ∧
    Moved (fun a => a.setWidth 8) 0x1001 0x1000 8 (Ulib.memmove (fun a => a.setWidth 8) 0x1001 0x1000 8).2 :=
  ⟨by decide, ((memmove_moves (fun a => a.setWidth 8) 0x1001 0x1000 8 (by decide) (by decide)).2 (by decide)).1⟩

end Xv6.Memmove
