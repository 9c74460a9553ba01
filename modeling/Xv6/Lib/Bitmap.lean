import Mathlib.Data.BitVec
import Mathlib.Data.Finset.Card
import Mathlib.Tactic.IntervalCases

/-!
# Bitmaps

Bit `i` of a bitmap is bit `i % 8` of its byte `i / 8`.
-/

namespace Xv6.Lib

abbrev Bitmap := Nat → BitVec 8

namespace Bitmap

variable {m : Bitmap} {i j n : Nat}

def test (m : Bitmap) (i : Nat) : Bool := m (i / 8) &&& (1#8 <<< (i % 8)) != 0#8

def set (m : Bitmap) (i : Nat) : Bitmap := fun k => if k = i / 8 then m k ||| (1#8 <<< (i % 8)) else m k

def clear (m : Bitmap) (i : Nat) : Bitmap := fun k => if k = i / 8 then m k &&& ~~~(1#8 <<< (i % 8)) else m k

theorem getLsbD_bit {a k : Nat} (ha : a < 8) : (1#8 <<< a).getLsbD k = decide (k = a) := by
  by_cases hk : k < 8
  · interval_cases a <;> interval_cases k <;> rfl
  · rw [BitVec.getLsbD_of_ge _ _ (by omega), decide_eq_false (by omega)]

theorem test_eq (m : Bitmap) (i : Nat) : m.test i = (m (i / 8)).getLsbD (i % 8) := by
  have hlt : i % 8 < 8 := Nat.mod_lt _ (by decide)
  rw [test, Bool.eq_iff_iff, bne_iff_ne]
  constructor
  · intro hne
    by_contra hbit
    refine hne (BitVec.eq_of_getLsbD_eq fun k hk => ?_)
    rw [BitVec.getLsbD_and, getLsbD_bit hlt, BitVec.getLsbD_zero]
    by_cases hki : k = i % 8
    · rw [hki, eq_false_of_ne_true hbit, Bool.false_and]
    · rw [decide_eq_false hki, Bool.and_false]
  · intro hbit hzero
    have := congrArg (·.getLsbD (i % 8)) hzero
    simp only [BitVec.getLsbD_and, getLsbD_bit hlt, hbit, BitVec.getLsbD_zero] at this
    simp at this

theorem same_bit (h : j / 8 = i / 8) : j % 8 = i % 8 ↔ j = i := by omega

@[simp] theorem test_set : (m.set i).test j = (decide (j = i) || m.test j) := by
  simp only [test_eq, set]
  by_cases hbyte : j / 8 = i / 8
  · rw [if_pos hbyte, BitVec.getLsbD_or, getLsbD_bit (Nat.mod_lt _ (by decide)), Bool.or_comm]
    simp only [same_bit hbyte]
  · rw [if_neg hbyte, decide_eq_false (by omega), Bool.false_or]

@[simp] theorem test_clear : (m.clear i).test j = (!decide (j = i) && m.test j) := by
  simp only [test_eq, clear]
  by_cases hbyte : j / 8 = i / 8
  · have hlt : j % 8 < 8 := Nat.mod_lt _ (by decide)
    rw [if_pos hbyte, BitVec.getLsbD_and, BitVec.getLsbD_not, getLsbD_bit (Nat.mod_lt _ (by decide)),
      decide_eq_true hlt, Bool.true_and, Bool.and_comm]
    simp only [same_bit hbyte]
  · rw [if_neg hbyte, decide_eq_false (by omega), Bool.not_false, Bool.true_and]

def free (m : Bitmap) (n : Nat) : Finset Nat := (Finset.range n).filter fun i => m.test i = false

@[simp] theorem mem_free : j ∈ m.free n ↔ j < n ∧ m.test j = false := by simp [free]

theorem free_set : (m.set i).free n = (m.free n).erase i := by
  ext j
  by_cases hj : j = i <;> simp [hj]

theorem free_clear (hi : i < n) : (m.clear i).free n = insert i (m.free n) := by
  ext j
  by_cases hj : j = i <;> simp [hj, hi]

theorem card_free_set (hi : i < n) (h : m.test i = false) : ((m.set i).free n).card + 1 = (m.free n).card := by
  rw [free_set, Finset.card_erase_add_one (mem_free.mpr ⟨hi, h⟩)]

theorem card_free_clear (hi : i < n) (h : m.test i = true) : ((m.clear i).free n).card = (m.free n).card + 1 := by
  rw [free_clear hi, Finset.card_insert_of_notMem (by simp [h])]

end Bitmap

end Xv6.Lib
