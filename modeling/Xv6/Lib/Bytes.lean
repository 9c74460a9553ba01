import Mathlib.Data.BitVec
import Mathlib.Data.List.GetD
import Mathlib.Tactic.IntervalCases

/-!
# Memory as bytes

A memory gives each address a byte. Words are eight bytes, the lowest byte first.
-/

namespace Xv6.Lib

abbrev Byte := BitVec 8

abbrev Mem := Nat → Byte

namespace Mem

def load64 (m : Mem) (a : Nat) : BitVec 64 :=
  m (a + 7) ++ m (a + 6) ++ m (a + 5) ++ m (a + 4) ++ m (a + 3) ++ m (a + 2) ++ m (a + 1) ++ m a

def store64 (m : Mem) (a : Nat) (w : BitVec 64) : Mem := fun x =>
  if a ≤ x ∧ x < a + 8 then w.extractLsb' (8 * (x - a)) 8 else m x

def fill (m : Mem) (a n : Nat) (b : Byte) : Mem := fun x =>
  if a ≤ x ∧ x < a + n then b else m x

/-- The `n` bytes from `src` on, moved to `dst`. The two ranges may overlap. -/
def copy (m : Mem) (dst src n : Nat) : Mem := fun x =>
  if dst ≤ x ∧ x < dst + n then m (src + (x - dst)) else m x

def blit (m : Mem) (a : Nat) (bs : List Byte) : Mem := fun x =>
  if a ≤ x ∧ x < a + bs.length then bs.getD (x - a) 0 else m x

def slice (m : Mem) (a n : Nat) : List Byte := (List.range n).map fun k => m (a + k)

variable {m m' : Mem} {a b x : Nat} {w : BitVec 64}

/-! ## Words -/

theorem load64_bit (m : Mem) (a i : Nat) (hi : i < 64) :
    (load64 m a).getLsbD i = (m (a + i / 8)).getLsbD (i % 8) := by
  simp only [load64, BitVec.getLsbD_append]
  interval_cases i <;> simp

theorem load64_congr (h : ∀ k < 8, m' (a + k) = m (a + k)) : load64 m' a = load64 m a := by
  have h0 := h 0 (by omega)
  simp only [Nat.add_zero] at h0
  simp only [load64, h0, h 1 (by omega), h 2 (by omega), h 3 (by omega), h 4 (by omega),
    h 5 (by omega), h 6 (by omega), h 7 (by omega)]

@[simp] theorem load64_store64 (m : Mem) (a : Nat) (w : BitVec 64) :
    load64 (store64 m a w) a = w := by
  apply BitVec.eq_of_getLsbD_eq
  intro i hi
  have hin : a ≤ a + i / 8 ∧ a + i / 8 < a + 8 := by omega
  rw [load64_bit _ _ _ hi, store64, if_pos hin, BitVec.getLsbD_extractLsb']
  have h8 : i % 8 < 8 := by omega
  have hidx : 8 * (a + i / 8 - a) + i % 8 = i := by omega
  rw [hidx]
  simp [h8]

theorem load64_store64_of_disjoint (h : a + 8 ≤ b ∨ b + 8 ≤ a) :
    load64 (store64 m a w) b = load64 m b := by
  apply load64_congr
  intro k hk
  rw [store64, if_neg (by omega)]

theorem store64_of_outside (h : x < a ∨ a + 8 ≤ x) : store64 m a w x = m x := by
  rw [store64, if_neg (by omega)]

/-! ## Ranges -/

theorem fill_of_outside {n : Nat} {c : Byte} (h : x < a ∨ a + n ≤ x) : fill m a n c x = m x := by
  rw [fill, if_neg (by omega)]

theorem fill_inside {n : Nat} {c : Byte} (h : a ≤ x) (h' : x < a + n) : fill m a n c x = c := by
  rw [fill, if_pos ⟨h, h'⟩]

theorem copy_of_outside {src n : Nat} (h : x < a ∨ a + n ≤ x) : copy m a src n x = m x := by
  rw [copy, if_neg (by omega)]

theorem blit_of_outside {bs : List Byte} (h : x < a ∨ a + bs.length ≤ x) : blit m a bs x = m x := by
  rw [blit, if_neg (by omega)]

theorem blit_append (bs bs' : List Byte) : blit (blit m a bs) (a + bs.length) bs' = blit m a (bs ++ bs') := by
  funext x
  simp only [blit, List.length_append]
  by_cases hlo : a ≤ x ∧ x < a + bs.length
  · rw [if_neg (by omega), if_pos hlo, if_pos (by omega), List.getD_append _ _ _ _ (by omega)]
  by_cases hhi : a + bs.length ≤ x ∧ x < a + bs.length + bs'.length
  · rw [if_pos hhi, if_pos (by omega), List.getD_append_right _ _ _ _ (by omega), Nat.sub_sub]
  · rw [if_neg hhi, if_neg hlo, if_neg (by omega)]

theorem slice_congr {n : Nat} (h : ∀ k < n, m' (a + k) = m (a + k)) : m'.slice a n = m.slice a n :=
  List.map_congr_left fun k hk => h k (List.mem_range.mp hk)

theorem slice_slice {k n n' : Nat} (h : k + n ≤ n') : m.slice (a + k) n = ((m.slice a n').drop k).take n := by
  refine List.ext_getElem (by simp [slice]; omega) fun j hj _ => ?_
  simp [slice, Nat.add_assoc]

theorem slice_blit {bs : List Byte} {k n : Nat} (h : k + n ≤ bs.length) :
    (m.blit a bs).slice (a + k) n = (bs.drop k).take n := by
  refine List.ext_getElem (by simp [slice]; omega) fun j hj _ => ?_
  simp only [slice, List.length_map, List.length_range] at hj
  simp only [slice, blit, List.getElem_map, List.getElem_range, List.getElem_take, List.getElem_drop]
  rw [if_pos (by omega), List.getD_eq_getElem _ _ (by omega)]
  congr 1
  omega

theorem load64_of_slice (h : m.slice a 8 = (List.range 8).map fun k => w.extractLsb' (8 * k) 8) : m.load64 a = w := by
  rw [← load64_store64 m a w]
  refine load64_congr fun k hk => ?_
  have hk' := List.map_inj_left.mp h k (List.mem_range.mpr hk)
  rw [hk', store64, if_pos (by omega), Nat.add_sub_cancel_left]

theorem load64_fill_zero {n : Nat} (h : a ≤ b) (h' : b + 8 ≤ a + n) :
    load64 (fill m a n 0) b = 0 := by
  let zero : Mem := fun _ => 0
  have hb : ∀ k < 8, fill m a n 0 (b + k) = zero (b + k) := by
    intro k hk
    exact fill_inside (by omega) (by omega)
  rw [load64_congr hb]
  simp only [load64, zero]
  decide

end Mem

end Xv6.Lib
