import Mathlib.Data.List.Basic

/-!
# A list of slots

A slot is overwritten in place, and the slot after the last one makes the list longer.
-/

namespace Xv6.Lib

variable {α : Type} {l l' : List α} {k j : Nat} {a : α}

def putAt (l : List α) (k : Nat) (a : α) : List α := if k < l.length then l.set k a else l ++ [a]

theorem getElem?_putAt (hk : k ≤ l.length) (j : Nat) :
    (putAt l k a)[j]? = if j = k then some a else l[j]? := by
  unfold putAt
  split_ifs with h hj hj
  · rw [hj, List.getElem?_set_self h]
  · rw [List.getElem?_set_ne (Ne.symm hj)]
  · rw [hj, show k = l.length by omega, List.getElem?_concat_length]
  · rw [List.getElem?_append]
    split_ifs with hlt
    · rfl
    · rw [List.getElem?_eq_none (by simp; omega), List.getElem?_eq_none (by omega)]

theorem eq_putAt (hk : k ≤ l.length) (hlen : l'.length = max l.length (k + 1))
    (hself : l'[k]? = some a) (hother : ∀ j < l.length, j ≠ k → l'[j]? = l[j]?) : l' = putAt l k a := by
  apply List.ext_getElem?
  intro j
  rw [getElem?_putAt hk]
  split_ifs with hj
  · rw [hj, hself]
  · by_cases hlt : j < l.length
    · exact hother j hlt hj
    · rw [List.getElem?_eq_none (by omega), List.getElem?_eq_none (by omega)]

theorem findIdx_free {p : α → Bool} (h : l[l.findIdx p]? = some a) : p a = true := by
  obtain ⟨hlt, rfl⟩ := List.getElem?_eq_some_iff.mp h
  exact List.findIdx_getElem (w := hlt)

theorem le_findIdx {p : α → Bool} (h : ∀ j < k, ∃ a, l[j]? = some a ∧ p a = false) : k ≤ l.findIdx p := by
  by_contra hlt
  obtain ⟨a, ha, hp⟩ := h (l.findIdx p) (by omega)
  rw [findIdx_free ha] at hp
  cases hp

end Xv6.Lib
