import Mathlib.Data.List.Basic
import Mathlib.Data.Nat.ModEq

/-!
# A ring of slots

What was sent and not yet received stands in `N` slots, the `k`th item in the slot `k % N`. The counters of the
two sides are the lengths of what was sent and of what was received, modulo a multiple of `N`.
-/

namespace Xv6.Lib

variable {α : Type} {N : Nat} {slot : Nat → α} {sent got : List α} {a : α} {k m : Nat}

structure Ring (N : Nat) (slot : Nat → α) (sent got : List α) : Prop where
  took : got <+: sent
  room : sent.length ≤ got.length + N
  held : ∀ k, got.length ≤ k → k < sent.length → sent[k]? = some (slot (k % N))

theorem slot_ne (h : k < m) (hm : m < k + N) : k % N ≠ m % N := by
  intro he
  have hdvd : N ∣ m - k := (Nat.modEq_iff_dvd' h.le).mp he
  have := Nat.le_of_dvd (by omega) hdvd
  omega

namespace Ring

theorem nil (slot : Nat → α) : Ring N slot [] [] := ⟨List.prefix_refl _, by simp, by simp⟩

theorem le (h : Ring N slot sent got) : got.length ≤ sent.length := h.took.length_le

theorem sent_eq (h : Ring N slot sent got) :
    sent = got ++ (List.range (sent.length - got.length)).map fun k => slot ((got.length + k) % N) := by
  obtain ⟨rest, rfl⟩ := h.took
  congr 1
  apply List.ext_getElem
  · simp
  · intro k hk _
    have := h.held (got.length + k) (by omega) (by simpa using hk)
    rw [List.getElem?_append_right (by omega), Nat.add_sub_cancel_left, List.getElem?_eq_getElem hk] at this
    simpa using this

theorem rest_cons (h : Ring N slot sent got) (hlt : got.length < sent.length) :
    sent.drop got.length = slot (got.length % N) :: sent.drop (got.length + 1) := by
  rw [List.drop_eq_getElem_cons hlt]
  congr 1
  have hnext := h.held got.length (Nat.le_refl _) hlt
  rwa [List.getElem?_eq_getElem hlt, Option.some.injEq] at hnext

theorem write (h : Ring N slot sent got) (hroom : sent.length < got.length + N) :
    Ring N (Function.update slot (sent.length % N) a) sent got := by
  refine ⟨h.took, h.room, fun k h1 h2 => ?_⟩
  rw [Function.update_of_ne (slot_ne h2 (by omega))]
  exact h.held k h1 h2

theorem put (h : Ring N slot sent got) (hroom : sent.length < got.length + N) (hslot : slot (sent.length % N) = a) :
    Ring N slot (sent ++ [a]) got := by
  refine ⟨h.took.trans (List.prefix_append ..), by simp; omega, fun k h1 h2 => ?_⟩
  by_cases hk : k = sent.length
  · rw [hk, hslot, List.getElem?_concat_length]
  · have hlt : k < sent.length := by
      rw [List.length_append, List.length_singleton] at h2
      omega
    rw [List.getElem?_append_left hlt]
    exact h.held k h1 hlt

theorem push (h : Ring N slot sent got) (hroom : sent.length < got.length + N) :
    Ring N (Function.update slot (sent.length % N) a) (sent ++ [a]) got := by
  have hw := h.write (a := a) hroom
  exact hw.put hroom (Function.update_self ..)

theorem unput (h : Ring N slot (sent ++ [a]) got) (hle : got.length ≤ sent.length) : Ring N slot sent got := by
  refine ⟨List.prefix_of_prefix_length_le h.took (List.prefix_append ..) hle, ?_, fun k h1 h2 => ?_⟩
  · have := h.room
    rw [List.length_append] at this
    omega
  · have := h.held k h1 (by rw [List.length_append]; omega)
    rwa [List.getElem?_append_left h2] at this

theorem pop (h : Ring N slot sent got) (hlt : got.length < sent.length) :
    Ring N slot sent (got ++ [slot (got.length % N)]) := by
  have hnext := h.held got.length (Nat.le_refl _) hlt
  refine ⟨?_, by simp; have := h.room; omega, fun k h1 h2 => h.held k ?_ h2⟩
  · obtain ⟨rest, rfl⟩ := h.took
    cases rest with
    | nil => simp at hlt
    | cons b rest =>
      rw [List.getElem?_append_right (Nat.le_refl _), Nat.sub_self, List.getElem?_cons_zero] at hnext
      rw [← Option.some.inj hnext]
      exact ⟨rest, by simp⟩
  · rw [List.length_append] at h1
    omega

end Ring

end Xv6.Lib
