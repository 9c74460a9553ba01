import Mathlib.Data.List.Chain
import Mathlib.Data.List.Nodup

/-!
# Rings of links

A ring goes along `next` from its head through a list of elements and back, and along `prev` the other way round.
-/

namespace Xv6.Lib

structure Links (α : Type) where
  next : α → α
  prev : α → α

namespace Links

section chains
variable {α : Type} {k : Links α} {h : α} {l : List α}

def Step (k : Links α) (a b : α) : Prop := k.next a = b ∧ k.prev b = a

/-- The ring from the head `h` through the elements of `l`. -/
structure Ring (k : Links α) (h : α) (l : List α) : Prop where
  nodup : (h :: l).Nodup
  chain : (h :: (l ++ [h])).IsChain k.Step

theorem Ring.flip (hr : Ring k h l) : Ring ⟨k.prev, k.next⟩ h l.reverse := by
  refine ⟨by simpa using hr.nodup, ?_⟩
  have hrev : h :: (l.reverse ++ [h]) = (h :: (l ++ [h])).reverse := by simp
  rw [hrev, List.isChain_reverse]
  exact hr.chain.imp fun _ _ hab => ⟨hab.2, hab.1⟩

end chains

variable {α : Type} [DecidableEq α] {k : Links α} {h a b c x y : α} {l : List α} {p : α → Bool} {n : Nat}

/-- The first element for which `p` holds, from `b` on. There is no result if the head is not reached in `n` steps. -/
def search (next : α → α) (h : α) (p : α → Bool) : Nat → α → Option (Option α)
  | 0, _ => none
  | n + 1, b => if b = h then some none else if p b then some (some b) else search next h p n (next b)

def setNext (k : Links α) (a b : α) : Links α := { k with next := Function.update k.next a b }

def setPrev (k : Links α) (a b : α) : Links α := { k with prev := Function.update k.prev a b }

def push (k : Links α) (h b : α) : Links α :=
  let k := (k.setNext b (k.next h)).setPrev b h
  let k := k.setPrev (k.next h) b
  k.setNext h b

def unlink (k : Links α) (b : α) : Links α :=
  let k := k.setPrev (k.next b) (k.prev b)
  k.setNext (k.prev b) (k.next b)

theorem search_of_chain (hc : (a :: (l ++ [h])).IsChain k.Step) (hh : h ∉ l) (hn : l.length < n) :
    search k.next h p n (k.next a) = some (l.find? p) := by
  induction l generalizing a n with
  | nil =>
    obtain ⟨n, rfl⟩ := Nat.exists_eq_succ_of_ne_zero (by omega : n ≠ 0)
    rw [search, if_pos (List.isChain_pair.mp hc).1]
    rfl
  | cons b l ih =>
    obtain ⟨n, rfl⟩ := Nat.exists_eq_succ_of_ne_zero (by omega : n ≠ 0)
    obtain ⟨hab, hc⟩ := List.isChain_cons_cons.mp hc
    have hbh : b ≠ h := fun he => hh (List.mem_cons.mpr (.inl he.symm))
    rw [hab.1, search, if_neg hbh, List.find?_cons]
    split_ifs with hp
    · rw [hp]
    · rw [Bool.not_eq_true] at hp
      rw [hp, ih hc (fun hm => hh (List.mem_cons_of_mem _ hm)) (by simpa using hn)]

theorem Ring.search (hr : Ring k h l) (hn : l.length < n) :
    search k.next h p n (k.next h) = some (l.find? p) :=
  search_of_chain hr.chain (List.nodup_cons.mp hr.nodup).1 hn

theorem Ring.search_prev (hr : Ring k h l) (hn : l.length < n) :
    Links.search k.prev h p n (k.prev h) = some (l.reverse.find? p) :=
  hr.flip.search (by simpa using hn)

theorem push_step (hbh : b ≠ h) (hs : k.Step x y) (hx : x ≠ b) (hy : y ≠ b) (hn : y ≠ k.next h) :
    (k.push h b).Step x y := by
  have hxh : x ≠ h := fun he => hn (he ▸ hs.1.symm)
  simpa [push, setNext, setPrev, Step, Function.update_of_ne, hbh.symm, hx, hy, hn, hxh] using hs

theorem Ring.push (hr : Ring k h l) (hb : b ∉ h :: l) : Ring (k.push h b) h (b :: l) := by
  have hnd := hr.nodup
  have hc := hr.chain
  refine ⟨by grind, ?_⟩
  obtain ⟨c, m, hm⟩ : ∃ c m, l ++ [h] = c :: m := List.exists_cons_of_ne_nil (by simp)
  have hcm : (c :: m).Nodup ∧ b ∉ c :: m := by rw [← hm]; grind
  rw [List.cons_append, hm]
  rw [hm] at hc
  obtain ⟨hhc, hc⟩ := List.isChain_cons_cons.mp hc
  have hnext : k.next h = c := hhc.1
  have hbh : b ≠ h := by grind
  have hbc : b ≠ c := by grind
  refine List.isChain_cons_cons.mpr ⟨?_, List.isChain_cons_cons.mpr ⟨?_, ?_⟩⟩
  · simp [Links.push, setNext, setPrev, Step, Function.update_of_ne, hbh.symm, hbc, hnext]
  · simp [Links.push, setNext, setPrev, Step, Function.update_of_ne, hbh.symm, hbh, hnext]
  · exact hc.imp_of_mem_tail_imp fun x y hx hy hs =>
      push_step hbh hs (by grind) (by grind) (by rw [hnext]; grind)

theorem unlink_step (hab : k.Step a b) (hbc : k.Step b c) (hs : k.Step x y) (hx : x ≠ b) (hy : y ≠ b)
    (hcb : c ≠ b) : (k.unlink b).Step x y := by
  have hxa : x ≠ a := fun he => hy (hs.1.symm.trans (he ▸ hab.1))
  have hyc : y ≠ c := fun he => hx (hs.2.symm.trans (he ▸ hbc.2))
  simpa [unlink, setNext, setPrev, Step, Function.update_of_ne, hab.2, hbc.1, hcb.symm, hxa, hyc] using hs

theorem Ring.unlink (hr : Ring k h l) (hb : b ∈ l) : Ring (k.unlink b) h (l.erase b) := by
  obtain ⟨l₁, l₂, rfl⟩ := List.append_of_mem hb
  have hnd := hr.nodup
  have hc := hr.chain
  obtain ⟨m₁, a, ha⟩ : ∃ m a, h :: l₁ = m ++ [a] :=
    ⟨_, _, (List.dropLast_append_getLast (List.cons_ne_nil h l₁)).symm⟩
  obtain ⟨c, m₂, hm⟩ : ∃ c m, l₂ ++ [h] = c :: m := List.exists_cons_of_ne_nil (by simp)
  have hb₁ : b ∉ m₁ ++ [a] := by rw [← ha]; grind
  have hb₂ : b ∉ c :: m₂ := by rw [← hm]; grind
  have he : (l₁ ++ b :: l₂).erase b = l₁ ++ l₂ := by
    rw [List.erase_append_right _ (by grind), List.erase_cons_head]
  have hold : h :: (l₁ ++ b :: l₂ ++ [h]) = m₁ ++ a :: b :: c :: m₂ := by
    rw [List.append_assoc, List.cons_append, hm, ← List.cons_append, ha]; simp
  have hnew : h :: (l₁ ++ l₂ ++ [h]) = m₁ ++ a :: c :: m₂ := by
    rw [List.append_assoc, hm, ← List.cons_append, ha]; simp
  rw [he]
  rw [hold] at hc
  obtain ⟨hc₁, hab, hc⟩ := List.isChain_append_cons_cons.mp hc
  obtain ⟨hbc, hc₂⟩ := List.isChain_cons_cons.mp hc
  have hcb : c ≠ b := by grind
  refine ⟨by grind, ?_⟩
  rw [hnew]
  refine List.isChain_append_cons_cons.mpr ⟨?_, ?_, ?_⟩
  · exact hc₁.imp_of_mem_imp fun x y hx hy hs => unlink_step hab hbc hs (by grind) (by grind) hcb
  · simp [Links.unlink, setNext, setPrev, Step, Function.update_of_ne, hab.2, hbc.1, hcb.symm]
  · exact hc₂.imp_of_mem_imp fun x y hx hy hs => unlink_step hab hbc hs (by grind) (by grind) hcb

end Links

end Xv6.Lib
