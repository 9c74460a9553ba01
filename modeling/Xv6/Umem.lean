import Xv6.Access

/-!
# The memory that a tree gives the user

The leaves of a tree take an address to a byte of physical memory. Where the page has one reference, a write to the page
is the same write to this memory.
-/

open Xv6.Lib Xv6.Lib.Radix

namespace Xv6

def umem (m : Mem) (r : Nat) : Mem := fun x => m (PTE2PA (pte m r (x / PGSIZE)) + x % PGSIZE)

variable [Image] {n₀ : Nat} {L : Prop} {s s' t : Kernel} {T H : Finset Nat} {r v x a P : Nat} {bs bs' : List Byte}

def Maps (m : Mem) (r x : Nat) : Prop := x / PGSIZE < UPAGES ∧ has (pte m r (x / PGSIZE)) PTE_V = true

def Puts (T : Finset Nat) (r a : Nat) (bs : List Byte) (m m' : Mem) : Prop :=
  Off T m m' ∧ ∀ x, Maps m r x → umem m' r x = (umem m r).blit a bs x

namespace Puts

omit [Image]

theorem maps (h : Puts T r a bs s.mem t.mem) (hr : r ∈ T) : Maps t.mem r x ↔ Maps s.mem r x := by
  rw [Maps, Maps, h.1.pte hr]

theorem nil (m : Mem) : Puts T r a [] m m := ⟨.refl m, fun x _ => (Mem.blit_of_outside (by simp; omega)).symm⟩

theorem append (h : Puts T r a bs s.mem t.mem) (h' : Puts T r (a + bs.length) bs' t.mem s'.mem) (hr : r ∈ T) :
    Puts T r a (bs ++ bs') s.mem s'.mem := by
  refine ⟨h.1.trans h'.1, fun x hx => ?_⟩
  rw [h'.2 x ((h.maps hr).mpr hx), ← Mem.blit_append]
  simp only [Mem.blit, h.2 x hx]

theorem slice (h : Puts T r a bs s.mem t.mem) (hx : ∀ x, a ≤ x → x < a + bs.length → Maps s.mem r x) :
    (umem t.mem r).slice a bs.length = bs := by
  rw [Mem.slice_congr fun k hk => h.2 (a + k) (hx _ (by omega) (by omega))]
  have hback := Mem.slice_blit (m := umem s.mem r) (a := a) (show 0 + bs.length ≤ bs.length by omega)
  rwa [Nat.add_zero, List.drop_zero, List.take_length] at hback

theorem outside (h : Puts T r a bs s.mem t.mem) (hx : Maps s.mem r x) (hout : x < a ∨ a + bs.length ≤ x) :
    umem t.mem r x = umem s.mem r x := (h.2 x hx).trans (Mem.blit_of_outside hout)

end Puts

omit [Image] in
theorem Lone.umem {q : Nat} {A : Set Nat} (h : Lone T H r A s t) (hq : q ∈ T) (hx : Maps t.mem q x)
    (hno : q = r → x / PGSIZE ∉ A) (h1 : ∀ P, points (pte s.mem q (x / PGSIZE)) = some P → refs s P = 1) :
    umem t.mem q x = umem s.mem q x := by
  have he := h.valid q hq _ hx.1 hno hx.2
  have hp := points_some hx.2
  have hi := h.mapped q hq _ hx.1 hno _ hp
  rw [he] at hp hi
  rw [Xv6.umem, he]
  exact (hi (h1 _ hp)).2 _ (Nat.mod_lt x (by decide))

theorem Inv.puts {off : Nat} (h : Inv n₀ L s T H) (hr : r ∈ T) (hv : v < UPAGES) (hp : points (pte s.mem r v) = some P)
    (h1 : refs s P = 1) (hlen : off + bs.length ≤ PGSIZE) (hm : t.mem = s.mem.blit (P + off) bs)
    (ho : Off T s.mem t.mem) : Puts T r (v * PGSIZE + off) bs s.mem t.mem := by
  refine ⟨ho, ?_⟩
  rintro x ⟨hu, hV⟩
  have hx := Nat.div_add_mod' x PGSIZE
  have hmod := Nat.mod_lt x (show PGSIZE > 0 by decide)
  rw [umem, ho.pte hr, hm]
  by_cases hxv : x / PGSIZE = v
  · have hP : PTE2PA (pte s.mem r v) = P := (valid_of_points hp).2
    rw [hxv] at hx
    simp only [umem, Mem.blit, hxv, hP]
    by_cases hin : off ≤ x % PGSIZE ∧ x % PGSIZE < off + bs.length
    · rw [if_pos (by omega), if_pos (by omega)]
      congr 1
      omega
    · rw [if_neg (by omega), if_neg (by omega)]
  · -- Another leaf has another page.
    have hQ := points_some hV
    have hne : PTE2PA (pte s.mem r (x / PGSIZE)) ≠ P := by
      intro he
      have hy := h.only_leaf hr hv hp h1.le (x := .leaf r (x / PGSIZE)) (by rw [goal_leaf hr hu, hQ, he])
      exact hxv (Ref.leaf.inj hy).2
    rw [(OnPage.blit hlen).bytes (h.page_leaf hr hu hQ) (h.page_leaf hr hv hp) hne hmod, Mem.blit_of_outside]
    · rfl
    · rcases Nat.lt_or_gt_of_ne hxv with hlt | hgt
      · have := Nat.mul_le_mul_right PGSIZE (Nat.succ_le_of_lt hlt)
        rw [Nat.succ_mul] at this
        omega
      · have := Nat.mul_le_mul_right PGSIZE (Nat.succ_le_of_lt hgt)
        rw [Nat.succ_mul] at this
        omega

end Xv6
