import Xv6.Frame
import Xv6.Reachable

/-!
# Where the bytes of a page are

A page is in memory or on disk. `swapout` and `swapin` move whole pages through a buffer whose
`data` array has `BSIZE` bytes, a quarter of a page.
-/

open Xv6.Lib Xv6.Lib.Radix

namespace Xv6

/-! ## The contents of an address space -/

/-- The byte that `swapin` would bring back for the entry `e`. A block has `BSIZE` bytes of the page,
and the rest comes from behind the buffer of the block. -/
def saved_byte (s : Kernel) (e : Pte) (off : Nat) : Byte :=
  let blockno := swapblock_to_diskblock (pte_to_swapblock e)
  if off < BSIZE then s.disk blockno off else s.bmem (s.bufdata blockno + off)

def leaf_byte (s : Kernel) (e : Pte) (off : Nat) : Option Byte :=
  if has e PTE_V then
    if has e PTE_U then some (s.mem (PTE2PA e + off)) else none
  else if has e PTE_SWAPPED then some (saved_byte s e off)
  else some 0

/-- What the process of slot `k` has at `va`, wherever the page is. A page without `PTE_U` has
nothing for it. -/
def logical (s : Kernel) (k va : Nat) : Option Byte :=
  leaf_byte s (pte s.mem (s.proc k).pagetable (va / PGSIZE)) (va % PGSIZE)

section leaf

variable {s s' : Kernel} {e e' : Pte} {off : Nat} {b : Byte}

theorem leaf_byte_user (hV : has e PTE_V = true) (hU : has e PTE_U = true) :
    leaf_byte s e off = some (s.mem (PTE2PA e + off)) := by simp [leaf_byte, hV, hU]

theorem leaf_byte_swapped (hV : has e PTE_V = false) (hS : has e PTE_SWAPPED = true) :
    leaf_byte s e off = some (saved_byte s e off) := by simp [leaf_byte, hV, hS]

theorem leaf_byte_absent (h : present e = false) : leaf_byte s e off = some 0 := by
  obtain ⟨hV, hS⟩ := present_false.mp h
  simp [leaf_byte, hV, hS]

theorem user_of_leaf_byte (hV : has e PTE_V = true) (h : leaf_byte s e off = some b) :
    has e PTE_U = true := by
  by_contra hU
  simp [leaf_byte, hV, hU] at h

theorem saved_byte_congr (hd : s'.disk = s.disk) (hb : s'.bmem = s.bmem) (ha : s'.bufdata = s.bufdata) :
    saved_byte s' e off = saved_byte s e off := by simp only [saved_byte, hd, hb, ha]

end leaf

/-! ## Through the buffer -/

variable [Image] {n₀ : Nat} {L : Prop} {s s' : Kernel} {T H : Finset Nat} {r va : Nat}

/-- No copy between `s` and `s'` goes over the end of the `data` array of its buffer. -/
def InBuffer (s s' : Kernel) : Prop :=
  ∀ new, s'.accesses = new ++ s.accesses → ∀ a ∈ new, a.len ≤ BSIZE

theorem swapout_overruns (hrun : swapout r va s = .ok (0, s')) : ¬ InBuffer s s' := by
  intro hb
  rcases swapout_ok hrun with ⟨h, -⟩ | ⟨-, -, q, k, -, -, -, -, t, ht, rfl⟩
  · cases h
  · have hl : t.accesses = ⟨swapblock_to_diskblock k, PGSIZE⟩ :: s.accesses := by rw [ht]; rfl
    obtain ⟨new, hnew⟩ := (freed_later (PTE2PA (pte s.mem r (va / PGSIZE))) t).accesses
    have : PGSIZE ≤ BSIZE := hb (new ++ [⟨swapblock_to_diskblock k, PGSIZE⟩]) (by simp [← hnew, hl])
      ⟨swapblock_to_diskblock k, PGSIZE⟩ (by simp)
    exact absurd this (by decide)

theorem swapin_overruns {pa : Nat} (hrun : swapin r va s = .ok (pa, s')) (hpa : pa ≠ 0) :
    ¬ InBuffer s s' := by
  intro hb
  obtain ⟨-, ⟨rfl, -⟩ | ⟨-, ⟨rfl, -⟩ | ⟨q, a, t, u, -, -, halloc, hu, rfl⟩⟩⟩ := swapin_ok hrun
  · exact hpa rfl
  · exact hpa rfl
  · obtain ⟨new, hnew⟩ := (kalloc_later s _ t halloc).accesses
    have : PGSIZE ≤ BSIZE := hb (⟨_, PGSIZE⟩ :: new) (by rw [hu, List.cons_append, hnew]; rfl) _
      List.mem_cons_self
    exact absurd this (by decide)

/-! ## Sequences of calls -/

inductive SwapCall where
  | swapout (pagetable va : Nat)
  | swapin (pagetable va : Nat)

def page_bytes (s : Kernel) (pagetable va : Nat) : List Byte :=
  s.mem.slice (PTE2PA (pte s.mem pagetable (va / PGSIZE))) PGSIZE

/-- Each successful call stays inside its buffer, and each `swapin` brings back the bytes that
`saved` has for its page, which are those of the last `swapout`. -/
def Survives (saved : Nat → Nat → Option (List Byte)) : List SwapCall → Kernel → Prop
  | [], _ => True
  | .swapout pagetable va :: calls, s => ∀ res s', swapout pagetable va s = .ok (res, s') →
      (res = 0 → InBuffer s s') ∧
      Survives (fun r v => if res = 0 ∧ r = pagetable ∧ v = va / PGSIZE then
        some (page_bytes s pagetable va) else saved r v) calls s'
  | .swapin pagetable va :: calls, s => ∀ pa s', swapin pagetable va s = .ok (pa, s') →
      (pa ≠ 0 → InBuffer s s' ∧ ∀ bs, saved pagetable (va / PGSIZE) = some bs → s'.mem.slice pa PGSIZE = bs) ∧
      Survives (fun r v => if pa ≠ 0 ∧ r = pagetable ∧ v = va / PGSIZE then none else saved r v) calls s'

def Idle : List SwapCall → Kernel → Prop
  | [], _ => True
  | .swapout pagetable va :: calls, s => ∀ res s', swapout pagetable va s = .ok (res, s') →
      res ≠ 0 ∧ Idle calls s'
  | .swapin pagetable va :: calls, s => ∀ pa s', swapin pagetable va s = .ok (pa, s') →
      pa = 0 ∧ Idle calls s'

/-- A sequence of calls keeps to its buffers and brings back the bytes if and only if it does
nothing. -/
theorem survives_iff_idle (saved : Nat → Nat → Option (List Byte)) (calls : List SwapCall) (s : Kernel) :
    Survives saved calls s ↔ Idle calls s := by
  induction calls generalizing saved s with
  | nil => exact Iff.rfl
  | cons c calls ih =>
    cases c with
    | swapout pagetable va =>
      constructor
      · intro h res s' hrun
        obtain ⟨hb, hrest⟩ := h res s' hrun
        refine ⟨?_, (ih _ _).mp hrest⟩
        rintro rfl
        exact swapout_overruns hrun (hb rfl)
      · intro h res s' hrun
        obtain ⟨hne, hrest⟩ := h res s' hrun
        exact ⟨fun h0 => absurd h0 hne, (ih _ _).mpr hrest⟩
    | swapin pagetable va =>
      constructor
      · intro h pa s' hrun
        obtain ⟨hb, hrest⟩ := h pa s' hrun
        refine ⟨?_, (ih _ _).mp hrest⟩
        by_contra hne
        exact swapin_overruns hrun hne (hb hne).1
      · intro h pa s' hrun
        obtain ⟨h0, hrest⟩ := h pa s' hrun
        exact ⟨fun hne => absurd h0 hne, (ih _ _).mpr hrest⟩

def twoPages : List Action :=
  [.userinit, .schedule 0 .RUNNING, .call 0 (.sbrk (2 * PGSIZE) SBRK_EAGER), .call 0 (.store 2000 7)]

omit [Image] in
theorem swap_loses_bytes : ∃ y s₁ s₂ pa s₃ r, @run smallImage twoPages bootSystem = some y ∧
    r = (y.kernel.proc 0).pagetable ∧ @swapout smallImage r 0 y.kernel = .ok (0, s₁) ∧
    @swapout smallImage r PGSIZE s₁ = .ok (0, s₂) ∧ @swapin smallImage r 0 s₂ = .ok (pa, s₃) ∧ pa ≠ 0 ∧
    (page_bytes y.kernel r 0).getD 2000 0 = 7 ∧ (s₃.mem.slice pa PGSIZE).getD 2000 0 = 0 ∧
    ¬ @Survives smallImage (fun _ _ => none) [.swapout r 0, .swapout r PGSIZE, .swapin r 0] y.kernel := by
  have heval : ((@run smallImage twoPages bootSystem).bind fun y =>
      (@swapout smallImage (y.kernel.proc 0).pagetable 0 y.kernel).toOption.bind fun x₁ =>
      (@swapout smallImage (y.kernel.proc 0).pagetable PGSIZE x₁.2).toOption.bind fun x₂ =>
      (@swapin smallImage (y.kernel.proc 0).pagetable 0 x₂.2).toOption.map fun x₃ => decide
        (x₁.1 = 0 ∧ x₂.1 = 0 ∧ x₃.1 ≠ 0 ∧
          (page_bytes y.kernel (y.kernel.proc 0).pagetable 0).getD 2000 0 = 7 ∧
          (x₃.2.mem.slice x₃.1 PGSIZE).getD 2000 0 = 0)) = some true := by decide +kernel
  obtain ⟨y, hy, heval⟩ := Option.bind_eq_some_iff.mp heval
  obtain ⟨⟨_, s₁⟩, h₁, heval⟩ := Option.bind_eq_some_iff.mp heval
  obtain ⟨⟨_, s₂⟩, h₂, heval⟩ := Option.bind_eq_some_iff.mp heval
  obtain ⟨⟨pa, s₃⟩, h₃, hval⟩ := Option.map_eq_some_iff.mp heval
  rw [toOption_eq_some] at h₁ h₂ h₃
  obtain ⟨rfl, rfl, hpa, hold, hnew⟩ := of_decide_eq_true hval
  refine ⟨y, s₁, s₂, pa, s₃, _, hy, rfl, h₁, h₂, h₃, hpa, hold, hnew, fun hs => ?_⟩
  exact @swapout_overruns smallImage _ _ _ _ h₁ ((hs 0 s₁ h₁).1 rfl)

end Xv6
