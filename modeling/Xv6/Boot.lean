import Xv6.Kalloc

/-! # The boot of the page allocator

`freerange` sets the count of each page to 0, and `kfree` takes one reference away from a page before it looks at it. So
`krefdec` panics on the first page.
-/

open Xv6.Lib Op

namespace Xv6

theorem pageindex_run {pa : Nat} (h : KERNBASE ≤ pa) (h' : pa < PHYSTOP) (s : Kernel) :
    pageindex pa s = .ok ((pa - KERNBASE) / PGSIZE, s) := by
  unfold pageindex
  rw [if_neg (by omega)]
  rfl

theorem krefdec_zero {pa : Nat} (ha : pa % PGSIZE = 0) (h : KERNBASE ≤ pa) (h' : pa < PHYSTOP)
    {s : Kernel} (h0 : s.count ((pa - KERNBASE) / PGSIZE) = 0) :
    krefdec pa s = .error "krefdec: refcount <= 0" := by
  unfold krefdec
  rw [if_neg (by omega), run_bind (pageindex_run h h' s), run_bind (run_gets _), h0]
  rfl

variable [Image]

theorem kfree_zero {pa : Nat} (ha : pa % PGSIZE = 0) (h : kend ≤ pa) (h' : pa < PHYSTOP)
    {s : Kernel} (h0 : s.count ((pa - KERNBASE) / PGSIZE) = 0) :
    kfree pa s = .error "krefdec: refcount <= 0" := by
  have hk := Image.kernbase_le_kend
  unfold kfree
  rw [if_neg (by omega)]
  exact run_bind_error (krefdec_zero ha (by omega) h' h0)

theorem freerange_loop_panics {p : Nat} (n : Nat) (ha : p % PGSIZE = 0) (h : kend ≤ p)
    (h' : p < PHYSTOP) (s : Kernel) :
    freerange_loop (n + 1) p s = .error "krefdec: refcount <= 0" := by
  have hk := Image.kernbase_le_kend
  unfold freerange_loop setcount
  rw [run_bind (pageindex_run (by omega) h' s), run_bind (run_update _)]
  exact run_bind_error (kfree_zero ha h h' (by simp))

/-- `kinit` returns, and every page that fits above the kernel is on the freelist once, with
count 0. -/
def Seeds (s : Kernel) : Prop :=
  ∃ s', kinit s = .ok ((), s') ∧
    ∀ pa, pa % PGSIZE = 0 → PGROUNDUP kend ≤ pa → pa + PGSIZE ≤ PHYSTOP →
      s'.freelist.count pa = 1 ∧ s'.count ((pa - KERNBASE) / PGSIZE) = 0

theorem PGROUNDUP_kend : PGROUNDUP kend = (kend + 4095) / 4096 * 4096 := by
  have hk := Image.kend_le_phystop
  exact PGROUNDUP_eq (by simp only [PHYSTOP, KERNBASE, MAXVA] at *; omega)

theorem kinit_stops (h : kend + PGSIZE ≤ PHYSTOP) (s : Kernel) :
    kinit s = .error "krefdec: refcount <= 0" := by
  have hlo := Image.kernbase_le_kend
  have hup := PGROUNDUP_kend
  simp only [PHYSTOP, KERNBASE, PGSIZE] at *
  obtain ⟨n, hn⟩ : ∃ n, (0x88000000 - PGROUNDUP kend) / 4096 = n + 1 :=
    ⟨(0x88000000 - PGROUNDUP kend) / 4096 - 1, by omega⟩
  unfold kinit freerange
  rw [run_bind (run_update _)]
  simp only [PHYSTOP, KERNBASE, PGSIZE, Nat.reduceMul, Nat.reduceAdd, hn]
  exact freerange_loop_panics n (by simp only [PGSIZE]; omega) (by omega)
    (by simp only [PHYSTOP, KERNBASE]; omega) _

/-- The allocator boots exactly when there is no page to put on the freelist. -/
theorem kinit_seeds_iff (s : Kernel) : Seeds s ↔ PHYSTOP < kend + PGSIZE := by
  have hhi := Image.kend_le_phystop
  have hup := PGROUNDUP_kend
  constructor
  · rintro ⟨s', hrun, -⟩
    by_contra hfit
    rw [kinit_stops (by omega)] at hrun
    cases hrun
  · intro hno
    simp only [PHYSTOP, KERNBASE, PGSIZE] at *
    have hn : (0x88000000 - PGROUNDUP kend) / 4096 = 0 := by omega
    refine ⟨{ s with count := fun _ => 0 }, ?_, ?_⟩
    · unfold kinit freerange
      rw [run_bind (run_update _)]
      simp only [PHYSTOP, KERNBASE, PGSIZE, Nat.reduceMul, Nat.reduceAdd, hn]
      rfl
    · intro pa _ hlow hhigh
      simp only [PHYSTOP, KERNBASE, PGSIZE] at hhigh
      omega

omit [Image]

/-! ## A kernel of 264 KiB below 128 MiB of memory -/

abbrev bootImage : Image :=
  { kend := 0x80042000, trampoline := 0x80007000, kernbase_le_kend := by decide,
    kend_le_phystop := by decide, trampoline_aligned := by decide, trampoline_lt := by decide }

def zeroKernel : Kernel :=
  { mem := fun _ => 0, freelist := [], count := fun _ => 0, stats := {}, swap := {},
    disk := fun _ _ => 0, bufdata := fun _ => 0, bmem := fun _ => 0, accesses := [],
    kalloc_failures := 0, proc := fun _ => {}, nextpid := 1, initproc := none }

theorem kinit_panics : ¬ @Seeds bootImage zeroKernel := by
  rintro ⟨s', hrun, -⟩
  rw [@kinit_stops bootImage (by decide)] at hrun
  cases hrun

end Xv6
