import Xv6.State

/-!
# Physical pages: `kalloc.c`

The reference counts, `kfree` and the boot of the allocator. `kalloc` is in `Swap.lean`: when
the freelist is empty it first swaps a page out.
-/

open Xv6.Lib

namespace Xv6

variable [Image]

def pageindex (pa : Nat) : K Nat :=
  if pa < KERNBASE ∨ pa ≥ PHYSTOP then panic "pageindex: invalid pa"
  else pure ((pa - KERNBASE) / PGSIZE)

def setcount (i : Nat) (n : Int) : K Unit :=
  Op.update fun s => { s with count := fun j => if j = i then n else s.count j }

def krefinc (pa : Nat) : K Unit :=
  if pa % PGSIZE ≠ 0 ∨ pa < KERNBASE ∨ pa ≥ PHYSTOP then panic "krefinc: invalid pa"
  else do
    let i ← pageindex pa
    let n ← Op.gets (·.count i)
    setcount i (n + 1)

def krefdec (pa : Nat) : K Int :=
  if pa % PGSIZE ≠ 0 ∨ pa < KERNBASE ∨ pa ≥ PHYSTOP then panic "krefdec: invalid pa"
  else do
    let i ← pageindex pa
    let n ← Op.gets (·.count i)
    if n ≤ 0 then panic "krefdec: refcount <= 0"
    else do
      setcount i (n - 1)
      pure (n - 1)

-- `r->next = kmem.freelist; kmem.freelist = r`.
def pushfree (pa : Nat) : K Unit := Op.update fun s => { s with freelist := pa :: s.freelist }

-- `r = kmem.freelist; if(r) kmem.freelist = r->next`.
def popfree : K (Option Nat) := do
  let l ← Op.gets (·.freelist)
  match l with
  | [] => pure none
  | r :: rest => do
    Op.update fun s => { s with freelist := rest }
    pure (some r)

def kfree (pa : Nat) : K Unit :=
  if pa % PGSIZE ≠ 0 ∨ pa < kend ∨ pa ≥ PHYSTOP then panic "kfree"
  else do
    let count ← krefdec pa
    if count > 0 then pure ()
    else do
      memstats_inc_pages_freed
      memset pa 1 PGSIZE
      pushfree pa

def freerange_loop : Nat → Nat → K Unit
  | 0, _ => pure ()
  | n + 1, p => do
    let i ← pageindex p
    setcount i 0
    kfree p
    freerange_loop n (p + PGSIZE)

/-- `p + PGSIZE <= pa_end` holds for as many pages as fit above the rounded start. -/
def freerange (pa_start pa_end : Nat) : K Unit :=
  freerange_loop ((pa_end - PGROUNDUP pa_start) / PGSIZE) (PGROUNDUP pa_start)

def kinit : K Unit := do
  Op.update fun s => { s with count := fun _ => 0 }
  freerange kend PHYSTOP

end Xv6
