import Xv6.Exec

/-!
# Traps from user space: `usertrap`

The control registers are arguments, and so is the system call. What `prepare_return` sets up
for the next trap is left out.
-/

open Xv6.Lib

namespace Xv6

variable [Image]

def devintr (scause : Nat) : Nat :=
  if scause = 0x8000000000000009 then 1 else if scause = 0x8000000000000005 then 2 else 0

def killed (i : Nat) : K Bool := Op.gets fun s => (s.proc i).killed

def fault_pte (pagetable va : Nat) : K Pte := do
  let pte ← walk pagetable va false
  match pte with
  | none => pure 0
  | some pte => load64 pte

def swapped_fault (i va : Nat) : K Unit := do
  memstats_inc_swap_in
  let p ← getProc i
  let r ← swapin p.pagetable va
  if r = 0 then setkilled i else pure ()

def cow_store_fault (i va : Nat) : K Unit := do
  memstats_inc_cow_fault
  let p ← getProc i
  let r ← cowfault p.pagetable va
  if r ≠ 0 then setkilled i else pure ()

-- The last two branches: they differ in `setkilled`.
def lazy_fault (i va : Nat) : K Unit := do
  let p ← getProc i
  let r ← vmfault i p.pagetable va
  memstats_inc_lazy_alloc
  if r ≠ 0 then setkilled i else pure ()

/-- `scause` 15, up to the count of page faults. A null entry pointer and an entry of 0 take the
same branch. -/
def store_handler (i va : Nat) : K Unit := do
  let p ← getProc i
  let e ← fault_pte p.pagetable va
  if has e PTE_SWAPPED then swapped_fault i va
  else if has e PTE_V ∧ has e PTE_COW then cow_store_fault i va
  else lazy_fault i va

/-- `scause` 13, up to the count of page faults. -/
def load_handler (i va : Nat) : K Unit := do
  let p ← getProc i
  let e ← fault_pte p.pagetable va
  if has e PTE_SWAPPED then swapped_fault i va else lazy_fault i va

def store_fault (i va : Nat) : K Unit := do
  store_handler i va
  memstats_inc_page_fault false

def load_fault (i va : Nat) : K Unit := do
  load_handler i va
  memstats_inc_page_fault true

def trap_dispatch (syscall : K Unit) (i scause stval sepc : Nat) : K Unit := do
  let p ← getProc i
  store64 (p.trapframe + TF_EPC) (BitVec.ofNat 64 sepc)
  if scause = 8 then do
    let k ← killed i
    if k then kexit i (-1)
    else do
      store64 (p.trapframe + TF_EPC) (BitVec.ofNat 64 (sepc + 4))
      syscall
  else if devintr scause ≠ 0 then pure ()
  else if scause = 15 then store_fault i stval
  else if scause = 13 then load_fault i stval
  else setkilled i

abbrev SATP_SV39 : Nat := 8 * 2 ^ 60

/-- The page table to return to user space with, or `none` if the process exits. -/
def usertrap (syscall : K Unit) (i scause stval sepc : Nat) : K (Option Nat) := do
  trap_dispatch syscall i scause stval sepc
  let k ← killed i
  if k then do
    kexit i (-1)
    pure none
  else do
    let p ← getProc i
    pure (some (SATP_SV39 + p.pagetable / PGSIZE))

end Xv6
