import Xv6.Lib.Op
import Xv6.Lib.Bytes
import Xv6.Riscv

/-!
# The state of the memory subsystem

What `kalloc.c`, `vm.c`, `swap.c`, `proc.c` and `memstats.c` read and write. Operations run
one at a time, so that spinlocks are left out.
-/

open Xv6.Lib

namespace Xv6

/-- What `kernel.ld` fixes when the kernel is linked. -/
class Image where
  -- The symbol `end`: the first address after the kernel.
  kend : Nat
  -- The page of `trampoline.S`.
  trampoline : Nat
  kernbase_le_kend : KERNBASE ≤ kend
  kend_le_phystop : kend ≤ PHYSTOP
  trampoline_aligned : trampoline % PGSIZE = 0
  trampoline_lt : trampoline < PHYSTOP

export Image (kend trampoline)

inductive ProcState where
  | UNUSED | USED | SLEEPING | RUNNABLE | RUNNING | ZOMBIE
  deriving DecidableEq, Repr

/-- The fields of `struct proc` that the memory code uses. A null pointer is 0, and `parent` is
the parent's slot in the process table. -/
structure Proc where
  state : ProcState := .UNUSED
  killed : Bool := false
  xstate : Int := 0
  pid : Nat := 0
  parent : Option Nat := none
  sz : Nat := 0
  pagetable : Nat := 0
  trapframe : Nat := 0
  name : List Byte := []

structure MemStats where
  cow_faults : Nat := 0
  cow_pages_shared : Nat := 0
  swap_outs : Nat := 0
  swap_ins : Nat := 0
  swap_blocks_used : Nat := 0
  page_faults : Nat := 0
  load_faults : Nat := 0
  store_faults : Nat := 0
  lazy_alloc_faults : Nat := 0
  pages_allocated : Nat := 0
  pages_freed : Nat := 0
  current_pages : Nat := 0

structure Swap where
  inuse : Nat → Byte := fun _ => 0
  nfree : Nat := 0

/-- One `memmove` to or from the `data` array of a buffer: its bytes `0` to `len`. -/
structure BufAccess where
  blockno : Nat
  len : Nat
  deriving DecidableEq

structure Kernel where
  mem : Mem
  -- `kmem.freelist`, the most recently freed page first.
  freelist : List Nat
  -- `refcount.count`.
  count : Nat → Int
  stats : MemStats
  swap : Swap
  -- The bytes of each disk block.
  disk : Nat → Mem
  -- Where the buffer cache keeps the `data` array of the buffer of a block, and the kernel
  -- data around these arrays.
  bufdata : Nat → Nat
  bmem : Mem
  -- The copies to and from buffers so far, the last one first.
  accesses : List BufAccess
  -- How many calls of `kalloc` have returned 0.
  kalloc_failures : Nat
  proc : Nat → Proc
  nextpid : Nat
  initproc : Option Nat

/-- A kernel function: it runs on the state, and may panic. -/
abbrev K (α : Type) := Op Kernel α

def panic {α : Type} (msg : String) : K α := Op.stop msg

@[simp] theorem panic_ok {α : Type} {s s' : Kernel} {a : α} (msg : String) :
    (panic msg : K α) s = .ok (a, s') ↔ False := Op.stop_ok msg

/-! ## Memory -/

def load64 (a : Nat) : K (BitVec 64) := Op.gets fun s => s.mem.load64 a

def store64 (a : Nat) (w : BitVec 64) : K Unit :=
  Op.update fun s => { s with mem := s.mem.store64 a w }

def memset (a : Nat) (c : Byte) (n : Nat) : K Unit :=
  Op.update fun s => { s with mem := s.mem.fill a n c }

def memmove (dst src n : Nat) : K Unit :=
  Op.update fun s => { s with mem := s.mem.copy dst src n }

/-! ## The process table -/

def setProc (i : Nat) (p : Proc) : K Unit :=
  Op.update fun s => { s with proc := fun j => if j = i then p else s.proc j }

/-! ## Statistics -/

def bump (f : MemStats → MemStats) : K Unit := Op.update fun s => { s with stats := f s.stats }

def memstats_inc_cow_fault : K Unit := bump fun m => { m with cow_faults := m.cow_faults + 1 }

def memstats_inc_cow_shared : K Unit :=
  bump fun m => { m with cow_pages_shared := m.cow_pages_shared + 1 }

def memstats_inc_swap_out : K Unit :=
  bump fun m => { m with
    swap_outs := m.swap_outs + 1, swap_blocks_used := m.swap_blocks_used + 1 }

def memstats_inc_swap_in : K Unit :=
  bump fun m => { m with
    swap_ins := m.swap_ins + 1
    swap_blocks_used :=
      if m.swap_blocks_used > 0 then m.swap_blocks_used - 1 else m.swap_blocks_used }

def memstats_inc_page_fault (is_load : Bool) : K Unit :=
  bump fun m =>
    let m := { m with page_faults := m.page_faults + 1 }
    if is_load then { m with load_faults := m.load_faults + 1 }
    else { m with store_faults := m.store_faults + 1 }

def memstats_inc_lazy_alloc : K Unit :=
  bump fun m => { m with lazy_alloc_faults := m.lazy_alloc_faults + 1 }

def memstats_inc_pages_allocated : K Unit :=
  bump fun m => { m with
    pages_allocated := m.pages_allocated + 1, current_pages := m.current_pages + 1 }

def memstats_inc_pages_freed : K Unit :=
  bump fun m => { m with
    pages_freed := m.pages_freed + 1
    current_pages := if m.current_pages > 0 then m.current_pages - 1 else m.current_pages }

end Xv6
