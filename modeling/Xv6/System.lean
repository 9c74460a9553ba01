import Xv6.Trap
import Mathlib.Data.Finset.Basic

/-!
# The memory subsystem at work

Processes run and trap into the kernel one after the other, in any order. The rest of the kernel
takes pages for its own use: kernel stacks, pipes, the arguments of `exec`.
-/

open Xv6.Lib

namespace Xv6

variable [Image]

/-! ## User memory -/

def user_store (pagetable va : Nat) (b : Byte) : K Bool :=
  if va ≥ MAXVA then pure false
  else do
    let e ← fault_pte pagetable va
    if has e PTE_V ∧ has e PTE_U ∧ has e PTE_W then do
      blit (PTE2PA e + va % PGSIZE) [b]
      pure true
    else pure false

/-! ## Steps -/

inductive Call where
  | store (va : Nat) (b : Byte)
  | trap (scause stval sepc : Nat)
  | vmfault (va : Nat)
  | cowfault (va : Nat)
  | swapin (va : Nat)
  | swapout (va : Nat)
  | copyout (dstva : Nat) (src : List Byte)
  | copyin (srcva len : Nat)
  | copyinstr (srcva max : Nat)
  | sbrk (n t : Int)
  | fork
  | exec (path : List Byte) (file : Option (List Byte)) (argv : List (List Byte))
  | exit (status : Int)
  | wait (addr : Nat)

def perform (i : Nat) (c : Call) : K Unit := do
  let p ← getProc i
  match c with
  | .store va b => let _ ← user_store p.pagetable va b
  | .trap scause stval sepc => let _ ← usertrap (pure ()) i scause stval sepc
  | .vmfault va => let _ ← vmfault i p.pagetable va
  | .cowfault va => let _ ← cowfault p.pagetable va
  | .swapin va => let _ ← swapin p.pagetable va
  | .swapout va => let _ ← swapout p.pagetable va
  | .copyout dstva src => let _ ← copyout i p.pagetable dstva src
  | .copyin srcva len => let _ ← copyin i p.pagetable srcva len
  | .copyinstr srcva max => let _ ← copyinstr p.pagetable srcva max
  | .sbrk n t => let _ ← sys_sbrk i n t
  | .fork => let _ ← kfork i
  | .exec path file argv => let _ ← kexec i path file argv
  | .exit status => kexit i status
  | .wait addr => let _ ← kwait i addr

inductive Action where
  | call (i : Nat) (c : Call)
  | userinit
  -- The scheduler, `sleep` and `wakeup`.
  | schedule (i : Nat) (st : ProcState)
  | kill (i : Nat)
  -- A page for another part of the kernel, bytes in it, and its return.
  | alloc
  | write (p off : Nat) (bs : List Byte)
  | free (p : Nat)

structure System where
  kernel : Kernel
  -- The pages that other parts of the kernel have.
  client : Finset Nat

def ProcState.scheduled (st : ProcState) : Bool := st = .RUNNABLE ∨ st = .RUNNING ∨ st = .SLEEPING

def System.lift {α : Type} (y : System) (x : K α) (client : α → Finset Nat) : Option System :=
  match x y.kernel with
  | .ok (a, s) => some ⟨s, client a⟩
  | .error _ => none

def step (y : System) : Action → Option System
  | .call i c =>
    if i < NPROC ∧ (y.kernel.proc i).state = .RUNNING then y.lift (perform i c) fun _ => y.client else none
  | .userinit => y.lift userinit fun _ => y.client
  | .schedule i st =>
    if i < NPROC ∧ (y.kernel.proc i).state.scheduled ∧ st.scheduled then
      y.lift (modifyProc i fun p => { p with state := st }) fun _ => y.client
    else none
  | .kill i => if i < NPROC then y.lift (setkilled i) fun _ => y.client else none
  | .alloc => y.lift kalloc fun r => r.elim y.client fun p => insert p y.client
  | .write p off bs =>
    if p ∈ y.client ∧ off + bs.length ≤ PGSIZE then y.lift (blit (p + off) bs) fun _ => y.client
    else none
  | .free p => if p ∈ y.client then y.lift (kfree p) fun _ => y.client.erase p else none

def run (acts : List Action) (y : System) : Option System := acts.foldlM step y

end Xv6
