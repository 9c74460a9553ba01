import Xv6.Vm

/-!
# Processes: `proc.c` and `sys_sbrk`

Open files and directories are not part of the state, and neither are the registers of a
sleeping process. A call that would sleep has no result.
-/

open Xv6.Lib

namespace Xv6

variable [Image]

-- Offsets in `struct trapframe`, and its size.
abbrev TF_EPC : Nat := 24
abbrev TF_SP : Nat := 48
abbrev TF_A0 : Nat := 112
abbrev TF_A1 : Nat := 120
abbrev TF_SIZE : Nat := 288

def getProc (i : Nat) : K Proc := Op.gets (·.proc i)

def modifyProc (i : Nat) (f : Proc → Proc) : K Unit := do
  let p ← getProc i
  setProc i (f p)

/-! ## Creating and freeing -/

def allocpid : K Nat := do
  let pid ← Op.gets (·.nextpid)
  Op.update fun s => { s with nextpid := pid + 1 }
  pure pid

def proc_freepagetable (pagetable sz : Nat) : K Unit := do
  uvmunmap pagetable TRAMPOLINE 1 false
  uvmunmap pagetable TRAPFRAME 1 false
  uvmfree pagetable sz

def proc_pagetable_with (kalloc : K (Option Nat)) (i : Nat) : K (Option Nat) := do
  let r ← uvmcreate_with kalloc
  match r with
  | none => pure none
  | some pagetable => do
    let r ← mappages_with kalloc pagetable TRAMPOLINE PGSIZE trampoline (PTE_R ||| PTE_X)
    if r < 0 then do
      uvmfree pagetable 0
      pure none
    else do
      let p ← getProc i
      let r ← mappages_with kalloc pagetable TRAPFRAME PGSIZE p.trapframe (PTE_R ||| PTE_W)
      if r < 0 then do
        uvmunmap pagetable TRAMPOLINE 1 false
        uvmfree pagetable 0
        pure none
      else pure (some pagetable)

def proc_pagetable (i : Nat) : K (Option Nat) := proc_pagetable_with kalloc i

def freeproc (i : Nat) : K Unit := do
  let p ← getProc i
  if p.trapframe ≠ 0 then kfree p.trapframe else pure ()
  modifyProc i fun p => { p with trapframe := 0 }
  if p.pagetable ≠ 0 then proc_freepagetable p.pagetable p.sz else pure ()
  modifyProc i fun p => { p with
    pagetable := 0, sz := 0, pid := 0, parent := none, name := [], killed := false, xstate := 0,
    state := .UNUSED }

-- `kalloc` is called with the lock of the new slot held.
def allocproc_with (kalloc : Nat → K (Option Nat)) : K (Option Nat) := do
  let procs ← Op.gets (·.proc)
  match (List.range NPROC).find? fun i => (procs i).state = .UNUSED with
  | none => pure none
  | some i => do
    let pid ← allocpid
    modifyProc i fun p => { p with pid := pid, state := .USED }
    let r ← kalloc i
    match r with
    | none => do
      modifyProc i fun p => { p with trapframe := 0 }
      freeproc i
      pure none
    | some trapframe => do
      modifyProc i fun p => { p with trapframe := trapframe }
      let r ← proc_pagetable_with (kalloc i) i
      match r with
      | none => do
        modifyProc i fun p => { p with pagetable := 0 }
        freeproc i
        pure none
      | some pagetable => do
        modifyProc i fun p => { p with pagetable := pagetable }
        pure (some i)

def allocproc : K (Option Nat) := allocproc_with fun _ => kalloc

def userinit : K Unit := do
  let r ← allocproc
  match r with
  | none => panic "userinit"
  | some i => do
    Op.update fun s => { s with initproc := some i }
    modifyProc i fun p => { p with state := .RUNNABLE }

/-! ## Memory size -/

def growproc (i : Nat) (n : Int) : K Int := do
  let p ← getProc i
  if n > 0 then
    if p.sz + n.toNat > TRAPFRAME then pure (-1)
    else do
      let sz ← uvmalloc p.pagetable p.sz (p.sz + n.toNat) PTE_W
      if sz = 0 then pure (-1)
      else do
        modifyProc i fun p => { p with sz := sz }
        pure 0
  else if n < 0 then do
    let sz ← uvmdealloc p.pagetable p.sz ((p.sz + n) % 2 ^ 64).toNat
    modifyProc i fun p => { p with sz := sz }
    pure 0
  else pure 0

abbrev SBRK_EAGER : Int := 1

abbrev SBRK_LAZY : Int := 2

-- `n` and `t` are `int` arguments of the system call.
def sys_sbrk (i : Nat) (n t : Int) : K Int := do
  let p ← getProc i
  let addr := p.sz
  if t = SBRK_EAGER ∨ n < 0 then do
    let r ← growproc i n
    if r < 0 then pure (-1) else pure addr
  else if (addr + n.toNat) % 2 ^ 64 < addr then pure (-1)
  else if (addr + n.toNat) % 2 ^ 64 > TRAPFRAME then pure (-1)
  else do
    modifyProc i fun p => { p with sz := (p.sz + n.toNat) % 2 ^ 64 }
    pure addr

/-! ## Fork, exit, wait -/

def kfork_with (kalloc : Nat → K (Option Nat)) (i : Nat) : K Int := do
  let r ← allocproc_with kalloc
  match r with
  | none => pure (-1)
  | some j => do
    let p ← getProc i
    let np ← getProc j
    let r ← uvmcopy_with (kalloc j) p.pagetable np.pagetable p.sz
    if r < 0 then do
      freeproc j
      pure (-1)
    else do
      modifyProc j fun np => { np with sz := p.sz }
      memmove np.trapframe p.trapframe TF_SIZE
      store64 (np.trapframe + TF_A0) 0
      modifyProc j fun np => { np with name := p.name }
      modifyProc j fun np => { np with parent := some i }
      modifyProc j fun np => { np with state := .RUNNABLE }
      pure np.pid

def kfork (i : Nat) : K Int := kfork_with (fun _ => kalloc) i

/-- `kfork` with the locks: that of the new slot `j` is held from `allocproc` on. -/
def kfork_locked (i : Nat) : K Int := kfork_with (fun j => kalloc_locked i [j]) i

def reparent (i : Nat) : K Unit := do
  let init ← Op.gets (·.initproc)
  Op.update fun s => { s with
    proc := fun j =>
      let pp := s.proc j
      if j < NPROC ∧ pp.parent = some i then { pp with parent := init } else pp }

def kexit (i : Nat) (status : Int) : K Unit := do
  let init ← Op.gets (·.initproc)
  if init = some i then panic "init exiting"
  else do
    reparent i
    modifyProc i fun p => { p with xstate := status, state := .ZOMBIE }

def int_bytes (n : Int) : List Byte :=
  (List.range 4).map fun k => (BitVec.ofInt 32 n).extractLsb' (8 * k) 8

/-- One look through the process table for an exited child, as `kwait` takes it between two
sleeps. The result is `none` if it has to sleep. -/
def kwait (i addr : Nat) : K (Option Int) := do
  let procs ← Op.gets (·.proc)
  match (List.range NPROC).find? fun j =>
      (procs j).parent = some i ∧ (procs j).state = .ZOMBIE with
  | some j => do
    let p ← getProc i
    let pp ← getProc j
    let r ← if addr ≠ 0 then copyout i p.pagetable addr (int_bytes pp.xstate) else pure 0
    if r < 0 then pure (some (-1))
    else do
      freeproc j
      pure (some pp.pid)
  | none => do
    let p ← getProc i
    let havekids := (List.range NPROC).any fun j => (procs j).parent = some i
    if !havekids ∨ p.killed then pure (some (-1)) else pure none

def setkilled (i : Nat) : K Unit := modifyProc i fun p => { p with killed := true }

end Xv6
