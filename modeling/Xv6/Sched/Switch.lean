import Mathlib.Data.List.Chain
import Mathlib.Logic.Function.Basic
import Xv6.Lib.Op
import Xv6.Lib.Path
import Xv6.Sched.Table

/-!
# Processors: `scheduler`, `sched`, `yield`, `sleep` and `wakeup` of `proc.c`

A stack is a list of frames, and a step takes the frame on top to the next acquire or release of a lock, or across
`swtch`. While a processor holds no lock an interrupt may put other code on top.
-/

open Xv6.Lib

namespace Xv6.Switch

open Sched (Procstate)

inductive Lock where
  | proc (p : Nat)
  | spin (n : Nat)
  deriving DecidableEq

def WAIT : Nat := 0

/-- What is done to a slot of the process table between `acquire(&p->lock)` and `release(&p->lock)`. -/
inductive Visit where
  | wakeup (chan : Nat)
  | kkill (pid : Int)
  -- `allocproc` of `kfork`, the end of `kfork`, and `freeproc` of `kwait`.
  | allocproc (pid : Int)
  | ready
  | freeproc
  deriving DecidableEq

inductive Frame where
  -- User code, system calls and interrupt handlers: whatever calls the functions below.
  | code
  -- A loop over the process table at `q`, before and after `acquire(&q->lock)`.
  | visit (v : Visit) (q : Nat) (held : Bool)
  | yield | yieldSet | yieldBack
  | sleep (chan lk : Nat) | sleepLocked (chan lk : Nat) | sleepFree (chan lk : Nat)
  | sleepBack (lk : Nat) | sleepRelock (lk : Nat)
  | kexit | kexitWake | kexitLock | kexitSet | kexitBack
  | sched
  | forkret
  -- The scheduler, with `swtch` between `switch` and `back`.
  | top | look (i : Nat) (held : Bool) | switch (i : Nat) | back (i : Nat)
  deriving DecidableEq

structure Proc where
  state : Procstate
  chan : Option Nat
  killed : Bool
  pid : Int
  context : List Frame
  -- On the side: whether `context` is up to date, and the calls of `sleep`, the last one first.
  saved : Bool
  calls : List (Nat × Nat)

structure Cpu where
  proc : Option Nat
  context : List Frame
  -- The locks it holds. `noff` is their number.
  held : List Lock
  -- The stack it runs on, and the process that stack belongs to.
  stack : List Frame
  on : Option Nat

structure State where
  cpu : Nat → Cpu
  proc : Nat → Proc
  lock : Lock → Option Nat

abbrev M (α : Type) := Op State α

/-! ## Locks -/

def State.setCpu (s : State) (c : Nat) (K : Cpu) : State := { s with cpu := Function.update s.cpu c K }

def State.setProc (s : State) (p : Nat) (x : Proc) : State := { s with proc := Function.update s.proc p x }

def State.setLock (s : State) (l : Lock) (o : Option Nat) : State := { s with lock := Function.update s.lock l o }

def State.goto (s : State) (c : Nat) (stack : List Frame) : State := s.setCpu c { s.cpu c with stack := stack }

def goto (c : Nat) (stack : List Frame) : M Unit := Op.update fun s => s.goto c stack

def proc (p : Nat) : M Proc := Op.gets fun s => s.proc p

def setProc (p : Nat) (x : Proc) : M Unit := Op.update fun s => s.setProc p x

def State.acquired (s : State) (c : Nat) (l : Lock) : State :=
  (s.setLock l (some c)).setCpu c { s.cpu c with held := l :: (s.cpu c).held }

def State.released (s : State) (c : Nat) (l : Lock) : State :=
  (s.setLock l none).setCpu c { s.cpu c with held := (s.cpu c).held.erase l }

def acquire (c : Nat) (l : Lock) : M Unit := do
  let o ← Op.gets fun s => s.lock l
  if o = some c then Op.stop "acquire"
  else if o = none then Op.update fun s => s.acquired c l
  else Op.stop "the lock is held"

def release (c : Nat) (l : Lock) : M Unit := do
  let o ← Op.gets fun s => s.lock l
  if o = some c then Op.update fun s => s.released c l else Op.stop "release"

/-! ## The functions -/

namespace Visit

def edit : Visit → Proc → Proc
  | .wakeup chan, x => if x.state = .sleeping ∧ x.chan = some chan then { x with state := .runnable } else x
  | .kkill pid, x =>
    if x.pid = pid then { x with killed := true, state := if x.state = .sleeping then .runnable else x.state } else x
  | .allocproc pid, x =>
    if x.state = .unused then { x with state := .used, pid := pid, context := [.forkret, .code] } else x
  -- The slot is the one that `allocproc` found.
  | .ready, x => if x.state = .used then { x with state := .runnable } else x
  | .freeproc, x =>
    if x.state = .zombie then { x with state := .unused, chan := none, killed := false, pid := 0 } else x

def stops : Visit → Proc → Bool
  | .wakeup _, _ => false
  | .kkill pid, x => x.pid = pid
  | .allocproc _, x => x.state = .unused
  | .ready, _ | .freeproc, _ => true

-- `wakeup` leaves out `myproc()`.
def skips : Visit → Bool
  | .wakeup _ => true
  | _ => false

end Visit

def myproc (c : Nat) : M Nat := do
  let K ← Op.gets fun s => s.cpu c
  match K.proc with
  | none => Op.stop "no process"
  | some p => pure p

-- `swtch(&p->context, &mycpu()->context)`.
def State.leave (s : State) (c p : Nat) (rest : List Frame) : State :=
  (s.setProc p { s.proc p with context := rest, saved := true }).setCpu c
    { s.cpu c with stack := (s.cpu c).context, on := none }

def sched (c : Nat) (rest : List Frame) : M Unit := do
  let p ← myproc c
  let s ← Op.gets id
  if s.lock (.proc p) ≠ some c then Op.stop "sched p->lock"
  else if (s.cpu c).held.length ≠ 1 then Op.stop "sched locks"
  else if (s.proc p).state = .running then Op.stop "sched RUNNING"
  else Op.update fun s => s.leave c p rest

-- `swtch(&c->context, &p->context)`.
def State.enter (s : State) (c i : Nat) (rest : List Frame) : State :=
  (s.setProc i { s.proc i with saved := false }).setCpu c
    { s.cpu c with context := .back i :: rest, stack := (s.proc i).context, on := some i }

def step (c : Nat) : Frame → List Frame → M Unit
  | .code, _ => Op.stop "any code"
  | .visit v q false, rest => do
    let K ← Op.gets fun s => s.cpu c
    if Sched.NPROC ≤ q then goto c rest
    else if v.skips = true ∧ K.proc = some q then goto c (.visit v (q + 1) false :: rest)
    else do
      acquire c (.proc q)
      goto c (.visit v q true :: rest)
  | .visit v q true, rest => do
    let x ← proc q
    setProc q (v.edit x)
    release c (.proc q)
    goto c (if v.stops x then rest else .visit v (q + 1) false :: rest)
  | .yield, rest => do
    let p ← myproc c
    acquire c (.proc p)
    goto c (.yieldSet :: rest)
  | .yieldSet, rest => do
    let p ← myproc c
    let x ← proc p
    setProc p { x with state := .runnable }
    goto c (.sched :: .yieldBack :: rest)
  | .yieldBack, rest => do
    let p ← myproc c
    release c (.proc p)
    goto c rest
  | .sleep chan lk, rest => do
    let p ← myproc c
    acquire c (.proc p)
    goto c (.sleepLocked chan lk :: rest)
  | .sleepLocked chan lk, rest => do
    release c (.spin lk)
    goto c (.sleepFree chan lk :: rest)
  | .sleepFree chan lk, rest => do
    let p ← myproc c
    let x ← proc p
    setProc p { x with chan := some chan, state := .sleeping }
    goto c (.sched :: .sleepBack lk :: rest)
  | .sleepBack lk, rest => do
    let p ← myproc c
    let x ← proc p
    setProc p { x with chan := none }
    release c (.proc p)
    goto c (.sleepRelock lk :: rest)
  | .sleepRelock lk, rest => do
    acquire c (.spin lk)
    goto c rest
  | .kexit, rest => do
    acquire c (.spin WAIT)
    goto c (.kexitWake :: rest)
  -- After `reparent(p)` and `wakeup(p->parent)`.
  | .kexitWake, rest => goto c (.kexitLock :: rest)
  | .kexitLock, rest => do
    let p ← myproc c
    acquire c (.proc p)
    goto c (.kexitSet :: rest)
  | .kexitSet, rest => do
    let p ← myproc c
    let x ← proc p
    setProc p { x with state := .zombie }
    release c (.spin WAIT)
    goto c (.sched :: .kexitBack :: rest)
  | .kexitBack, _ => Op.stop "zombie exit"
  | .sched, rest => sched c rest
  | .forkret, rest => do
    let p ← myproc c
    release c (.proc p)
    goto c rest
  | .top, rest => goto c (.look 0 false :: rest)
  | .look i false, rest =>
    if Sched.NPROC ≤ i then goto c (.top :: rest)
    else do
      acquire c (.proc i)
      goto c (.look i true :: rest)
  | .look i true, rest => do
    let x ← proc i
    if x.state = .runnable then do
      setProc i { x with state := .running }
      Op.update fun s => s.setCpu c { s.cpu c with proc := some i }
      goto c (.switch i :: rest)
    else do
      release c (.proc i)
      goto c (.look (i + 1) false :: rest)
  | .switch i, rest => Op.update fun s => s.enter c i rest
  | .back i, rest => do
    Op.update fun s => s.setCpu c { s.cpu c with proc := none }
    release c (.proc i)
    goto c (.look (i + 1) false :: rest)

/-! ## Runs -/

inductive Call where
  | acquire (lk : Nat)
  | release (lk : Nat)
  | yield
  | sleep (chan lk : Nat)
  | wakeup (chan : Nat)
  | kkill (pid : Int)
  | kexit
  | allocproc (pid : Int)
  | ready (np : Nat)
  | freeproc (pp : Nat)

def call (c : Nat) (rest : List Frame) : Call → M Unit
  | .acquire lk => do
    acquire c (.spin lk)
    goto c (.code :: rest)
  | .release lk => do
    release c (.spin lk)
    goto c (.code :: rest)
  | .yield => do
    let _ ← myproc c
    goto c (.yield :: .code :: rest)
  | .sleep chan lk => do
    let p ← myproc c
    let s ← Op.gets id
    if s.lock (.spin lk) = some c then do
      setProc p { s.proc p with calls := (chan, lk) :: (s.proc p).calls }
      goto c (.sleep chan lk :: .code :: rest)
    else Op.stop "sleep without the lock"
  | .wakeup chan => goto c (.visit (.wakeup chan) 0 false :: .code :: rest)
  | .kkill pid => goto c (.visit (.kkill pid) 0 false :: .code :: rest)
  | .kexit => do
    let _ ← myproc c
    goto c (.kexit :: .code :: rest)
  | .allocproc pid => goto c (.visit (.allocproc pid) 0 false :: .code :: rest)
  | .ready np => goto c (.visit .ready np false :: .code :: rest)
  | .freeproc pp => goto c (.visit .freeproc pp false :: .code :: rest)

inductive Act where
  | step (c : Nat)
  | call (c : Nat) (f : Call)
  -- `wakeup` in `kexit`.
  | exitWakeup (c chan : Nat)
  | interrupt (c : Nat)
  | interruptReturn (c : Nat)

def Frame.interruptible : Frame → Bool
  | .look .. | .switch _ | .back _ | .sleep .. => false
  | _ => true

def run : Act → M Unit
  | .step c => do
    let K ← Op.gets fun s => s.cpu c
    match K.stack with
    | f :: rest => step c f rest
    | [] => Op.stop "no frame"
  | .call c f => do
    let K ← Op.gets fun s => s.cpu c
    match K.stack with
    | .code :: rest => call c rest f
    | _ => Op.stop "not in code"
  | .exitWakeup c chan => do
    let K ← Op.gets fun s => s.cpu c
    match K.stack with
    | .kexitWake :: rest => goto c (.visit (.wakeup chan) 0 false :: .kexitWake :: rest)
    | _ => Op.stop "not in kexit"
  | .interrupt c => do
    let K ← Op.gets fun s => s.cpu c
    match K.stack with
    | f :: rest =>
      if K.held = [] ∧ f.interruptible = true then goto c (.code :: f :: rest) else Op.stop "interrupts are off"
    | [] => Op.stop "no frame"
  | .interruptReturn c => do
    let K ← Op.gets fun s => s.cpu c
    match K.stack with
    | .code :: g :: rest => if K.held = [] then goto c (g :: rest) else Op.stop "interrupts are off"
    | _ => Op.stop "not in a handler"

def start (pids : Nat → Option Int) : State where
  cpu := fun _ => ⟨none, [], [], [.top], none⟩
  proc := fun p =>
    { state := if (pids p).isSome then .runnable else .unused
      chan := none
      killed := false
      pid := (pids p).getD 0
      context := [.forkret, .code]
      saved := true
      calls := [] }
  lock := fun _ => none

end Xv6.Switch
