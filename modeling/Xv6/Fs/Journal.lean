import Xv6.Fs.Log
import Xv6.Lib.Path

/-!
# Processes that use the buffer cache and the log

Any number of processes use buffers and run operations, `begin_op`; `log_write`*; `end_op`, in
any interleaving. A process that commits goes on one disk write at a time, and so does the
recovery after a boot. The machine may crash between any two steps.
-/

open Xv6.Lib

namespace Xv6.Fs

/-! ## The state -/

/-- Where a process is in `commit()`, and then in the end of `end_op`. -/
inductive Stage where
  | enter
  | write_log (tail : Nat)
  | write_head
  | install (tail : Nat)
  | clear
  | leave
  deriving DecidableEq

inductive Phase where
  | outside
  -- Between `begin_op` and `end_op`, with the number of the operation.
  | inOp (op : Nat)
  | committing (st : Stage)
  deriving DecidableEq

inductive Boot where
  | read_head
  | install (tail : Nat)
  | clear
  deriving DecidableEq

/-- Who waits for a buffer that `bget` has found, the pins, and the buffers changed since their last `bwrite` or `log_write`. -/
structure Users where
  waits : List (Nat × Nat) := []
  pins : List Nat := []
  changed : Nat → Bool := fun _ => false

namespace Users

variable (u : Users) (i j : Nat) (c : Bool)

def mark : Users := { u with changed := Function.update u.changed i c }

@[simp] theorem mark_changed : (u.mark i c).changed i = c := Function.update_self ..
theorem mark_changed_of_ne (h : j ≠ i) : (u.mark i c).changed j = u.changed j := Function.update_of_ne h ..

end Users

/-- A finished commit: the blocks that operations had logged, each with the operation, and the
blocks that `write_log` copied. -/
structure Commit where
  logged : List (Nat × Nat)
  copied : List Nat

structure Sys where
  fs : Store
  boot : Option Boot
  phase : Nat → Phase := fun _ => .outside
  users : Users := {}
  -- What the last holder left in the buffer of each block.
  last : Nat → Data
  nextop : Nat := 0
  -- Logged and copied since the last commit.
  logged : List (Nat × Nat) := []
  copied : List Nat := []
  commits : List Commit := []
  -- The transactions whose header reached the disk, with their blocks.
  durable : List (List (Nat × Data)) := []

def bootSys (disk : Nat → Data) (start : Nat) : Sys :=
  { fs := binit disk { start, dev := ROOTDEV }, boot := some .read_head, last := disk }

/-! ## The steps -/

inductive Action where
  | begin_op (p : Nat)
  | log_write (p i : Nat)
  | end_op (p : Nat)
  | commit (p : Nat)
  | bget (p b : Nat)
  | lock (p i : Nat)
  | change (p i : Nat) (d : Data)
  | bwrite (p i : Nat)
  | brelse (p i : Nat)
  | bpin (p i : Nat)
  | bunpin (i : Nat)
  | recover
  | crash

def lift {α : Type} (x : F α) : Op Sys α := fun y =>
  match x y.fs with
  | .ok (a, s) => .ok (a, { y with fs := s })
  | .error e => .error e

def require (c : Sys → Bool) : Op Sys Unit := fun y => if c y then .ok ((), y) else .error "not now"

def setPhase (p : Nat) (ph : Phase) : Op Sys Unit :=
  Op.update fun y => { y with phase := Function.update y.phase p ph }

def setBoot (b : Option Boot) : Op Sys Unit := Op.update fun y => { y with boot := b }

def note (b : Nat) : Op Sys Unit :=
  Op.update fun y => { y with last := Function.update y.last b (y.fs.view b) }

def setChanged (i : Nat) (c : Bool) : Op Sys Unit :=
  Op.update fun y => { y with users := y.users.mark i c }

def commit_step (p : Nat) : Stage → Op Sys Unit
  | .enter => do
    let y ← Op.gets id
    if y.fs.log.lh.length > 0 then setPhase p (.committing (.write_log 0))
    else setPhase p (.committing .leave)
  | .write_log tail => do
    let y ← Op.gets id
    if tail < y.fs.log.lh.length then do
      lift (write_log_body p tail)
      note (y.fs.log.start + tail + 1)
      Op.update fun y' => { y' with copied := y'.copied ++ [y.fs.log.lh.getD tail 0] }
      setPhase p (.committing (.write_log (tail + 1)))
    else setPhase p (.committing .write_head)
  | .write_head => do
    let y ← Op.gets id
    lift (write_head p)
    note y.fs.log.start
    Op.update fun y' => { y' with durable := y'.durable ++ [y.fs.log.lh.map fun b => (b, y.last b)] }
    setPhase p (.committing (.install 0))
  | .install tail => do
    let y ← Op.gets id
    if tail < y.fs.log.lh.length then do
      lift (install_trans_body p false tail)
      setPhase p (.committing (.install (tail + 1)))
    else do
      lift clear_lh
      setPhase p (.committing .clear)
  | .clear => do
    let y ← Op.gets id
    lift (write_head p)
    note y.fs.log.start
    setPhase p (.committing .leave)
  | .leave => do
    lift end_op_last
    Op.update fun y => { y with commits := ⟨y.logged, y.copied⟩ :: y.commits, logged := [], copied := [] }
    setPhase p .outside

def recover_step (p : Nat) : Boot → Op Sys Unit
  | .read_head => do
    lift (read_head p)
    setBoot (some (.install 0))
  | .install tail => do
    let y ← Op.gets id
    if tail < y.fs.log.lh.length then do
      lift (install_trans_body p true tail)
      note (y.fs.log.lh.getD tail 0)
      setBoot (some (.install (tail + 1)))
    else do
      lift clear_lh
      setBoot (some .clear)
  | .clear => do
    let y ← Op.gets id
    lift (write_head p)
    note y.fs.log.start
    setBoot none

def Phase.client : Phase → Bool
  | .committing _ => false
  | _ => true

def Sys.client (y : Sys) (p : Nat) : Bool := y.boot.isNone && (y.phase p).client

def Sys.holds (y : Sys) (p i : Nat) : Bool := y.client p && (y.fs.buf i).lock == some p

def perform : Action → Op Sys Unit
  | .begin_op p => do
    require fun y => y.boot.isNone && y.phase p == .outside
    let up ← lift begin_op_round
    if up then Op.update fun y =>
      { y with phase := Function.update y.phase p (.inOp y.nextop), nextop := y.nextop + 1 }
    else pure ()
  | .log_write p i => do
    require fun y => y.holds p i
    let y ← Op.gets id
    match y.phase p with
    | .inOp op => do
      lift (log_write i)
      setChanged i false
      Op.update fun y' => { y' with logged := y'.logged ++ [(op, (y.fs.buf i).blockno)] }
    | _ => require fun _ => false
  | .end_op p => do
    let y ← Op.gets id
    match y.phase p with
    | .inOp _ => do
      let do_commit ← lift end_op_first
      setPhase p (if do_commit then .committing .enter else .outside)
    | _ => require fun _ => false
  | .commit p => do
    let y ← Op.gets id
    match y.phase p with
    | .committing st => commit_step p st
    | _ => require fun _ => false
  | .bget p b => do
    require fun y => y.client p && decide (b < 2 ^ 32)
    let i ← lift (bget_ref ROOTDEV b)
    Op.update fun y => { y with users := { y.users with waits := (p, i) :: y.users.waits } }
  | .lock p i => do
    require fun y => y.client p && decide ((p, i) ∈ y.users.waits)
    lift (acquiresleep p i)
    lift (bread_disk i)
    Op.update fun y => { y with users := { y.users with waits := y.users.waits.erase (p, i) } }
  | .change p i d => do
    require fun y => y.holds p i
    lift (set_data i d)
    setChanged i true
  | .bwrite p i => do
    require fun y => y.holds p i
    lift (bwrite p i)
    setChanged i false
  | .brelse p i => do
    require fun y => y.holds p i && !y.users.changed i
    let y ← Op.gets id
    note (y.fs.buf i).blockno
    lift (brelse p i)
  | .bpin p i => do
    require fun y => y.holds p i
    lift (bpin i)
    Op.update fun y => { y with users := { y.users with pins := i :: y.users.pins } }
  | .bunpin i => do
    require fun y => y.boot.isNone && decide (i ∈ y.users.pins)
    lift (bunpin i)
    Op.update fun y => { y with users := { y.users with pins := y.users.pins.erase i } }
  | .recover => do
    let y ← Op.gets id
    match y.boot with
    | some st => recover_step 1 st
    | none => require fun _ => false
  | .crash => Op.update fun y =>
    { bootSys y.fs.disk y.fs.log.start with
      nextop := y.nextop, commits := y.commits, durable := y.durable }

end Xv6.Fs
