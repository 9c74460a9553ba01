import Xv6.Files.Inode
import Xv6.Lib.Path

/-!
# The inode table with many threads: `fs.c`

A step of a thread is a section under `itable.lock`, a section under the lock of a buffer, or an access to the fields of
an inode whose sleep-lock the thread holds. Inodes on disk are as the buffer cache shows them.
-/

open Xv6.Lib

namespace Xv6.Inodes

open Xv6.Files (Dinode FileType NDIRECT NINDIRECT MAXFILE NINODE short)

/-! ## Block addresses -/

/-- What happens elsewhere while one block is read or written: the block that `balloc` gives for an address in the inode,
the address found or put into the indirect block, and whether the bytes can be copied. -/
structure Round where
  balloc : Nat
  entry : Nat
  copied : Bool

-- `ip->addrs[k]`, allocated if it is not there.
def bmap_addr (e : Round) (k : Nat) : Op Dinode Nat := do
  let n ← Op.gets id
  if n.addrs k = 0 then
    if e.balloc = 0 then pure 0
    else do
      Op.update fun n => { n with addrs := Function.update n.addrs k e.balloc }
      pure e.balloc
  else pure (n.addrs k)

def bmap (e : Round) (bn : Nat) : Op Dinode Nat :=
  if bn < NDIRECT then bmap_addr e bn
  else if bn - NDIRECT < NINDIRECT then do
    let b ← bmap_addr e NDIRECT
    if b = 0 then pure 0 else pure e.entry
  else Op.stop "bmap: out of range"

-- `k` is at least the number of bytes left.
def readi_loop (e : Nat → Round) : Nat → Nat → Nat → Op Dinode Unit
  | 0, _, _ => pure ()
  | k + 1, off, left =>
    if left = 0 then pure ()
    else do
      let addr ← bmap (e (off / BSIZE)) (off / BSIZE)
      if addr = 0 then pure ()
      else
        let m := min left (BSIZE - off % BSIZE)
        if (e (off / BSIZE)).copied = true then readi_loop e k (off + m) (left - m) else pure ()

-- `off` and `n` are `uint`.
def readi (e : Nat → Round) (off n : Nat) : Op Dinode Unit := do
  let node ← Op.gets id
  if off > node.size ∨ (off + n) % 2 ^ 32 < off then pure ()
  else
    let n := if off + n > node.size then node.size - off else n
    readi_loop e n off n

def writei_loop (e : Nat → Round) : Nat → Nat → Nat → Op Dinode Nat
  | 0, off, _ => pure off
  | k + 1, off, left =>
    if left = 0 then pure off
    else do
      let addr ← bmap (e (off / BSIZE)) (off / BSIZE)
      if addr = 0 then pure off
      else
        let m := min left (BSIZE - off % BSIZE)
        if (e (off / BSIZE)).copied = true then writei_loop e k (off + m) (left - m) else pure off

def writei (e : Nat → Round) (off n : Nat) : Op Dinode Bool := do
  let node ← Op.gets id
  if off > node.size ∨ (off + n) % 2 ^ 32 < off then pure false
  else if off + n > MAXFILE * BSIZE then pure false
  else do
    let off ← writei_loop e n off n
    Op.update fun node => if off > node.size then { node with size := off } else node
    pure true

def itrunc (n : Dinode) : Dinode := { n with addrs := fun k => if k ≤ NDIRECT then 0 else n.addrs k, size := 0 }

/-- What system calls do to an inode before they call `iupdate`. -/
inductive Edit where
  -- `sys_link`, and `create` for the parent of a directory.
  | link
  -- `sys_link` when it fails, and `sys_unlink`.
  | unlink
  -- `create`, and `create` when it fails.
  | node (major minor : Int)
  | clear
  -- `sys_open` with `O_TRUNC`.
  | trunc

def Edit.apply (n : Dinode) : Edit → Dinode
  | link => { n with nlink := short (n.nlink + 1) }
  | unlink => { n with nlink := short (n.nlink - 1) }
  | node major minor => { n with major := major, minor := minor, nlink := 1 }
  | clear => { n with nlink := 0 }
  | trunc => itrunc n

/-! ## State -/

structure Entry where
  dev : Nat := 0
  inum : Nat := 0
  ref : Nat := 0
  valid : Bool := false
  copy : Dinode := {}
  lock : Option Nat := none

/-- Where a thread is in `iput`: before it takes `itable.lock`, then before each of `itrunc`, its `iupdate`, `ip->type = 0`,
`iupdate`, `ip->valid = 0` and `releasesleep`, and before it takes `itable.lock` again. -/
inductive Put where
  | start
  | itrunc
  | update
  | type
  | free
  | invalid
  | unlock
  | drop
  deriving DecidableEq

inductive Pc where
  | idle
  -- In `ilock`: before `acquiresleep`, before `valid` is read, and before it is set.
  | lock (i : Nat)
  | load (i : Nat)
  | loaded (i : Nat)
  -- Before the `iupdate` that follows an edit.
  | dirty (i : Nat)
  -- In `ialloc`: at `inum` in the loop, and before `iget`.
  | scan (dev : Nat) (type : FileType) (inum : Nat)
  | alloc (dev inum : Nat)
  -- In `iput`, to put the reference `r` to the entry `i`.
  | put (r i : Nat) (ph : Put)
  deriving DecidableEq

structure State where
  entry : Nat → Entry
  disk : Nat → Nat → Dinode
  pc : Nat → Pc
  -- On the side: the references handed out and not yet put, the entry each is to, and the threads that may use it. Several
  -- threads use one reference if it belongs to an open file that they share.
  live : List Nat
  target : Nat → Nat
  user : Nat → List Nat

abbrev I (α : Type) := Op State α

namespace State

def setEntry (s : State) (i : Nat) (f : Entry → Entry) : State :=
  { s with entry := Function.update s.entry i (f (s.entry i)) }

def setDisk (s : State) (dev inum : Nat) (n : Dinode) : State :=
  { s with disk := Function.update s.disk dev (Function.update (s.disk dev) inum n) }

def goto (s : State) (t : Nat) (c : Pc) : State := { s with pc := Function.update s.pc t c }

def Other (s : State) (t i r : Nat) : Prop := ∃ r' ∈ s.live, r' ≠ r ∧ s.target r' = i ∧ t ∈ s.user r'

instance (s : State) (t i r : Nat) : Decidable (s.Other t i r) := inferInstanceAs (Decidable (∃ r' ∈ s.live, _))

end State

def goto (t : Nat) (c : Pc) : I Unit := Op.update fun s => s.goto t c

def setEntry (i : Nat) (f : Entry → Entry) : I Unit := Op.update fun s => s.setEntry i f

/-! ## Under `itable.lock` -/

-- From entry `NINODE - k` on.
def iget_loop (dev inum : Nat) : Nat → Nat → Option Nat → I Nat
  | 0, _, none => Op.stop "iget: no inodes"
  | 0, _, some i => do
    setEntry i fun e => { e with dev := dev, inum := inum, ref := 1, valid := false }
    pure i
  | k + 1, i, empty => do
    let e ← Op.gets fun s => s.entry i
    if 0 < e.ref ∧ e.dev = dev ∧ e.inum = inum then do
      setEntry i fun e => { e with ref := e.ref + 1 }
      pure i
    else iget_loop dev inum k (i + 1) (if empty = none ∧ e.ref = 0 then some i else empty)

def hand (t r i : Nat) : I Unit := Op.update fun s =>
  { s with
    live := r :: s.live
    target := Function.update s.target r i
    user := Function.update s.user r [t] }

def iget (t dev inum r : Nat) : I Unit := do
  let i ← iget_loop dev inum NINODE 0 none
  hand t r i

def idup (t r r' : Nat) : I Unit := do
  let i ← Op.gets fun s => s.target r
  setEntry i fun e => { e with ref := e.ref + 1 }
  hand t r' i

def drop (t r i : Nat) : I Unit := do
  setEntry i fun e => { e with ref := e.ref - 1 }
  Op.update fun s => { s with live := s.live.erase r }
  goto t .idle

/-! ## Threads -/

def iupdate (i : Nat) : I Unit :=
  Op.update fun s => s.setDisk (s.entry i).dev (s.entry i).inum (s.entry i).copy

def put (t r i : Nat) : Put → I Unit
  | .start => do
    let e ← Op.gets fun s => s.entry i
    if e.ref = 1 ∧ e.valid = true ∧ e.copy.nlink = 0 then
      if e.lock = none then do
        setEntry i fun e => { e with lock := some t }
        goto t (.put r i .itrunc)
      else Op.stop "sched locks"
    else drop t r i
  | .itrunc => do
    setEntry i fun e => { e with copy := itrunc e.copy }
    goto t (.put r i .update)
  | .update => do
    iupdate i
    goto t (.put r i .type)
  | .type => do
    setEntry i fun e => { e with copy := { e.copy with type := .free } }
    goto t (.put r i .free)
  | .free => do
    iupdate i
    goto t (.put r i .invalid)
  | .invalid => do
    setEntry i fun e => { e with valid := false }
    goto t (.put r i .unlock)
  | .unlock => do
    setEntry i fun e => { e with lock := none }
    goto t (.put r i .drop)
  | .drop => drop t r i

def step (ninodes t r : Nat) : Pc → I Unit
  | .idle => Op.stop "idle"
  | .lock i => do
    let e ← Op.gets fun s => s.entry i
    if e.lock = none then do
      setEntry i fun e => { e with lock := some t }
      goto t (.load i)
    else Op.stop "asleep"
  | .load i => do
    let e ← Op.gets fun s => s.entry i
    if e.valid = true then goto t .idle
    else do
      Op.update fun s => s.setEntry i fun e => { e with copy := s.disk e.dev e.inum }
      goto t (.loaded i)
  | .loaded i => do
    setEntry i fun e => { e with valid := true }
    let e ← Op.gets fun s => s.entry i
    if e.copy.type = .free then Op.stop "ilock: no type" else goto t .idle
  | .dirty i => do
    iupdate i
    goto t .idle
  | .scan dev type inum => do
    let disk ← Op.gets State.disk
    if ninodes ≤ inum then goto t .idle
    else if (disk dev inum).type = .free then do
      Op.update fun s => s.setDisk dev inum { type := type }
      goto t (.alloc dev inum)
    else goto t (.scan dev type (inum + 1))
  | .alloc dev inum => do
    let live ← Op.gets State.live
    if r ∈ live then Op.stop "not a new name"
    else do
      iget t dev inum r
      goto t .idle
  | .put r i ph => put t r i ph

def onCopy {α : Type} (i : Nat) (x : Op Dinode α) : I α := fun s =>
  match x (s.entry i).copy with
  | .ok (a, n) => .ok (a, s.setEntry i fun e => { e with copy := n })
  | .error msg => .error msg

/-! ## Runs -/

inductive Act where
  | iget (t dev inum r : Nat)
  | idup (t r r' : Nat)
  -- A file is inherited by `fork`, or closed by one of its users.
  | share (t r t' : Nat)
  | unshare (t r t' : Nat)
  | ilock (t i : Nat)
  | iunlock (t i : Nat)
  | edit (t i : Nat) (e : Edit)
  | readi (t i : Nat) (e : Nat → Round) (off n : Nat)
  | writei (t i : Nat) (e : Nat → Round) (off n : Nat)
  | ialloc (t dev : Nat) (type : FileType)
  | iput (t r : Nat)
  | step (t r : Nat)

def Act.thread : Act → Nat
  | iget t .. | idup t .. | share t .. | unshare t .. | ilock t .. | iunlock t .. | edit t .. | readi t .. | writei t ..
  | ialloc t .. | iput t .. | step t .. => t

namespace State

-- What callers see to: they use inodes they have a reference to, change them under the lock, and do not put a reference that
-- another thread still uses or that they still need.
def Allowed (s : State) : Act → Prop
  | .iget _ _ _ r => r ∉ s.live
  | .idup t r r' => r ∈ s.live ∧ t ∈ s.user r ∧ r' ∉ s.live
  | .share t r _ => r ∈ s.live ∧ t ∈ s.user r
  | .unshare t r t' => r ∈ s.live ∧ t ∈ s.user r ∧ t' ∈ s.user r ∧ t' ≠ t ∧
    ((s.entry (s.target r)).lock = some t → s.Other t (s.target r) r)
  | .ilock t i => ∃ r ∈ s.live, s.target r = i ∧ t ∈ s.user r
  | .iunlock t i | .edit t i _ | .readi t i .. | .writei t i .. => (s.entry i).lock = some t
  | .ialloc .. => True
  | .iput t r => r ∈ s.live ∧ t ∈ s.user r ∧ (∀ t' ∈ s.user r, t' = t) ∧
    ((s.entry (s.target r)).lock = some t → s.Other t (s.target r) r)
  | .step .. => True

instance (s : State) (a : Act) : Decidable (s.Allowed a) := by
  cases a <;> unfold Allowed <;> infer_instance

end State

def call : Act → I Unit
  | .iget t dev inum r => iget t dev inum r
  | .idup t r r' => idup t r r'
  | .share _ r t' => Op.update fun s => { s with user := Function.update s.user r (t' :: s.user r) }
  | .unshare t r _ => Op.update fun s => { s with user := Function.update s.user r ((s.user r).filter (· ≠ t)) }
  | .ilock t i => do
    let e ← Op.gets fun s => s.entry i
    if e.ref < 1 then Op.stop "ilock" else goto t (.lock i)
  | .iunlock _ i => do
    let e ← Op.gets fun s => s.entry i
    if e.ref < 1 then Op.stop "iunlock" else setEntry i fun e => { e with lock := none }
  | .edit t i e => do
    setEntry i fun x => { x with copy := e.apply x.copy }
    goto t (.dirty i)
  | .readi _ i e off n => onCopy i (readi e off n)
  | .writei t i e off n => do
    let wrote ← onCopy i (writei e off n)
    if wrote = true then goto t (.dirty i) else pure ()
  | .ialloc t dev type => goto t (.scan dev type 1)
  | .iput t r => Op.update fun s => s.goto t (.put r (s.target r) .start)
  | .step .. => pure ()

def run (ninodes : Nat) (a : Act) : I Unit := do
  let s ← Op.gets id
  match a with
  | .step t r => step ninodes t r (s.pc t)
  | a => if s.pc a.thread = .idle ∧ s.Allowed a then call a else Op.stop "not allowed"

def start (disk : Nat → Nat → Dinode) : State where
  entry := fun _ => {}
  disk := disk
  pc := fun _ => .idle
  live := []
  target := fun _ => 0
  user := fun _ => []

end Xv6.Inodes
