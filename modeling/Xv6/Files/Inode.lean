import Xv6.Lib.Op
import Xv6.Lib.Block
import Xv6.Riscv

/-!
# Inodes: `fs.c`

One system call runs after the other, so that locks are left out. Blocks are as the buffer cache
and the log show them: the bitmap as its bits, the inode blocks as their inodes. The inode table
has at most one entry for an inode, and is a function of the inode number.
-/

open Xv6.Lib

namespace Xv6.Files

abbrev NDIRECT : Nat := 12
abbrev NINDIRECT : Nat := BSIZE / 4
abbrev MAXFILE : Nat := NDIRECT + NINDIRECT
abbrev ROOTINO : Nat := 1
abbrev NINODE : Nat := 50

abbrev Byte := BitVec 8
abbrev Data := Block BSIZE

/-- What the superblock says. The blocks below `nmeta` are the boot block, the superblock, the log,
the inodes and the bitmap. An inode number in a directory entry has 16 bits. -/
class Super where
  size : Nat
  nmeta : Nat
  ninodes : Nat
  nmeta_pos : 0 < nmeta
  nmeta_le : nmeta ≤ size
  size_lt : size < 2 ^ 31
  root_lt : ROOTINO < ninodes
  ninodes_le : ninodes ≤ 2 ^ 16

export Super (size nmeta ninodes)

/-! ## State -/

inductive FileType where
  | free
  | dir
  | file
  | device
  deriving DecidableEq, Repr

structure Dinode where
  type : FileType := .free
  major : Int := 0
  minor : Int := 0
  nlink : Int := 0
  size : Nat := 0
  addrs : Nat → Nat := fun _ => 0

/-- An entry of the inode table, with its copy of the inode on disk. -/
@[ext] structure Inode where
  ref : Nat := 0
  valid : Bool := false
  copy : Dinode := {}

inductive FdType where
  | none
  | pipe
  | inode
  | device
  deriving DecidableEq, Repr

structure File where
  type : FdType := .none
  ref : Nat := 0
  readable : Bool := false
  writable : Bool := false
  pipe : Nat := 0
  ip : Nat := 0
  off : Nat := 0
  major : Int := 0

structure Pipe where
  readopen : Bool
  writeopen : Bool
  deriving DecidableEq

/-- The files of a process. It is live as long as it has a current directory. -/
structure Proc where
  cwd : Option Nat := none
  ofile : Nat → Option Nat := fun _ => none

structure State where
  used : Nat → Bool
  data : Nat → Data
  dinode : Nat → Dinode
  itable : Nat → Inode
  ftable : Nat → File
  proc : Nat → Proc
  -- The pages that hold a pipe.
  pipe : Nat → Option Pipe := fun _ => none

abbrev F (α : Type) := Op State α

def panic {α : Type} (msg : String) : F α := Op.stop msg

def short (x : Int) : Int := (x + 2 ^ 15) % 2 ^ 16 - 2 ^ 15

namespace State

def setUsed (s : State) (b : Nat) (u : Bool) : State := { s with used := Function.update s.used b u }

def setData (s : State) (b : Nat) (d : Data) : State := { s with data := Function.update s.data b d }

def setDinode (s : State) (i : Nat) (n : Dinode) : State :=
  { s with dinode := Function.update s.dinode i n }

def setInode (s : State) (i : Nat) (f : Inode → Inode) : State :=
  { s with itable := Function.update s.itable i (f (s.itable i)) }

def setFile (s : State) (i : Nat) (f : File → File) : State :=
  { s with ftable := Function.update s.ftable i (f (s.ftable i)) }

def setProc (s : State) (i : Nat) (f : Proc → Proc) : State :=
  { s with proc := Function.update s.proc i (f (s.proc i)) }

def setPipe (s : State) (pi : Nat) (q : Option Pipe) : State := { s with pipe := Function.update s.pipe pi q }

end State

variable [Super]

/-! ## Blocks -/

def balloc : F Nat := do
  let b ← Op.gets fun s => (List.range size).find? fun b => !s.used b
  match b with
  | none => pure 0
  | some b => do
    Op.update fun s => s.setUsed b true
    Op.update fun s => s.setData b fun _ => 0
    pure b

def bfree (b : Nat) : F Unit := do
  let u ← Op.gets fun s => s.used b
  if u = false then panic "freeing free block" else Op.update fun s => s.setUsed b false

/-! ## The inode table -/

section itable
omit [Super]

def inode (ip : Nat) : F Dinode := Op.gets fun s => (s.itable ip).copy

def modifyInode (ip : Nat) (f : Dinode → Dinode) : F Unit :=
  Op.update fun s => s.setInode ip fun e => { e with copy := f e.copy }

def iupdate (ip : Nat) : F Unit := Op.update fun s => s.setDinode ip (s.itable ip).copy

def setAddr (ip k addr : Nat) : F Unit :=
  modifyInode ip fun n => { n with addrs := Function.update n.addrs k addr }

def idup (ip : Nat) : F Unit := Op.update fun s => s.setInode ip fun e => { e with ref := e.ref + 1 }

def ilock (ip : Nat) : F Unit := do
  let e ← Op.gets fun s => s.itable ip
  if e.ref < 1 then panic "ilock"
  else if e.valid then pure ()
  else do
    Op.update fun s => s.setInode ip fun e => { e with valid := true, copy := s.dinode ip }
    let n ← inode ip
    if n.type = .free then panic "ilock: no type" else pure ()

def iunlock (ip : Nat) : F Unit := do
  let e ← Op.gets fun s => s.itable ip
  if e.ref < 1 then panic "iunlock" else pure ()

end itable

def iget (inum : Nat) : F Unit := do
  let s ← Op.gets id
  if 0 < (s.itable inum).ref then Op.update fun s => s.setInode inum fun e => { e with ref := e.ref + 1 }
  else if NINODE ≤ (List.range ninodes).countP fun i => 0 < (s.itable i).ref then panic "iget: no inodes"
  else Op.update fun s => s.setInode inum fun e => { e with ref := 1, valid := false }

def ialloc (type : FileType) : F (Option Nat) := do
  let inum ← Op.gets fun s => (List.range ninodes).find? fun i => 1 ≤ i ∧ (s.dinode i).type = .free
  match inum with
  | none => pure none
  | some inum => do
    Op.update fun s => s.setDinode inum { type := type }
    iget inum
    pure (some inum)

/-! ## Block addresses -/

section addresses

def indirect (b j : Nat) : F Nat := Op.gets fun s => ((s.data b).word j).toNat

def setIndirect (b j addr : Nat) : F Unit :=
  Op.update fun s => s.setData b ((s.data b).setWord j (BitVec.ofNat 32 addr))

-- `ip->addrs[k]`, allocated if it is not there.
def bmap_addr (ip k : Nat) : F Nat := do
  let n ← inode ip
  if n.addrs k = 0 then do
    let addr ← balloc
    if addr = 0 then pure 0
    else do
      setAddr ip k addr
      pure addr
  else pure (n.addrs k)

def bmap_entry (b j : Nat) : F Nat := do
  let addr ← indirect b j
  if addr = 0 then do
    let addr ← balloc
    if addr = 0 then pure 0
    else do
      setIndirect b j addr
      pure addr
  else pure addr

def bmap (ip bn : Nat) : F Nat :=
  if bn < NDIRECT then bmap_addr ip bn
  else if bn - NDIRECT < NINDIRECT then do
    let b ← bmap_addr ip NDIRECT
    if b = 0 then pure 0 else bmap_entry b (bn - NDIRECT)
  else panic "bmap: out of range"

-- From `addrs[NDIRECT - k]` on.
def itrunc_direct (ip : Nat) : Nat → F Unit
  | 0 => pure ()
  | k + 1 => do
    let n ← inode ip
    let i := NDIRECT - (k + 1)
    Op.when (n.addrs i ≠ 0) do
      bfree (n.addrs i)
      setAddr ip i 0
    itrunc_direct ip k

-- From `a[NINDIRECT - k]` on.
def itrunc_indirect (b : Nat) : Nat → F Unit
  | 0 => pure ()
  | k + 1 => do
    let addr ← indirect b (NINDIRECT - (k + 1))
    Op.when (addr ≠ 0) (bfree addr)
    itrunc_indirect b k

def itrunc (ip : Nat) : F Unit := do
  itrunc_direct ip NDIRECT
  let n ← inode ip
  Op.when (n.addrs NDIRECT ≠ 0) do
    itrunc_indirect (n.addrs NDIRECT) NINDIRECT
    bfree (n.addrs NDIRECT)
    setAddr ip NDIRECT 0
  modifyInode ip fun n => { n with size := 0 }
  iupdate ip

def iput (ip : Nat) : F Unit := do
  let e ← Op.gets fun s => s.itable ip
  Op.when (e.ref = 1 ∧ e.valid ∧ e.copy.nlink = 0) do
    itrunc ip
    modifyInode ip fun n => { n with type := .free }
    iupdate ip
    Op.update fun s => s.setInode ip fun e => { e with valid := false }
  Op.update fun s => s.setInode ip fun e => { e with ref := e.ref - 1 }

def iunlockput (ip : Nat) : F Unit := do
  iunlock ip
  iput ip

end addresses

/-! ## Contents -/

def bytes (b off m : Nat) : F (List Byte) :=
  Op.gets fun s => (List.range m).map fun k => (s.data b).byte (off + k)

def readi_loop (ip : Nat) : Nat → Nat → Nat → F (List Byte)
  | 0, _, _ => pure []
  | k + 1, off, left =>
    if left = 0 then pure []
    else do
      let addr ← bmap ip (off / BSIZE)
      if addr = 0 then pure []
      else do
        let m := min left (BSIZE - off % BSIZE)
        let bs ← bytes addr (off % BSIZE) m
        let rest ← readi_loop ip k (off + m) (left - m)
        pure (bs ++ rest)

-- `off` and `n` are `uint`.
def readi (ip off n : Nat) : F (List Byte) := do
  let node ← inode ip
  if off > node.size ∨ (off + n) % 2 ^ 32 < off then pure []
  else
    let n := if off + n > node.size then node.size - off else n
    readi_loop ip n off n

/-- The bytes to write, of which the first `len` can be read. -/
structure Source where
  byte : Nat → Byte
  len : Nat

def Source.kernel (bs : List Byte) : Source := ⟨fun k => bs.getD k 0, bs.length⟩

-- `either_copyin`: the bytes from `tot` on that can be read, up to `m`, go to the block at `off`.
def copyin_block (b off : Nat) (src : Source) (tot m : Nat) : F Unit :=
  Op.update fun s => s.setData b fun k =>
    if off ≤ k.val ∧ k.val < off + min m (src.len - tot) then src.byte (tot + (k.val - off)) else s.data b k

def writei_loop (ip : Nat) (src : Source) : Nat → Nat → Nat → Nat → F (Nat × Nat)
  | 0, tot, off, _ => pure (tot, off)
  | k + 1, tot, off, left =>
    if left = 0 then pure (tot, off)
    else do
      let addr ← bmap ip (off / BSIZE)
      if addr = 0 then pure (tot, off)
      else do
        let m := min left (BSIZE - off % BSIZE)
        copyin_block addr (off % BSIZE) src tot m
        if tot + m ≤ src.len then writei_loop ip src k (tot + m) (off + m) (left - m)
        else pure (tot, off)

def writei (ip : Nat) (src : Source) (off n : Nat) : F Int := do
  let node ← inode ip
  if off > node.size ∨ (off + n) % 2 ^ 32 < off then pure (-1)
  else if off + n > MAXFILE * BSIZE then pure (-1)
  else do
    let (tot, off) ← writei_loop ip src n 0 off n
    modifyInode ip fun node => if off > node.size then { node with size := off } else node
    iupdate ip
    pure tot

end Xv6.Files
