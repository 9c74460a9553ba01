import Mathlib.Data.BitVec
import Mathlib.Logic.Function.Basic
import Xv6.Lib.Op
import Xv6.Lib.Path

/-!
# The disk driver: `virtio_disk.c`

Any number of threads call `virtio_disk_rw` or run `virtio_disk_intr`. A step of a thread holds `vdisk_lock` throughout,
and the device may step between two of them. A thread asleep may wake up at any time.
-/

open Xv6.Lib

namespace Xv6.Disk

abbrev NUM : Nat := 8

inductive Addr where
  | null
  | op (i : Nat)
  | data (b : Nat)
  | status (i : Nat)
  deriving DecidableEq

def VRING_DESC_F_NEXT : BitVec 16 := 1
def VRING_DESC_F_WRITE : BitVec 16 := 2

structure Desc where
  addr : Addr
  len : Nat
  flags : BitVec 16
  next : Nat
  deriving DecidableEq

structure Info where
  b : Option Nat
  status : Nat
  deriving DecidableEq

structure Header where
  type : Nat
  sector : Nat
  deriving DecidableEq

def VIRTIO_BLK_T_IN : Nat := 0
def VIRTIO_BLK_T_OUT : Nat := 1

structure Buf where
  blockno : Nat
  disk : Bool
  -- The thread that holds `b->lock`, as `bread` and `bwrite` do around the call.
  lock : Option Nat

/-- Where a thread is. With `idx` come the three descriptors of its request. -/
inductive Pc where
  | idle
  | entered (b : Nat) (write : Bool)
  -- In `while(1)`, and asleep in it.
  | alloc (b : Nat) (write : Bool)
  | nodesc (b : Nat) (write : Bool)
  -- Before `avail->ring[...] = idx[0]`, and before `avail->idx += 1`.
  | ring (b : Nat) (idx : Nat × Nat × Nat)
  | bump (b : Nat) (idx : Nat × Nat × Nat)
  -- In `while(b->disk == 1)`, and asleep in it.
  | check (b : Nat) (idx : Nat × Nat × Nat)
  | asleep (b : Nat) (idx : Nat × Nat × Nat)
  | intr
  | intrLoop
  deriving DecidableEq

structure State where
  desc : Nat → Desc
  availRing : Nat → Nat
  availIdx : BitVec 16
  usedRing : Nat → Nat
  usedIdx : BitVec 16
  free : Nat → Bool
  used_idx : BitVec 16
  info : Nat → Info
  ops : Nat → Header
  vdisk_lock : Option Nat
  buf : Nat → Buf
  pc : Nat → Pc
  -- The device: how far it is in the avail ring, the requests it works on and those it has written the status of.
  devIdx : BitVec 16
  taken : List Nat
  finished : List Nat
  -- On the side: the threads with descriptors, what went into and came out of each ring, and for each buffer how often
  -- `disk` was set, the device reported it, and `disk` was cleared.
  live : List Nat
  sent : List Nat
  consumed : List Nat
  reported : List Nat
  seen : List Nat
  sets : Nat → Nat
  reports : Nat → Nat
  clears : Nat → Nat

abbrev V (α : Type) := Op State α

/-! ## Descriptors -/

def zero : Desc := ⟨.null, 0, 0, 0⟩

-- `k` is `NUM - i`.
def alloc_desc_loop : Nat → Nat → V (Option Nat)
  | 0, _ => pure none
  | k + 1, i => do
    let free ← Op.gets State.free
    if free i = true then do
      Op.update fun s => { s with free := Function.update s.free i false }
      pure (some i)
    else alloc_desc_loop k (i + 1)

def alloc_desc : V (Option Nat) := alloc_desc_loop NUM 0

-- `wakeup` only makes the sleepers come back.
def free_desc (i : Nat) : V Unit := do
  let free ← Op.gets State.free
  if NUM ≤ i then Op.stop "free_desc 1"
  else if free i = true then Op.stop "free_desc 2"
  else Op.update fun s =>
    { s with desc := Function.update s.desc i zero, free := Function.update s.free i true }

def free_chain : Nat → Nat → V Unit
  | 0, _ => Op.stop "free_chain"
  | fuel + 1, i => do
    let desc ← Op.gets State.desc
    free_desc i
    if (desc i).flags &&& VRING_DESC_F_NEXT ≠ 0 then free_chain fuel (desc i).next else pure ()

def alloc3_desc : V (Option (Nat × Nat × Nat)) := do
  let i ← alloc_desc
  match i with
  | none => pure none
  | some i => do
    let j ← alloc_desc
    match j with
    | none => do
      free_desc i
      pure none
    | some j => do
      let k ← alloc_desc
      match k with
      | none => do
        free_desc i
        free_desc j
        pure none
      | some k => pure (some (i, j, k))

/-! ## `virtio_disk_rw` -/

def goto (t : Nat) (c : Pc) : V Unit := Op.update fun s => { s with pc := Function.update s.pc t c }

def acquire (t : Nat) : V Unit := do
  let l ← Op.gets State.vdisk_lock
  if l = none then Op.update fun s => { s with vdisk_lock := some t } else Op.stop "vdisk_lock is held"

def release : V Unit := Op.update fun s => { s with vdisk_lock := none }

def BSIZE : Nat := 1024

def HEADER : Nat := 16

def formatted (s : State) (t b : Nat) (write : Bool) (i j k : Nat) : State :=
  { s with
    ops := Function.update s.ops i
      ⟨if write then VIRTIO_BLK_T_OUT else VIRTIO_BLK_T_IN, (s.buf b).blockno * (BSIZE / 512)⟩
    desc := Function.update (Function.update (Function.update s.desc
      i ⟨.op i, HEADER, VRING_DESC_F_NEXT, j⟩)
      j ⟨.data b, BSIZE, (if write then 0 else VRING_DESC_F_WRITE) ||| VRING_DESC_F_NEXT, k⟩)
      k ⟨.status i, 1, VRING_DESC_F_WRITE, 0⟩
    info := Function.update s.info i ⟨some b, 0xff⟩
    buf := Function.update s.buf b { s.buf b with disk := true }
    live := t :: s.live
    sets := Function.update s.sets b (s.sets b + 1) }

def format (t b : Nat) (write : Bool) (idx : Nat × Nat × Nat) : V Unit :=
  Op.update fun s => formatted s t b write idx.1 idx.2.1 idx.2.2

def rwStep (t : Nat) : Pc → V Unit
  | .entered b write => do
    acquire t
    goto t (.alloc b write)
  | .alloc b write => do
    let idx ← alloc3_desc
    match idx with
    | none => do
      release
      goto t (.nodesc b write)
    | some idx => do
      format t b write idx
      goto t (.ring b idx)
  | .nodesc b write => do
    acquire t
    goto t (.alloc b write)
  | .ring b idx => do
    Op.update fun s => { s with availRing := Function.update s.availRing (s.availIdx.toNat % NUM) idx.1 }
    goto t (.bump b idx)
  | .bump b idx => do
    Op.update fun s => { s with availIdx := s.availIdx + 1, sent := s.sent ++ [idx.1] }
    goto t (.check b idx)
  | .check b idx => do
    let buf ← Op.gets fun s => s.buf b
    if buf.disk = true then do
      release
      goto t (.asleep b idx)
    else do
      Op.update fun s => { s with info := Function.update s.info idx.1 { s.info idx.1 with b := none } }
      free_chain (NUM + 1) idx.1
      release
      Op.update fun s =>
        { s with
          live := s.live.erase t
          buf := Function.update s.buf b { s.buf b with lock := none } }
      goto t .idle
  | .asleep b idx => do
    acquire t
    goto t (.check b idx)
  | _ => Op.stop "not in a request"

/-! ## `virtio_disk_intr` -/

def intrStep (t : Nat) : Pc → V Unit
  | .intr => do
    acquire t
    goto t .intrLoop
  | .intrLoop => do
    let s ← Op.gets id
    if s.used_idx = s.usedIdx then do
      release
      goto t .idle
    else
      let head := s.usedRing (s.used_idx.toNat % NUM)
      if (s.info head).status ≠ 0 then Op.stop "virtio_disk_intr status"
      else
        match (s.info head).b with
        | none => Op.stop "no buffer"
        | some b => Op.update fun s =>
          { s with
            buf := Function.update s.buf b { s.buf b with disk := false }
            used_idx := s.used_idx + 1
            seen := s.seen ++ [head]
            clears := Function.update s.clears b (s.clears b + 1) }
  | _ => Op.stop "not in the handler"

/-! ## The device -/

def State.statusOf (s : State) (head : Nat) : Addr := (s.desc (s.desc (s.desc head).next).next).addr

def State.dataOf (s : State) (head : Nat) : Addr := (s.desc (s.desc head).next).addr

def consume : V Unit := do
  let s ← Op.gets id
  if s.devIdx = s.availIdx then Op.stop "nothing to do"
  else
    let head := s.availRing (s.devIdx.toNat % NUM)
    Op.update fun s =>
      { s with devIdx := s.devIdx + 1, taken := head :: s.taken, consumed := s.consumed ++ [head] }

def finish (head : Nat) : V Unit := do
  let s ← Op.gets id
  if head ∈ s.taken then
    match s.statusOf head with
    | .status i => Op.update fun s =>
      { s with
        info := Function.update s.info i { s.info i with status := 0 }
        taken := s.taken.erase head
        finished := head :: s.finished }
    | _ => Op.stop "not a status"
  else Op.stop "not taken"

def report (head : Nat) : V Unit := do
  let s ← Op.gets id
  if head ∈ s.finished then
    match s.dataOf head with
    | .data b => Op.update fun s =>
      { s with
        usedRing := Function.update s.usedRing (s.usedIdx.toNat % NUM) head
        usedIdx := s.usedIdx + 1
        finished := s.finished.erase head
        reported := s.reported ++ [head]
        reports := Function.update s.reports b (s.reports b + 1) }
    | _ => Op.stop "not a buffer"
  else Op.stop "not finished"

/-! ## Runs -/

inductive Act where
  -- A caller of `virtio_disk_rw` holds `b->lock`.
  | rw (t b : Nat) (write : Bool)
  | intr (t : Nat)
  | rwStep (t : Nat)
  | intrStep (t : Nat)
  | consume
  | finish (head : Nat)
  | report (head : Nat)

def run : Act → V Unit
  | .rw t b write => do
    let s ← Op.gets id
    if s.pc t = .idle ∧ (s.buf b).lock = none then do
      Op.update fun s => { s with buf := Function.update s.buf b { s.buf b with lock := some t } }
      goto t (.entered b write)
    else Op.stop "busy"
  | .intr t => do
    let s ← Op.gets id
    if s.pc t = .idle then goto t .intr else Op.stop "busy"
  | .rwStep t => do
    let s ← Op.gets id
    rwStep t (s.pc t)
  | .intrStep t => do
    let s ← Op.gets id
    intrStep t (s.pc t)
  | .consume => consume
  | .finish head => finish head
  | .report head => report head

def start (blockno : Nat → Nat) : State where
  desc := fun _ => zero
  availRing := fun _ => 0
  availIdx := 0
  usedRing := fun _ => 0
  usedIdx := 0
  free := fun i => i < NUM
  used_idx := 0
  info := fun _ => ⟨none, 0⟩
  ops := fun _ => ⟨0, 0⟩
  vdisk_lock := none
  buf := fun b => ⟨blockno b, false, none⟩
  pc := fun _ => .idle
  devIdx := 0
  taken := []
  finished := []
  live := []
  sent := []
  consumed := []
  reported := []
  seen := []
  sets := fun _ => 0
  reports := fun _ => 0
  clears := fun _ => 0

end Xv6.Disk
