import Xv6.Kalloc

/-!
# Swapping pages to disk: `swap.c`, with `walk` of `vm.c` and `kalloc`

`kalloc` calls `select_victim_page`, which walks page tables without allocating. So `walk` takes
the function that supplies new tables, and `walk0` is `walk(pagetable, va, 0)`.
-/

open Xv6.Lib

namespace Xv6

variable [Image]

/-! ## The page-table walk -/

def walk_level (alloc : Option (K (Option Nat))) (pagetable level va : Nat) : K (Option Nat) := do
  let e ← load64 (pagetable + 8 * PX level va)
  if has e PTE_V then pure (some (PTE2PA e))
  else
    match alloc with
    | none => pure none
    | some kalloc => do
      let r ← kalloc
      match r with
      | none => pure none
      | some p => do
        memset p 0 PGSIZE
        store64 (pagetable + 8 * PX level va) (PA2PTE p ||| PTE_V)
        pure (some p)

def walk_with (alloc : Option (K (Option Nat))) (pagetable va : Nat) : K (Option Nat) :=
  if va ≥ MAXVA then panic "walk"
  else do
    let t1 ← walk_level alloc pagetable 2 va
    match t1 with
    | none => pure none
    | some t1 => do
      let t0 ← walk_level alloc t1 1 va
      match t0 with
      | none => pure none
      | some t0 => pure (some (t0 + 8 * PX 0 va))

def walk0 (pagetable va : Nat) : K (Option Nat) := walk_with none pagetable va

/-! ## Swap blocks -/

abbrev SWAP_START_BLOCK : Nat := FSSIZE
abbrev SWAP_MAX_BLOCKS : Nat := 1000

def swapinit : K Unit :=
  Op.update fun s => { s with swap := { inuse := fun _ => 0, nfree := SWAP_MAX_BLOCKS } }

def inuse (sw : Swap) (i : Nat) : Bool := sw.inuse (i / 8) &&& (1#8 <<< (i % 8)) != 0#8

def swapalloc : K (Option Nat) := do
  let sw ← Op.gets (·.swap)
  if sw.nfree = 0 then pure none
  else
    match (List.range SWAP_MAX_BLOCKS).find? fun i => !inuse sw i with
    | none => pure none
    | some i => do
      Op.update fun s => { s with swap :=
        { inuse := fun k => if k = i / 8 then sw.inuse k ||| (1#8 <<< (i % 8)) else sw.inuse k
          nfree := sw.nfree - 1 } }
      pure (some i)

def swapfree (swapblock : Nat) : K Unit :=
  if swapblock ≥ SWAP_MAX_BLOCKS then panic "swapfree: invalid swapblock"
  else do
    let sw ← Op.gets (·.swap)
    if inuse sw swapblock then
      Op.update fun s => { s with swap :=
        { inuse := fun k =>
            if k = swapblock / 8 then sw.inuse k &&& ~~~(1#8 <<< (swapblock % 8)) else sw.inuse k
          nfree := sw.nfree + 1 } }
    else panic "swapfree: double free"

def swapblock_to_diskblock (swapblock : Nat) : Nat := SWAP_START_BLOCK + swapblock

def pte_to_swapblock (pte : Pte) : Nat := (pte >>> 10 &&& 0xFFFFFFFF#64).toNat

def swapblock_to_pte (swapblock : Nat) : Pte := BitVec.ofNat 64 swapblock <<< 10 ||| PTE_SWAPPED

/-! ## Disk blocks through buffers -/

structure Buf where
  blockno : Nat
  data : Nat

def bread (blockno : Nat) : K Buf := do
  let data ← Op.gets (·.bufdata blockno)
  Op.update fun s => { s with bmem := fun x =>
    if data ≤ x ∧ x < data + BSIZE then s.disk blockno (x - data) else s.bmem x }
  pure { blockno, data }

def bwrite (b : Buf) : K Unit :=
  Op.update fun s => { s with disk := fun n k =>
    if n = b.blockno ∧ k < BSIZE then s.bmem (b.data + k) else s.disk n k }

-- `memmove(b->data, pa, n)`
def move_to_buf (b : Buf) (pa n : Nat) : K Unit :=
  Op.update fun s => { s with
    bmem := fun x =>
      if b.data ≤ x ∧ x < b.data + n then s.mem (pa + (x - b.data)) else s.bmem x
    accesses := ⟨b.blockno, n⟩ :: s.accesses }

-- `memmove(pa, b->data, n)`
def move_from_buf (pa : Nat) (b : Buf) (n : Nat) : K Unit :=
  Op.update fun s => { s with
    mem := fun x => if pa ≤ x ∧ x < pa + n then s.bmem (b.data + (x - pa)) else s.mem x
    accesses := ⟨b.blockno, n⟩ :: s.accesses }

/-! ## Swap out, swap in -/

-- `disk` is the wait until the block is written.
def swapout_with (disk : K Unit) (pagetable va : Nat) : K Int := do
  let va := PGROUNDDOWN va
  let pte ← walk0 pagetable va
  match pte with
  | none => pure (-1)
  | some pte => do
    let e ← load64 pte
    if !has e PTE_V then pure (-1)
    else if has e PTE_COW then pure (-1)
    else if !has e PTE_U then pure (-1)
    else do
      let swapblock ← swapalloc
      match swapblock with
      | none => pure (-1)
      | some swapblock => do
        let b ← bread (swapblock_to_diskblock swapblock)
        move_to_buf b (PTE2PA e) PGSIZE
        bwrite b
        disk
        store64 pte (swapblock_to_pte swapblock)
        kfree (PTE2PA e)
        memstats_inc_swap_out
        pure 0

def swapout (pagetable va : Nat) : K Int := swapout_with (pure ()) pagetable va

def victim_loop_with (swapout : Nat → Nat → K Int) (pagetable : Nat) : Nat → Nat → K Bool
  | 0, _ => pure false
  | n + 1, va => do
    let pte ← walk0 pagetable va
    match pte with
    | none => victim_loop_with swapout pagetable n (va + PGSIZE)
    | some pte => do
      let e ← load64 pte
      if has e PTE_V ∧ has e PTE_U ∧ !has e PTE_COW then do
        let r ← swapout pagetable va
        if r = 0 then pure true else victim_loop_with swapout pagetable n (va + PGSIZE)
      else victim_loop_with swapout pagetable n (va + PGSIZE)

def victim_loop (pagetable : Nat) : Nat → Nat → K Bool := victim_loop_with swapout pagetable

def victim_scan : Nat → K Int
  | 0 => pure (-1)
  | n + 1 => do
    let p ← Op.gets fun s => s.proc (NPROC - (n + 1))
    if p.state ≠ .UNUSED ∧ p.pagetable ≠ 0 then do
      let found ← victim_loop p.pagetable ((p.sz + PGSIZE - 1) / PGSIZE) 0
      if found then pure 0 else victim_scan n
    else victim_scan n

-- Without the locks.
def select_victim_page : K Int := victim_scan NPROC

/-! ## Allocation -/

def kalloc_with (select_victim_page : K Int) : K (Option Nat) := do
  let r ← popfree
  let r ← match r with
    | some r => pure (some r)
    | none => do
      let v ← select_victim_page
      if v = 0 then popfree else pure none
  match r with
  | none => do
    Op.update fun s => { s with kalloc_failures := s.kalloc_failures + 1 }
    pure none
  | some r => do
    memset r 5 PGSIZE
    let i ← pageindex r
    setcount i 1
    memstats_inc_pages_allocated
    pure (some r)

def kalloc : K (Option Nat) := kalloc_with select_victim_page

/-! ## The locks that `select_victim_page` takes -/

/-- `acquire(&p->lock)` of slot `i` on a CPU that holds the locks of the slots `held`. -/
def acquire (held : List Nat) (i : Nat) : K (List Nat) := if i ∈ held then panic "acquire" else pure (i :: held)

/-- The sleep of process `me` until a block is written: it acquires its own lock, and `sched` lets it hold no other. -/
def disk_sleep (me : Nat) (held : List Nat) : K Unit := do
  let held ← acquire held me
  if held.length ≠ 1 then panic "sched locks" else pure ()

def victim_scan_locked (me : Nat) (held : List Nat) : Nat → K Int
  | 0 => pure (-1)
  | n + 1 => do
    let mine ← acquire held (NPROC - (n + 1))
    let p ← Op.gets fun s => s.proc (NPROC - (n + 1))
    if p.state ≠ .UNUSED ∧ p.pagetable ≠ 0 then do
      let found ← victim_loop_with (swapout_with (disk_sleep me mine)) p.pagetable ((p.sz + PGSIZE - 1) / PGSIZE) 0
      if found then pure 0 else victim_scan_locked me held n
    else victim_scan_locked me held n

/-- `kalloc` of process `me` on a CPU that holds the locks of the slots `held`. -/
def kalloc_locked (me : Nat) (held : List Nat) : K (Option Nat) := kalloc_with (victim_scan_locked me held NPROC)

def swapin (pagetable va : Nat) : K Nat := do
  let va := PGROUNDDOWN va
  let pte ← walk0 pagetable va
  match pte with
  | none => pure 0
  | some pte => do
    let e ← load64 pte
    if !has e PTE_SWAPPED then pure 0
    else do
      let swapblock := pte_to_swapblock e
      let r ← kalloc
      match r with
      | none => pure 0
      | some pa => do
        let b ← bread (swapblock_to_diskblock swapblock)
        move_from_buf pa b PGSIZE
        swapfree swapblock
        -- `swapout` kept no permissions in the entry, so `flags` has none.
        let e ← load64 pte
        store64 pte (PA2PTE pa ||| (e &&& 0x3FF#64 &&& ~~~PTE_SWAPPED) ||| PTE_V)
        pure pa

end Xv6
