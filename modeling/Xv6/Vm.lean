import Xv6.Swap

/-!
# Virtual memory: `vm.c`

The functions that run in the current process take its slot, which is what `myproc()` finds.
-/

open Xv6.Lib

namespace Xv6

variable [Image]

def walk (pagetable va : Nat) (alloc : Bool) : K (Option Nat) :=
  walk_with (if alloc then some kalloc else none) pagetable va

def walkaddr (pagetable va : Nat) : K Nat :=
  if va ≥ MAXVA then pure 0
  else do
    let pte ← walk pagetable va false
    match pte with
    | none => pure 0
    | some pte => do
      let e ← load64 pte
      if !has e PTE_V then pure 0
      else if !has e PTE_U then pure 0
      else pure (PTE2PA e)

/-! ## Mapping and unmapping -/

def mappages_loop_with (kalloc : K (Option Nat)) (pagetable : Nat) (perm : Pte) : Nat → Nat → Nat → K Int
  | n, a, pa => do
    let pte ← walk_with (some kalloc) pagetable a
    match pte with
    | none => pure (-1)
    | some pte => do
      let e ← load64 pte
      if has e PTE_V then panic "mappages: remap"
      else do
        store64 pte (PA2PTE pa ||| perm ||| PTE_V)
        match n with
        | 0 => pure 0
        | n + 1 => mappages_loop_with kalloc pagetable perm n (a + PGSIZE) (pa + PGSIZE)

def mappages_loop (pagetable : Nat) (perm : Pte) : Nat → Nat → Nat → K Int := mappages_loop_with kalloc pagetable perm

def mappages_with (kalloc : K (Option Nat)) (pagetable va size pa : Nat) (perm : Pte) : K Int :=
  if va % PGSIZE ≠ 0 then panic "mappages: va not aligned"
  else if size % PGSIZE ≠ 0 then panic "mappages: size not aligned"
  else if size = 0 then panic "mappages: size"
  else mappages_loop_with kalloc pagetable perm (size / PGSIZE - 1) va pa

def mappages (pagetable va size pa : Nat) (perm : Pte) : K Int := mappages_with kalloc pagetable va size pa perm

def uvmcreate_with (kalloc : K (Option Nat)) : K (Option Nat) := do
  let r ← kalloc
  match r with
  | none => pure none
  | some pagetable => do
    memset pagetable 0 PGSIZE
    pure (some pagetable)

def uvmcreate : K (Option Nat) := uvmcreate_with kalloc

def uvmunmap_loop (pagetable : Nat) (do_free : Bool) : Nat → Nat → K Unit
  | 0, _ => pure ()
  | n + 1, a => do
    let pte ← walk pagetable a false
    match pte with
    | none => uvmunmap_loop pagetable do_free n (a + PGSIZE)
    | some pte => do
      let e ← load64 pte
      if !has e PTE_V ∧ !has e PTE_SWAPPED then uvmunmap_loop pagetable do_free n (a + PGSIZE)
      else do
        if do_free then
          if has e PTE_SWAPPED then swapfree (pte_to_swapblock e)
          else kfree (PTE2PA e)
        else pure ()
        store64 pte 0
        uvmunmap_loop pagetable do_free n (a + PGSIZE)

def uvmunmap (pagetable va npages : Nat) (do_free : Bool) : K Unit :=
  if va % PGSIZE ≠ 0 then panic "uvmunmap: not aligned"
  else uvmunmap_loop pagetable do_free npages va

def uvmdealloc (pagetable oldsz newsz : Nat) : K Nat :=
  if newsz ≥ oldsz then pure oldsz
  else do
    if PGROUNDUP newsz < PGROUNDUP oldsz then
      uvmunmap pagetable (PGROUNDUP newsz) ((PGROUNDUP oldsz - PGROUNDUP newsz) / PGSIZE) true
    else pure ()
    pure newsz

def uvmalloc_loop (pagetable oldsz : Nat) (xperm : Pte) : Nat → Nat → K Bool
  | 0, _ => pure true
  | n + 1, a => do
    let mem ← kalloc
    match mem with
    | none => do
      let _ ← uvmdealloc pagetable a oldsz
      pure false
    | some mem => do
      memset mem 0 PGSIZE
      let r ← mappages pagetable a PGSIZE mem (PTE_R ||| PTE_U ||| xperm)
      if r ≠ 0 then do
        kfree mem
        let _ ← uvmdealloc pagetable a oldsz
        pure false
      else uvmalloc_loop pagetable oldsz xperm n (a + PGSIZE)

def uvmalloc (pagetable oldsz newsz : Nat) (xperm : Pte) : K Nat :=
  if newsz < oldsz then pure oldsz
  else do
    let start := PGROUNDUP oldsz
    let ok ← uvmalloc_loop pagetable start xperm ((newsz - start + PGSIZE - 1) / PGSIZE) start
    if ok then pure newsz else pure 0

def freewalk_loop (freewalk : Nat → K Unit) (pagetable : Nat) : Nat → K Unit
  | 0 => pure ()
  | n + 1 => do
    let i := 512 - (n + 1)
    let pte ← load64 (pagetable + 8 * i)
    if has pte PTE_V ∧ pte &&& (PTE_R ||| PTE_W ||| PTE_X) = 0#64 then do
      freewalk (PTE2PA pte)
      store64 (pagetable + 8 * i) 0
      freewalk_loop freewalk pagetable n
    else if has pte PTE_V then panic "freewalk: leaf"
    else freewalk_loop freewalk pagetable n

-- The recursion of the source has no bound of its own. Out of `depth` is out of stack.
def freewalk : Nat → Nat → K Unit
  | 0, _ => panic "freewalk: stack overflow"
  | depth + 1, pagetable => do
    freewalk_loop (freewalk depth) pagetable 512
    kfree pagetable

-- More levels than there are pages to be tables.
abbrev FREEWALK_DEPTH : Nat := (PHYSTOP - KERNBASE) / PGSIZE + 1

def uvmfree (pagetable sz : Nat) : K Unit := do
  if sz > 0 then uvmunmap pagetable 0 (PGROUNDUP sz / PGSIZE) true else pure ()
  freewalk FREEWALK_DEPTH pagetable

-- `*pte &= ~PTE_U`, for the stack guard page.
def uvmclear (pagetable va : Nat) : K Unit := do
  let pte ← walk pagetable va false
  match pte with
  | none => panic "uvmclear"
  | some pte => do
    let e ← load64 pte
    store64 pte (e &&& ~~~PTE_U)

/-! ## Fork -/

def uvmcopy_share_with (kalloc : K (Option Nat)) (new i pa : Nat) (flags : Pte) : K Bool := do
  let r ← mappages_with kalloc new i PGSIZE pa flags
  if r ≠ 0 then pure false
  else do
    krefinc pa
    pure true

def uvmcopy_share (new i pa : Nat) (flags : Pte) : K Bool := uvmcopy_share_with kalloc new i pa flags

def uvmcopy_page_with (kalloc : K (Option Nat)) (old new i : Nat) : K Bool := do
  let pte ← walk old i false
  match pte with
  | none => pure true
  | some pte => do
    let e ← load64 pte
    if !has e PTE_V then pure true
    else if !has (PTE_FLAGS e) PTE_U then pure true
    else if has (PTE_FLAGS e) PTE_COW then uvmcopy_share_with kalloc new i (PTE2PA e) (PTE_FLAGS e)
    else if has (PTE_FLAGS e) PTE_W then do
      store64 pte (e &&& ~~~PTE_W ||| PTE_COW)
      let ok ← uvmcopy_share_with kalloc new i (PTE2PA e) (PTE_FLAGS e &&& ~~~PTE_W ||| PTE_COW)
      if ok then memstats_inc_cow_shared else pure ()
      pure ok
    else do
      -- Both `else` arms of the source, which are the same.
      let ok ← uvmcopy_share_with kalloc new i (PTE2PA e) (PTE_FLAGS e)
      if ok then memstats_inc_cow_shared else pure ()
      pure ok

def uvmcopy_page (old new i : Nat) : K Bool := uvmcopy_page_with kalloc old new i

def uvmcopy_loop_with (kalloc : K (Option Nat)) (old new : Nat) : Nat → Nat → K Int
  | 0, _ => pure 0
  | n + 1, i => do
    let ok ← uvmcopy_page_with kalloc old new i
    if ok then uvmcopy_loop_with kalloc old new n (i + PGSIZE)
    else do
      uvmunmap new 0 (i / PGSIZE) true
      pure (-1)

def uvmcopy_loop (old new : Nat) : Nat → Nat → K Int := uvmcopy_loop_with kalloc old new

def uvmcopy_with (kalloc : K (Option Nat)) (old new sz : Nat) : K Int :=
  uvmcopy_loop_with kalloc old new ((sz + PGSIZE - 1) / PGSIZE) 0

/-! ## Page faults -/

def ismapped (pagetable va : Nat) : K Bool := do
  let pte ← walk pagetable va false
  match pte with
  | none => pure false
  | some pte => do
    let e ← load64 pte
    pure (has e PTE_V)

def vmfault (p pagetable va : Nat) : K Nat := do
  let pr ← Op.gets (·.proc p)
  if va ≥ pr.sz then pure 0
  else do
    let va := PGROUNDDOWN va
    let mapped ← ismapped pagetable va
    if mapped then pure 0
    else do
      let mem ← kalloc
      match mem with
      | none => pure 0
      | some mem => do
        memset mem 0 PGSIZE
        let r ← mappages pr.pagetable va PGSIZE mem (PTE_W ||| PTE_U ||| PTE_R)
        if r ≠ 0 then do
          kfree mem
          pure 0
        else pure mem

def cowfault (pagetable va : Nat) : K Int := do
  let va := PGROUNDDOWN va
  let pte ← walk pagetable va false
  match pte with
  | none => pure (-1)
  | some pte => do
    let e ← load64 pte
    if !has e PTE_V then pure (-1)
    else if !has e PTE_COW then pure (-1)
    else do
      let mem ← kalloc
      match mem with
      | none => pure (-1)
      | some mem => do
        memmove mem (PTE2PA e) PGSIZE
        store64 pte (PA2PTE mem ||| (PTE_FLAGS e &&& ~~~PTE_COW) ||| PTE_W)
        -- The new count is dropped, also when it is 0.
        let _ ← krefdec (PTE2PA e)
        pure 0

/-! ## Copies between the kernel and user space -/

def copyout_check (pagetable va0 pte pa0 : Nat) : K (Option Nat) := do
  let e ← load64 pte
  if has e PTE_COW then do
    let r ← cowfault pagetable va0
    if r ≠ 0 then pure none
    else do
      let pa0 ← walkaddr pagetable va0
      if pa0 = 0 then pure none
      else do
        let pte ← walk pagetable va0 false
        match pte with
        | none => pure none
        | some pte => do
          let e ← load64 pte
          if !has e PTE_W then pure none else pure (some pa0)
  else if !has e PTE_W then pure none
  else pure (some pa0)

def copyout_lazy (p pagetable va0 : Nat) : K (Option Nat) := do
  let pa0 ← vmfault p pagetable va0
  if pa0 = 0 then pure none
  else do
    let pte ← walk pagetable va0 false
    match pte with
    | none => pure none
    | some pte => copyout_check pagetable va0 pte pa0

def copyout_page (p pagetable va0 : Nat) : K (Option Nat) := do
  let pte ← walk pagetable va0 false
  match pte with
  | none => copyout_lazy p pagetable va0
  | some pte => do
    let e ← load64 pte
    if !has e PTE_V then copyout_lazy p pagetable va0
    else do
      let pa0 ← walkaddr pagetable va0
      if pa0 = 0 then pure none else copyout_check pagetable va0 pte pa0

def blit (a : Nat) (bs : List Byte) : K Unit :=
  Op.update fun s => { s with mem := s.mem.blit a bs }

def copyout_loop (p pagetable : Nat) : Nat → Nat → List Byte → K Int
  | 0, _, _ => pure 0
  | fuel + 1, dstva, src =>
    if src.length = 0 then pure 0
    else do
      let va0 := PGROUNDDOWN dstva
      if va0 ≥ MAXVA then pure (-1)
      else do
        let pa0 ← copyout_page p pagetable va0
        match pa0 with
        | none => pure (-1)
        | some pa0 => do
          let n := min (PGSIZE - (dstva - va0)) src.length
          blit (pa0 + (dstva - va0)) (src.take n)
          copyout_loop p pagetable fuel (va0 + PGSIZE) (src.drop n)

def copyout (p pagetable dstva : Nat) (src : List Byte) : K Int :=
  copyout_loop p pagetable src.length dstva src

def copyin_page (p pagetable va0 : Nat) : K Nat := do
  let pa0 ← walkaddr pagetable va0
  if pa0 = 0 then vmfault p pagetable va0 else pure pa0

def copyin_loop (p pagetable : Nat) : Nat → List Byte → Nat → Nat → K (Int × List Byte)
  | 0, dst, _, _ => pure (0, dst)
  | fuel + 1, dst, srcva, len =>
    if len = 0 then pure (0, dst)
    else do
      let va0 := PGROUNDDOWN srcva
      let pa0 ← copyin_page p pagetable va0
      if pa0 = 0 then pure (-1, dst)
      else do
        let n := min (PGSIZE - (srcva - va0)) len
        let bs ← Op.gets fun s => s.mem.slice (pa0 + (srcva - va0)) n
        copyin_loop p pagetable fuel (dst ++ bs) (va0 + PGSIZE) (len - n)

def copyin (p pagetable srcva len : Nat) : K (Int × List Byte) :=
  copyin_loop p pagetable len [] srcva len

def upto_nul : List Byte → List Byte × Bool
  | [] => ([], false)
  | b :: bs => if b = 0 then ([0], true) else ((b :: (upto_nul bs).1), (upto_nul bs).2)

def copyinstr_loop (pagetable : Nat) : Nat → List Byte → Nat → Nat → K (Int × List Byte)
  | 0, dst, _, _ => pure (-1, dst)
  | fuel + 1, dst, srcva, max =>
    if max = 0 then pure (-1, dst)
    else do
      let va0 := PGROUNDDOWN srcva
      let pa0 ← walkaddr pagetable va0
      if pa0 = 0 then pure (-1, dst)
      else do
        let n := min (PGSIZE - (srcva - va0)) max
        let bs ← Op.gets fun s => s.mem.slice (pa0 + (srcva - va0)) n
        let (got, nul) := upto_nul bs
        if nul then pure (0, dst ++ got)
        else copyinstr_loop pagetable fuel (dst ++ got) (va0 + PGSIZE) (max - n)

def copyinstr (pagetable srcva max : Nat) : K (Int × List Byte) :=
  copyinstr_loop pagetable max [] srcva max

end Xv6
