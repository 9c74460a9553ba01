import Xv6.Proc

/-!
# Program loading: `exec.c`

An inode is the bytes that `readi` finds in it, and the log and the inode locks are left out.
-/

open Xv6.Lib

namespace Xv6

variable [Image]

/-! ## Reading the file -/

-- `off` and `n` are `uint`.
def readi (ip : List Byte) (off n : Nat) : List Byte :=
  if off > ip.length ∨ (off + n) % 2 ^ 32 < off then [] else (ip.drop off).take n

def field (bs : List Byte) (off n : Nat) : Nat :=
  ((bs.drop off).take n).foldr (fun b acc => b.toNat + 256 * acc) 0

abbrev ELF_MAGIC : Nat := 0x464C457F
abbrev ELF_PROG_LOAD : Nat := 1
abbrev ELFHDR_SIZE : Nat := 64
abbrev PROGHDR_SIZE : Nat := 56

structure ElfHdr where
  magic : Nat
  entry : Nat
  phoff : Nat
  phnum : Nat

structure ProgHdr where
  type : Nat
  flags : Nat
  off : Nat
  vaddr : Nat
  filesz : Nat
  memsz : Nat

def elfhdr (bs : List Byte) : ElfHdr :=
  { magic := field bs 0 4, entry := field bs 24 8, phoff := field bs 32 8, phnum := field bs 56 2 }

def proghdr (bs : List Byte) : ProgHdr :=
  { type := field bs 0 4, flags := field bs 4 4, off := field bs 8 8, vaddr := field bs 16 8,
    filesz := field bs 32 8, memsz := field bs 40 8 }

def flags2perm (flags : Nat) : Pte :=
  (if flags % 2 = 1 then PTE_X else 0) ||| (if flags / 2 % 2 = 1 then PTE_W else 0)

/-! ## Segments -/

def loadseg_loop (pagetable va : Nat) (ip : List Byte) (offset sz : Nat) : Nat → Nat → K Int
  | 0, _ => pure 0
  | k + 1, i => do
    let pa ← walkaddr pagetable (va + i)
    if pa = 0 then panic "loadseg: address should exist"
    else do
      let n := if sz - i < PGSIZE then sz - i else PGSIZE
      let bs := readi ip ((offset + i) % 2 ^ 32) n
      blit pa bs
      if bs.length ≠ n then pure (-1) else loadseg_loop pagetable va ip offset sz k (i + PGSIZE)

def loadseg (pagetable va : Nat) (ip : List Byte) (offset sz : Nat) : K Int :=
  loadseg_loop pagetable va ip (offset % 2 ^ 32) (sz % 2 ^ 32)
    ((sz % 2 ^ 32 + PGSIZE - 1) / PGSIZE) 0

def kexec_load (pagetable : Nat) (ip : List Byte) : Nat → Nat → Nat → K (Bool × Nat)
  | 0, _, sz => pure (true, sz)
  | n + 1, off, sz => do
    let bs := readi ip (off % 2 ^ 32) PROGHDR_SIZE
    let ph := proghdr bs
    if bs.length ≠ PROGHDR_SIZE then pure (false, sz)
    else if ph.type ≠ ELF_PROG_LOAD then kexec_load pagetable ip n (off + PROGHDR_SIZE) sz
    else if ph.memsz < ph.filesz then pure (false, sz)
    else if (ph.vaddr + ph.memsz) % 2 ^ 64 < ph.vaddr then pure (false, sz)
    else if ph.vaddr % PGSIZE ≠ 0 then pure (false, sz)
    else do
      let sz1 ← uvmalloc pagetable sz (ph.vaddr + ph.memsz) (flags2perm ph.flags)
      if sz1 = 0 then pure (false, sz)
      else do
        let r ← loadseg pagetable ph.vaddr ip ph.off ph.filesz
        if r < 0 then pure (false, sz1)
        else kexec_load pagetable ip n (off + PROGHDR_SIZE) sz1

/-! ## The argument stack -/

-- `uint64` subtraction, and the alignment of `sp` to 16 bytes.
def push (sp n : Nat) : Nat :=
  let sp := (sp + 2 ^ 64 - n % 2 ^ 64) % 2 ^ 64
  sp - sp % 16

def kexec_args (i pagetable stackbase : Nat) :
    List (List Byte) → Nat → List Nat → K (Option (Nat × List Nat))
  | [], sp, ustack => pure (some (sp, ustack))
  | arg :: argv, sp, ustack =>
    if ustack.length ≥ MAXARG then pure none
    else
      let sp := push sp (arg.length + 1)
      if sp < stackbase then pure none
      else do
        let r ← copyout i pagetable sp (arg ++ [0])
        if r < 0 then pure none else kexec_args i pagetable stackbase argv sp (ustack ++ [sp])

def word_bytes (n : Nat) : List Byte :=
  (List.range 8).map fun k => (BitVec.ofNat 64 n).extractLsb' (8 * k) 8

def kexec_stack (i pagetable : Nat) (argv : List (List Byte)) (sz : Nat) :
    K (Option (Nat × Nat) × Nat) := do
  let sz := PGROUNDUP sz
  let sz1 ← uvmalloc pagetable sz (sz + (USERSTACK + 1) * PGSIZE) PTE_W
  if sz1 = 0 then pure (none, sz)
  else do
    let sz := sz1
    uvmclear pagetable (sz - (USERSTACK + 1) * PGSIZE)
    let stackbase := sz - USERSTACK * PGSIZE
    let r ← kexec_args i pagetable stackbase argv sz []
    match r with
    | none => pure (none, sz)
    | some (sp, ustack) =>
      let sp := push sp ((ustack.length + 1) * 8)
      if sp < stackbase then pure (none, sz)
      else do
        let r ← copyout i pagetable sp ((ustack ++ [0]).flatMap word_bytes)
        if r < 0 then pure (none, sz) else pure (some (ustack.length, sp), sz)

def safestrcpy (t : List Byte) (n : Nat) : List Byte := (t.takeWhile (· ≠ 0)).take (n - 1)

def basename (path : List Byte) : List Byte := (path.reverse.takeWhile (· ≠ 0x2f#8)).reverse

-- `file` is what `namei(path)` finds.
def kexec (i : Nat) (path : List Byte) (file : Option (List Byte)) (argv : List (List Byte)) :
    K Int := do
  match file with
  | none => pure (-1)
  | some ip =>
    let bs := readi ip 0 ELFHDR_SIZE
    let elf := elfhdr bs
    if bs.length ≠ ELFHDR_SIZE then pure (-1)
    else if elf.magic ≠ ELF_MAGIC then pure (-1)
    else do
      let r ← proc_pagetable i
      match r with
      | none => pure (-1)
      | some pagetable => do
        let (ok, sz) ← kexec_load pagetable ip elf.phnum elf.phoff 0
        if !ok then do
          proc_freepagetable pagetable sz
          pure (-1)
        else do
          let p ← getProc i
          let (r, sz) ← kexec_stack i pagetable argv sz
          match r with
          | none => do
            proc_freepagetable pagetable sz
            pure (-1)
          | some (argc, sp) => do
            store64 (p.trapframe + TF_A1) (BitVec.ofNat 64 sp)
            modifyProc i fun p => { p with
              name := safestrcpy (basename path) 16, pagetable := pagetable, sz := sz }
            store64 (p.trapframe + TF_EPC) (BitVec.ofNat 64 elf.entry)
            store64 (p.trapframe + TF_SP) (BitVec.ofNat 64 sp)
            proc_freepagetable p.pagetable p.sz
            pure argc

end Xv6
