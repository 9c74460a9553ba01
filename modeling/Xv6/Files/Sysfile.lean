import Xv6.Files.Dir

/-!
# System calls on files: `sysfile.c`, `file.c`, `pipe.c`

The arguments have been fetched: a path is the bytes before its NUL. What goes through a pipe is left out.
-/

open Xv6.Lib

namespace Xv6.Files

abbrev NPROC : Nat := 64
abbrev NOFILE : Nat := 16
abbrev NFILE : Nat := 100
abbrev NDEV : Int := 10

abbrev O_RDONLY : Nat := 0x000
abbrev O_WRONLY : Nat := 0x001
abbrev O_RDWR : Nat := 0x002
abbrev O_CREATE : Nat := 0x200
abbrev O_TRUNC : Nat := 0x400

/-! ## Open files -/

def filealloc : F (Option Nat) := do
  let f ← Op.gets fun s => (List.range NFILE).find? fun f => (s.ftable f).ref = 0
  match f with
  | none => pure none
  | some f => do
    Op.update fun s => s.setFile f fun e => { e with ref := 1 }
    pure (some f)

def filedup (f : Nat) : F Unit := do
  let e ← Op.gets fun s => s.ftable f
  if e.ref < 1 then panic "filedup" else Op.update fun s => s.setFile f fun e => { e with ref := e.ref + 1 }

def pipeclose (pi : Nat) (writable : Bool) : F Unit := do
  let q ← Op.gets fun s => s.pipe pi
  match q with
  | none => panic "pipeclose: no pipe"
  | some q =>
    let q := if writable then { q with writeopen := false } else { q with readopen := false }
    if q.readopen = false ∧ q.writeopen = false then Op.update fun s => s.setPipe pi none
    else Op.update fun s => s.setPipe pi (some q)

def fileclose (f : Nat) : F Unit := do
  let e ← Op.gets fun s => s.ftable f
  if e.ref < 1 then panic "fileclose"
  else if 1 < e.ref then Op.update fun s => s.setFile f fun e => { e with ref := e.ref - 1 }
  else do
    Op.update fun s => s.setFile f fun e => { e with ref := 0, type := .none }
    match e.type with
    | .none => pure ()
    | .pipe => pipeclose e.pipe e.writable
    | .inode | .device => iput e.ip

def fdalloc (p f : Nat) : F (Option Nat) := do
  let fd ← Op.gets fun s => (List.range NOFILE).find? fun fd => ((s.proc p).ofile fd).isNone
  match fd with
  | none => pure none
  | some fd => do
    Op.update fun s => s.setProc p fun q => { q with ofile := Function.update q.ofile fd (some f) }
    pure (some fd)

def argfd (p fd : Nat) : F (Option Nat) :=
  Op.gets fun s => if fd < NOFILE then (s.proc p).ofile fd else none

def cwd (p : Nat) : F Nat := Op.gets fun s => (s.proc p).cwd.getD 0

variable [Super]

/-! ## Links -/

-- `ip->nlink += d; iupdate(ip)`.
def addLinks (ip : Nat) (d : Int) : F Unit := do
  modifyInode ip fun n => { n with nlink := short (n.nlink + d) }
  iupdate ip

def sys_link_bad (ip : Nat) : F Int := do
  ilock ip
  addLinks ip (-1)
  iunlockput ip
  pure (-1)

def sys_link (p : Nat) (old new : List Byte) : F Int := do
  let c ← cwd p
  let ip ← namei c old
  match ip with
  | none => pure (-1)
  | some ip => do
    ilock ip
    let node ← inode ip
    if node.type = .dir then do
      iunlockput ip
      pure (-1)
    else do
      addLinks ip 1
      iunlock ip
      let dp ← nameiparent c new
      match dp with
      | none => sys_link_bad ip
      | some (dp, name) => do
        ilock dp
        let r ← dirlink dp name ip
        if r < 0 then do
          iunlockput dp
          sys_link_bad ip
        else do
          iunlockput dp
          iput ip
          pure 0

def isdirempty_loop (dp : Nat) : Nat → Nat → F Bool
  | 0, _ => pure true
  | k + 1, off => do
    let node ← inode dp
    if off < node.size then do
      let de ← read_dirent "isdirempty: readi" dp off
      if de.inum ≠ 0 then pure false else isdirempty_loop dp k (off + DIRENT_SIZE)
    else pure true

def isdirempty (dp : Nat) : F Bool := do
  let node ← inode dp
  isdirempty_loop dp (node.size + 1) (2 * DIRENT_SIZE)

def sys_unlink_entry (dp off ip : Nat) : F Int := do
  let r ← writei dp (.kernel (List.replicate DIRENT_SIZE 0)) off DIRENT_SIZE
  if r ≠ DIRENT_SIZE then panic "unlink: writei"
  else do
    let node ← inode ip
    Op.when (node.type = .dir) (addLinks dp (-1))
    iunlockput dp
    addLinks ip (-1)
    iunlockput ip
    pure 0

def sys_unlink (p : Nat) (path : List Byte) : F Int := do
  let c ← cwd p
  let dp ← nameiparent c path
  match dp with
  | none => pure (-1)
  | some (dp, name) => do
    ilock dp
    if namecmp name DOT ∨ namecmp name DOTDOT then do
      iunlockput dp
      pure (-1)
    else do
      let r ← dirlookup dp name
      match r with
      | none => do
        iunlockput dp
        pure (-1)
      | some (ip, off) => do
        ilock ip
        let node ← inode ip
        if node.nlink < 1 then panic "unlink: nlink < 1"
        else if node.type = .dir then do
          let empty ← isdirempty ip
          if empty then sys_unlink_entry dp off ip
          else do
            iunlockput ip
            iunlockput dp
            pure (-1)
        else sys_unlink_entry dp off ip

/-! ## Creation -/

def create_link (dp : Nat) (name : Name) (ip : Nat) (type : FileType) : F Bool := do
  if type = .dir then do
    let r ← dirlink ip DOT ip
    if r < 0 then pure false
    else do
      let r ← dirlink ip DOTDOT dp
      if r < 0 then pure false
      else do
        let r ← dirlink dp name ip
        pure (0 ≤ r)
  else do
    let r ← dirlink dp name ip
    pure (0 ≤ r)

def create_new (dp : Nat) (name : Name) (type : FileType) (major minor : Int) : F (Option Nat) := do
  let ip ← ialloc type
  match ip with
  | none => do
    iunlockput dp
    pure none
  | some ip => do
    ilock ip
    modifyInode ip fun n => { n with major := major, minor := minor, nlink := 1 }
    iupdate ip
    let ok ← create_link dp name ip type
    if ok then do
      Op.when (type = .dir) (addLinks dp 1)
      iunlockput dp
      pure (some ip)
    else do
      modifyInode ip fun n => { n with nlink := 0 }
      iupdate ip
      iunlockput ip
      iunlockput dp
      pure none

def create (c : Nat) (path : List Byte) (type : FileType) (major minor : Int) : F (Option Nat) := do
  let dp ← nameiparent c path
  match dp with
  | none => pure none
  | some (dp, name) => do
    ilock dp
    let r ← dirlookup dp name
    match r with
    | some (ip, _) => do
      iunlockput dp
      ilock ip
      let node ← inode ip
      if type = .file ∧ (node.type = .file ∨ node.type = .device) then pure (some ip)
      else do
        iunlockput ip
        pure none
    | none => create_new dp name type major minor

/-! ## Opening -/

def sys_open_inode (c : Nat) (path : List Byte) (omode : Nat) : F (Option Nat) :=
  if omode &&& O_CREATE ≠ 0 then create c path .file 0 0
  else do
    let ip ← namei c path
    match ip with
    | none => pure none
    | some ip => do
      ilock ip
      let node ← inode ip
      if node.type = .dir ∧ omode ≠ O_RDONLY then do
        iunlockput ip
        pure none
      else pure (some ip)

def sys_open_file (p : Nat) : F (Option (Nat × Nat)) := do
  let f ← filealloc
  match f with
  | none => pure none
  | some f => do
    let fd ← fdalloc p f
    match fd with
    | none => do
      fileclose f
      pure none
    | some fd => pure (some (f, fd))

def sys_open (p : Nat) (path : List Byte) (omode : Nat) : F Int := do
  let c ← cwd p
  let ip ← sys_open_inode c path omode
  match ip with
  | none => pure (-1)
  | some ip => do
    let node ← inode ip
    if node.type = .device ∧ (node.major < 0 ∨ node.major ≥ NDEV) then do
      iunlockput ip
      pure (-1)
    else do
      let r ← sys_open_file p
      match r with
      | none => do
        iunlockput ip
        pure (-1)
      | some (f, fd) => do
        Op.update fun s => s.setFile f fun e => { e with
          type := if node.type = .device then .device else .inode
          major := if node.type = .device then node.major else e.major
          off := if node.type = .device then e.off else 0
          ip := ip
          readable := omode &&& O_WRONLY = 0
          writable := omode &&& O_WRONLY ≠ 0 ∨ omode &&& O_RDWR ≠ 0 }
        Op.when (omode &&& O_TRUNC ≠ 0 ∧ node.type = .file) (itrunc ip)
        iunlock ip
        pure fd

def sys_mkdir (p : Nat) (path : List Byte) : F Int := do
  let c ← cwd p
  let ip ← create c path .dir 0 0
  match ip with
  | none => pure (-1)
  | some ip => do
    iunlockput ip
    pure 0

def sys_mknod (p : Nat) (path : List Byte) (major minor : Int) : F Int := do
  let c ← cwd p
  let ip ← create c path .device (short major) (short minor)
  match ip with
  | none => pure (-1)
  | some ip => do
    iunlockput ip
    pure 0

def sys_chdir (p : Nat) (path : List Byte) : F Int := do
  let c ← cwd p
  let ip ← namei c path
  match ip with
  | none => pure (-1)
  | some ip => do
    ilock ip
    let node ← inode ip
    if node.type ≠ .dir then do
      iunlockput ip
      pure (-1)
    else do
      iunlock ip
      iput c
      Op.update fun s => s.setProc p fun q => { q with cwd := some ip }
      pure 0

def sys_dup (p fd : Nat) : F Int := do
  let f ← argfd p fd
  match f with
  | none => pure (-1)
  | some f => do
    let fd ← fdalloc p f
    match fd with
    | none => pure (-1)
    | some fd => do
      filedup f
      pure fd

def sys_close (p fd : Nat) : F Int := do
  let f ← argfd p fd
  match f with
  | none => pure (-1)
  | some f => do
    Op.update fun s => s.setProc p fun q => { q with ofile := Function.update q.ofile fd none }
    fileclose f
    pure 0

/-! ## Pipes -/

section pipes
omit [Super]

def pipealloc (page : Option Nat) : F (Option (Nat × Nat)) := do
  let f0 ← filealloc
  match f0 with
  | none => pure none
  | some f0 => do
    let f1 ← filealloc
    match f1, page with
    | none, _ => do
      fileclose f0
      pure none
    | some f1, none => do
      fileclose f0
      fileclose f1
      pure none
    | some f1, some pi => do
      Op.update fun s => s.setPipe pi (some ⟨true, true⟩)
      Op.update fun s => s.setFile f0 fun e => { e with type := .pipe, readable := true, writable := false, pipe := pi }
      Op.update fun s => s.setFile f1 fun e => { e with type := .pipe, readable := false, writable := true, pipe := pi }
      pure (some (f0, f1))

def clear_fd (p fd : Nat) : F Unit :=
  Op.update fun s => s.setProc p fun q => { q with ofile := Function.update q.ofile fd none }

def sys_pipe (p : Nat) (page : Option Nat) (copied : Bool) : F Int := do
  let r ← pipealloc page
  match r with
  | none => pure (-1)
  | some (rf, wf) => do
    let fd0 ← fdalloc p rf
    match fd0 with
    | none => do
      fileclose rf
      fileclose wf
      pure (-1)
    | some fd0 => do
      let fd1 ← fdalloc p wf
      match fd1 with
      | none => do
        clear_fd p fd0
        fileclose rf
        fileclose wf
        pure (-1)
      | some fd1 =>
        if copied then pure 0
        else do
          clear_fd p fd0
          clear_fd p fd1
          fileclose rf
          fileclose wf
          pure (-1)

end pipes

/-! ## Processes -/

def dup_files (p np : Nat) : Nat → F Unit
  | 0 => pure ()
  | k + 1 => do
    let fd := NOFILE - (k + 1)
    let f ← argfd p fd
    match f with
    | none => dup_files p np k
    | some f => do
      filedup f
      Op.update fun s => s.setProc np fun q => { q with ofile := Function.update q.ofile fd (some f) }
      dup_files p np k

def fork_to (p np : Nat) : F Unit := do
  dup_files p np NOFILE
  let c ← cwd p
  idup c
  Op.update fun s => s.setProc np fun q => { q with cwd := some c }

def fork_files (p : Nat) : F Int := do
  let np ← Op.gets fun s => (List.range NPROC).find? fun j => (s.proc j).cwd.isNone
  match np with
  | none => pure (-1)
  | some np => do
    fork_to p np
    pure np

def close_files (p : Nat) : Nat → F Unit
  | 0 => pure ()
  | k + 1 => do
    let fd := NOFILE - (k + 1)
    let f ← argfd p fd
    match f with
    | none => close_files p k
    | some f => do
      fileclose f
      Op.update fun s => s.setProc p fun q => { q with ofile := Function.update q.ofile fd none }
      close_files p k

def exit_files (p : Nat) : F Unit := do
  close_files p NOFILE
  let c ← cwd p
  iput c
  Op.update fun s => s.setProc p fun q => { q with cwd := none }

def read_parts (ip : Nat) : List (Nat × Nat) → F Unit
  | [] => pure ()
  | (off, n) :: rest => do
    let _ ← readi ip off n
    read_parts ip rest

def exec_files (p : Nat) (path : List Byte) (parts : List (Nat × Nat)) : F Unit := do
  let c ← cwd p
  let ip ← namei c path
  match ip with
  | none => pure ()
  | some ip => do
    ilock ip
    read_parts ip parts
    iunlockput ip

def userinit_files (p : Nat) : F Unit := do
  let r ← namei 0 [SLASH]
  Op.update fun s => s.setProc p fun q => { q with cwd := r }

/-! ## Steps -/

inductive Call where
  | link (old new : List Byte)
  | unlink (path : List Byte)
  | open (path : List Byte) (omode : Nat)
  | mkdir (path : List Byte)
  | mknod (path : List Byte) (major minor : Int)
  | chdir (path : List Byte)
  | dup (fd : Nat)
  | close (fd : Nat)
  | fork
  | exit

-- A path ends at its first NUL.
def argstr (path : List Byte) : List Byte := path.takeWhile (· ≠ 0)

def perform (p : Nat) : Call → F Unit
  | .link old new => do let _ ← sys_link p (argstr old) (argstr new)
  | .unlink path => do let _ ← sys_unlink p (argstr path)
  | .open path omode => do let _ ← sys_open p (argstr path) omode
  | .mkdir path => do let _ ← sys_mkdir p (argstr path)
  | .mknod path major minor => do let _ ← sys_mknod p (argstr path) major minor
  | .chdir path => do let _ ← sys_chdir p (argstr path)
  | .dup fd => do let _ ← sys_dup p fd
  | .close fd => do let _ ← sys_close p fd
  | .fork => do let _ ← fork_files p
  | .exit => exit_files p

end Xv6.Files
