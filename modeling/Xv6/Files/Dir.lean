import Xv6.Files.Inode

/-!
# Directories and paths: `fs.c`

A directory is a file of entries of 16 bytes. A path is a list of bytes without NUL, and a name has
at most `DIRSIZ` of them.
-/

open Xv6.Lib

namespace Xv6.Files

abbrev DIRSIZ : Nat := 14
abbrev DIRENT_SIZE : Nat := 16

abbrev Name := List Byte

structure Dirent where
  inum : Nat
  name : Name
  deriving DecidableEq

-- What `strncmp` sees of a name of `DIRSIZ` bytes.
def cstring (bs : List Byte) : Name := (bs.take DIRSIZ).takeWhile (· ≠ 0)

def Dirent.decode (bs : List Byte) : Dirent :=
  ⟨(bs.getD 0 0).toNat + 256 * (bs.getD 1 0).toNat, cstring (bs.drop 2)⟩

-- `inum` is a `ushort`, and `strncpy` fills up with zeros.
def Dirent.encode (de : Dirent) : List Byte :=
  [BitVec.ofNat 8 de.inum, BitVec.ofNat 8 (de.inum / 256)] ++
    (cstring de.name ++ List.replicate DIRSIZ 0).take DIRSIZ

abbrev DOT : Name := [0x2e#8]
abbrev DOTDOT : Name := [0x2e#8, 0x2e#8]

def namecmp (s t : Name) : Bool := cstring s = cstring t

variable [Super]

def read_dirent (msg : String) (dp off : Nat) : F Dirent := do
  let bs ← readi dp off DIRENT_SIZE
  if bs.length ≠ DIRENT_SIZE then panic msg else pure (Dirent.decode bs)

-- `k` is at least the number of entries from `off` on.
def dirlookup_loop (dp : Nat) (name : Name) : Nat → Nat → F (Option (Nat × Nat))
  | 0, _ => pure none
  | k + 1, off => do
    let node ← inode dp
    if off < node.size then do
      let de ← read_dirent "dirlookup read" dp off
      if de.inum ≠ 0 ∧ namecmp name de.name then do
        iget de.inum
        pure (some (de.inum, off))
      else dirlookup_loop dp name k (off + DIRENT_SIZE)
    else pure none

def dirlookup (dp : Nat) (name : Name) : F (Option (Nat × Nat)) := do
  let node ← inode dp
  if node.type ≠ .dir then panic "dirlookup not DIR" else dirlookup_loop dp name (node.size + 1) 0

def dirlink_loop (dp : Nat) : Nat → Nat → F Nat
  | 0, off => pure off
  | k + 1, off => do
    let node ← inode dp
    if off < node.size then do
      let de ← read_dirent "dirlink read" dp off
      if de.inum = 0 then pure off else dirlink_loop dp k (off + DIRENT_SIZE)
    else pure off

def dirlink (dp : Nat) (name : Name) (inum : Nat) : F Int := do
  let r ← dirlookup dp name
  match r with
  | some (ip, _) => do
    iput ip
    pure (-1)
  | none => do
    let node ← inode dp
    let off ← dirlink_loop dp (node.size + 1) 0
    let r ← writei dp (.kernel (Dirent.encode ⟨inum, name⟩)) off DIRENT_SIZE
    if r ≠ DIRENT_SIZE then pure (-1) else pure 0

/-! ## Paths -/

abbrev SLASH : Byte := 0x2f#8

def skipelem (path : List Byte) : Option (Name × List Byte) :=
  let path := path.dropWhile (· = SLASH)
  if path = [] then none
  else some ((path.takeWhile (· ≠ SLASH)).take DIRSIZ,
    (path.dropWhile (· ≠ SLASH)).dropWhile (· = SLASH))

omit [Super] in
theorem skipelem_lt {path rest : List Byte} {name : Name} (h : skipelem path = some (name, rest)) : rest.length < path.length := by
  unfold skipelem at h
  dsimp only at h
  generalize hq : path.dropWhile (fun b => decide (b = SLASH)) = q at h
  have hle : q.length ≤ path.length := hq ▸ (List.dropWhile_sublist _).length_le
  split_ifs at h with h0
  cases h
  -- The first byte is not a slash, and goes with the name.
  have hlt : (q.dropWhile fun b => decide (b ≠ SLASH)).length < q.length := by
    cases q with
    | nil => exact absurd rfl h0
    | cons b q =>
      have hb : b ≠ SLASH := by
        have := List.head_dropWhile_not (l := path) (fun b => decide (b = SLASH)) (by rw [hq]; simp)
        simpa only [hq, List.head_cons, decide_eq_false_iff_not] using this
      rw [List.dropWhile_cons_of_pos (by simpa using hb)]
      exact Nat.lt_succ_of_le (List.dropWhile_sublist _).length_le
  have := (List.dropWhile_sublist (l := q.dropWhile fun b => decide (b ≠ SLASH)) fun b => decide (b = SLASH)).length_le
  omega

-- `k` is at least the number of elements of the path.
def namex_loop (nameiparent : Bool) : Nat → List Byte → Nat → F (Option (Nat × Name))
  | 0, _, _ => pure none
  | k + 1, path, ip =>
    match skipelem path with
    | none =>
      if nameiparent then do
        iput ip
        pure none
      else pure (some (ip, []))
    | some (name, path) => do
      ilock ip
      let node ← inode ip
      if node.type ≠ .dir then do
        iunlockput ip
        pure none
      else if nameiparent = true ∧ path = [] then do
        iunlock ip
        pure (some (ip, name))
      else do
        let next ← dirlookup ip name
        match next with
        | none => do
          iunlockput ip
          pure none
        | some (next, _) => do
          iunlockput ip
          namex_loop nameiparent k path next

def namex (cwd : Nat) (path : List Byte) (nameiparent : Bool) : F (Option (Nat × Name)) :=
  if path.head? = some SLASH then do
    iget ROOTINO
    namex_loop nameiparent (path.length + 1) path ROOTINO
  else do
    idup cwd
    namex_loop nameiparent (path.length + 1) path cwd

def namei (cwd : Nat) (path : List Byte) : F (Option Nat) := do
  let r ← namex cwd path false
  pure (r.map Prod.fst)

def nameiparent (cwd : Nat) (path : List Byte) : F (Option (Nat × Name)) := namex cwd path true

end Xv6.Files
