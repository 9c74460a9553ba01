import Xv6.Fs.Bio

/-!
# The log: `log.c`

The loops over the logged blocks run one body for each `tail`. In `begin_op` and `end_op` the
parts between `acquire(&log.lock)` and `release(&log.lock)` are functions of their own.
-/

open Xv6.Lib

namespace Xv6.Fs

def getLog : F Log := Op.gets (·.log)

def setLog (f : Log → Log) : F Unit := Op.update (·.setLog f)

-- `memmove(to->data, from->data, BSIZE)`
def copy_data (dst src : Nat) : F Unit := do
  let s ← Op.gets id
  set_data dst (s.buf src).data

/-! ## The header block -/

def header_fill (lh : List Nat) (d : Data) : Data :=
  Block.setWords (Block.setWord d 0 (BitVec.ofNat 32 lh.length)) 1 (lh.map (BitVec.ofNat 32))

def header_n (d : Data) : Nat := (Block.word d 0).toInt.toNat

def header_blocks (d : Data) : List Nat := (Block.words d 1 (header_n d)).map BitVec.toNat

def read_head (p : Nat) : F Unit := do
  let log ← getLog
  let b ← bread p log.dev log.start
  let s ← Op.gets id
  setLog fun log => { log with lh := header_blocks (s.buf b).data }
  brelse p b

def write_head (p : Nat) : F Unit := do
  let log ← getLog
  let b ← bread p log.dev log.start
  let s ← Op.gets id
  set_data b (header_fill log.lh (s.buf b).data)
  bwrite p b
  brelse p b

/-! ## Commit and recovery -/

def install_trans_body (p : Nat) (recovering : Bool) (tail : Nat) : F Unit := do
  let log ← getLog
  let lbuf ← bread p log.dev (log.start + tail + 1)
  let dbuf ← bread p log.dev (log.lh.getD tail 0)
  copy_data dbuf lbuf
  bwrite p dbuf
  if recovering then pure () else bunpin dbuf
  brelse p lbuf
  brelse p dbuf

def write_log_body (p tail : Nat) : F Unit := do
  let log ← getLog
  let dst ← bread p log.dev (log.start + tail + 1)
  let src ← bread p log.dev (log.lh.getD tail 0)
  copy_data dst src
  bwrite p dst
  brelse p src
  brelse p dst

def for_tail (body : Nat → F Unit) : Nat → Nat → F Unit
  | 0, _ => pure ()
  | m + 1, tail => do
    body tail
    for_tail body m (tail + 1)

def install_trans (p : Nat) (recovering : Bool) : F Unit := do
  let log ← getLog
  for_tail (install_trans_body p recovering) log.lh.length 0

def write_log (p : Nat) : F Unit := do
  let log ← getLog
  for_tail (write_log_body p) log.lh.length 0

def clear_lh : F Unit := setLog fun log => { log with lh := [] }

def recover_from_log (p : Nat) : F Unit := do
  read_head p
  install_trans p true
  clear_lh
  write_head p

def commit (p : Nat) : F Unit := do
  let log ← getLog
  if log.lh.length > 0 then do
    write_log p
    write_head p
    install_trans p false
    clear_lh
    write_head p
  else pure ()

/-! ## Operations -/

-- One round of the loop in `begin_op`: `false` when it sleeps.
def begin_op_round : F Bool := do
  let log ← getLog
  if log.committing then pure false
  else if (log.lh.length : Int) + (log.outstanding + 1) * MAXOPBLOCKS > LOGBLOCKS then pure false
  else do
    setLog fun log => { log with outstanding := log.outstanding + 1 }
    pure true

-- `end_op` up to the first release, with `do_commit`.
def end_op_first : F Bool := do
  setLog fun log => { log with outstanding := log.outstanding - 1 }
  let log ← getLog
  if log.committing then panic "log.committing"
  else if log.outstanding = 0 then do
    setLog fun log => { log with committing := true }
    pure true
  else pure false

def end_op_last : F Unit := setLog fun log => { log with committing := false }

def end_op (p : Nat) : F Unit := do
  let do_commit ← end_op_first
  if do_commit then do
    commit p
    end_op_last
  else pure ()

def log_write (i : Nat) : F Unit := do
  let log ← getLog
  let s ← Op.gets id
  if log.lh.length ≥ LOGBLOCKS then panic "too big a transaction"
  else if log.outstanding < 1 then panic "log_write outside of trans"
  else if (s.buf i).blockno ∈ log.lh then pure ()
  else do
    bpin i
    setLog fun log => { log with lh := log.lh ++ [(s.buf i).blockno] }

/-! ## The header, read back -/

section header
variable {lh : List Nat} {d : Data}

theorem header_n_fill (h : lh.length ≤ LOGBLOCKS) : header_n (header_fill lh d) = lh.length := by
  have hlen : lh.length < 2 ^ 31 := by simp only [LOGBLOCKS, MAXOPBLOCKS] at h; omega
  unfold header_n header_fill
  rw [Block.word_setWords_of_lt (by decide) (by decide), Block.word_setWord (by decide)]
  rw [BitVec.toInt_eq_toNat_of_lt]
  · simp only [BitVec.toNat_ofNat, Int.toNat_natCast]
    exact Nat.mod_eq_of_lt (by omega)
  · rw [BitVec.toNat_ofNat, Nat.mod_eq_of_lt (by omega)]
    omega

theorem header_blocks_fill (h : lh.length ≤ LOGBLOCKS) (hb : ∀ b ∈ lh, b < 2 ^ 32) :
    header_blocks (header_fill lh d) = lh := by
  have hfits : 4 * (1 + (lh.map (BitVec.ofNat 32)).length) ≤ BSIZE := by
    rw [List.length_map]
    simp only [LOGBLOCKS, MAXOPBLOCKS, BSIZE] at *
    omega
  have hwords := Block.words_setWords (b := Block.setWord d 0 (BitVec.ofNat 32 lh.length)) hfits
  unfold header_blocks
  rw [header_n_fill h]
  unfold header_fill
  rw [List.length_map] at hwords
  rw [hwords, List.map_map]
  conv_rhs => rw [← List.map_id lh]
  apply List.map_congr_left
  intro b hmem
  simp only [Function.comp, BitVec.toNat_ofNat, id]
  exact Nat.mod_eq_of_lt (hb b hmem)

end header

end Xv6.Fs
