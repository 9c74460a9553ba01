import Xv6.Lib.Op
import Xv6.Lib.Block
import Xv6.Riscv

/-!
# The buffer cache: `bio.c`

A function runs on behalf of the process with pid `p`, and a sleep-lock records the pid of its
holder. Where a function would sleep the operation does not return, so that a process that waits
takes no step. Counters are natural numbers: no counter is decremented at zero.
-/

open Xv6.Lib Op

namespace Xv6.Fs

abbrev MAXOPBLOCKS : Nat := 10
abbrev LOGBLOCKS : Nat := MAXOPBLOCKS * 3
abbrev NBUF : Nat := MAXOPBLOCKS * 3

abbrev Data := Block BSIZE

structure Buf where
  valid : Bool := false
  dev : Nat := 0
  blockno : Nat := 0
  -- `lock.pid`, when `lock.locked`.
  lock : Option Nat := none
  refcnt : Nat := 0
  data : Data := fun _ => 0

/-- The in-memory log of `log.c`. The first `lh.n` entries of `lh.block` are the list `lh`. -/
structure Log where
  start : Nat
  dev : Nat
  outstanding : Int := 0
  committing : Bool := false
  lh : List Nat := []

structure Store where
  disk : Nat → Data
  -- `bcache.buf`, and the list from `head.next` to `head.prev`.
  buf : Nat → Buf
  lru : List Nat
  log : Log

abbrev F (α : Type) := Op Store α

def panic {α : Type} (msg : String) : F α := Op.stop msg

namespace Store

def setBuf (s : Store) (i : Nat) (f : Buf → Buf) : Store :=
  { s with buf := fun j => if j = i then f (s.buf j) else s.buf j }

def setDisk (s : Store) (b : Nat) (d : Data) : Store :=
  { s with disk := fun n => if n = b then d else s.disk n }

def setLog (s : Store) (f : Log → Log) : Store := { s with log := f s.log }

section fields
variable (s : Store) (i j b : Nat) (f : Buf → Buf) (d : Data) (g : Log → Log)

@[simp] theorem setBuf_disk : (s.setBuf i f).disk = s.disk := rfl
@[simp] theorem setBuf_log : (s.setBuf i f).log = s.log := rfl
@[simp] theorem setBuf_buf : (s.setBuf i f).buf i = f (s.buf i) := if_pos rfl
theorem setBuf_buf_of_ne (h : j ≠ i) : (s.setBuf i f).buf j = s.buf j := if_neg h
@[simp] theorem setDisk_disk : (s.setDisk b d).disk b = d := if_pos rfl
theorem setDisk_disk_of_ne (h : j ≠ b) : (s.setDisk b d).disk j = s.disk j := if_neg h
@[simp] theorem setDisk_buf : (s.setDisk b d).buf = s.buf := rfl
@[simp] theorem setLog_disk : (s.setLog g).disk = s.disk := rfl
@[simp] theorem setLog_buf : (s.setLog g).buf = s.buf := rfl
@[simp] theorem setLog_log : (s.setLog g).log = g s.log := rfl

theorem setBuf_setBuf (f' : Buf → Buf) : (s.setBuf i f).setBuf i f' = s.setBuf i fun x => f' (f x) := by
  unfold setBuf
  congr 1
  funext j
  by_cases hj : j = i <;> simp [hj]

end fields

/-- The buffer of a block, the first loop of `bget`. -/
def lookup (s : Store) (dev blockno : Nat) : Option Nat :=
  s.lru.find? fun i => (s.buf i).dev == dev && (s.buf i).blockno == blockno

/-- The least recently used unused buffer, the second loop of `bget`. -/
def unused (s : Store) : Option Nat := s.lru.reverse.find? fun i => (s.buf i).refcnt == 0

/-- What the cache and the disk together say is in a block. -/
def view (s : Store) (b : Nat) : Data :=
  match s.lookup ROOTDEV b with
  | some i => if (s.buf i).valid then (s.buf i).data else s.disk b
  | none => s.disk b

end Store

/-- What `binit` leaves: each buffer was put at the head of the list. -/
def binit (disk : Nat → Data) (log : Log) : Store :=
  { disk, log, buf := fun _ => {}, lru := (List.range NBUF).reverse }

/-! ## The functions -/

-- `bget` up to the release of `bcache.lock`.
def bget_ref (dev blockno : Nat) : F Nat := do
  let s ← Op.gets id
  match s.lookup dev blockno with
  | some i => do
    Op.update (·.setBuf i fun b => { b with refcnt := b.refcnt + 1 })
    pure i
  | none =>
    match s.unused with
    | some i => do
      Op.update (·.setBuf i fun b => { b with dev, blockno, valid := false, refcnt := 1 })
      pure i
    | none => panic "bget: no buffers"

def acquiresleep (p i : Nat) : F Unit := do
  let s ← Op.gets id
  if (s.buf i).lock = none then Op.update (·.setBuf i fun b => { b with lock := some p })
  else Op.stop "sleep"

-- The rest of `bread`, after `bget`.
def bread_disk (i : Nat) : F Unit :=
  Op.update fun s => s.setBuf i fun b =>
    if b.valid then b else { b with data := s.disk b.blockno, valid := true }

def bget (p dev blockno : Nat) : F Nat := do
  let i ← bget_ref dev blockno
  acquiresleep p i
  pure i

def bread (p dev blockno : Nat) : F Nat := do
  let i ← bget p dev blockno
  bread_disk i
  pure i

def bwrite (p i : Nat) : F Unit := do
  let s ← Op.gets id
  if (s.buf i).lock = some p then Op.update (·.setDisk (s.buf i).blockno (s.buf i).data)
  else panic "bwrite"

def brelse (p i : Nat) : F Unit := do
  let s ← Op.gets id
  if (s.buf i).lock = some p then do
    Op.update (·.setBuf i fun b => { b with lock := none, refcnt := b.refcnt - 1 })
    let s ← Op.gets id
    if (s.buf i).refcnt = 0 then Op.update fun s => { s with lru := i :: s.lru.erase i }
    else pure ()
  else panic "brelse"

def bpin (i : Nat) : F Unit := Op.update (·.setBuf i fun b => { b with refcnt := b.refcnt + 1 })

def bunpin (i : Nat) : F Unit := Op.update (·.setBuf i fun b => { b with refcnt := b.refcnt - 1 })

def set_data (i : Nat) (d : Data) : F Unit := Op.update (·.setBuf i fun b => { b with data := d })

/-! ## What a finished call did -/

section inversion
variable {p dev blockno i : Nat} {u : Unit} {s s' : Store}

theorem bget_ref_ok : bget_ref dev blockno s = .ok (i, s') ↔
    (s.lookup dev blockno = some i ∧ s' = s.setBuf i fun b => { b with refcnt := b.refcnt + 1 }) ∨
    (s.lookup dev blockno = none ∧ s.unused = some i ∧
      s' = s.setBuf i fun b => { b with dev, blockno, valid := false, refcnt := 1 }) := by
  unfold bget_ref
  simp only [bind_ok, gets_ok, id]
  constructor
  · rintro ⟨_, t, ⟨rfl, rfl⟩, h⟩
    cases hj : t.lookup dev blockno with
    | some j =>
      simp only [hj, bind_ok, update_ok, pure_ok] at h
      obtain ⟨_, _, rfl, rfl, rfl⟩ := h
      exact .inl ⟨rfl, rfl⟩
    | none =>
      cases hfree : t.unused with
      | some j =>
        simp only [hj, hfree, bind_ok, update_ok, pure_ok] at h
        obtain ⟨_, _, rfl, rfl, rfl⟩ := h
        exact .inr ⟨rfl, rfl, rfl⟩
      | none => simp [hj, hfree, panic] at h
  · rintro (⟨hj, rfl⟩ | ⟨hj, hfree, rfl⟩)
    · exact ⟨s, s, ⟨rfl, rfl⟩, by simp only [hj]; exact run_bind (run_update _)⟩
    · exact ⟨s, s, ⟨rfl, rfl⟩, by simp only [hj, hfree]; exact run_bind (run_update _)⟩

theorem acquiresleep_ok : acquiresleep p i s = .ok (u, s') ↔
    (s.buf i).lock = none ∧ s' = s.setBuf i fun b => { b with lock := some p } := by
  unfold acquiresleep
  simp only [bind_ok, gets_ok, id]
  constructor
  · rintro ⟨_, t, ⟨rfl, rfl⟩, h⟩
    split at h
    · exact ⟨‹_›, by simpa using h⟩
    · simp at h
  · rintro ⟨h, rfl⟩
    exact ⟨s, s, ⟨rfl, rfl⟩, by rw [if_pos h]; simp⟩

theorem bwrite_ok : bwrite p i s = .ok (u, s') ↔
    (s.buf i).lock = some p ∧ s' = s.setDisk (s.buf i).blockno (s.buf i).data := by
  unfold bwrite
  simp only [bind_ok, gets_ok, id]
  constructor
  · rintro ⟨_, t, ⟨rfl, rfl⟩, h⟩
    split at h
    · exact ⟨‹_›, by simpa using h⟩
    · simp [panic] at h
  · rintro ⟨h, rfl⟩
    exact ⟨s, s, ⟨rfl, rfl⟩, by rw [if_pos h]; simp⟩

theorem brelse_ok (h : brelse p i s = .ok (u, s')) : (s.buf i).lock = some p ∧
    ∃ lru, (lru = s.lru ∨ lru = i :: s.lru.erase i) ∧
      s' = { s.setBuf i fun b => { b with lock := none, refcnt := b.refcnt - 1 } with lru } := by
  unfold brelse at h
  simp only [bind_ok, gets_ok, id] at h
  obtain ⟨_, t, ⟨rfl, rfl⟩, h⟩ := h
  split at h
  · simp only [bind_ok, update_ok, gets_ok, id] at h
    obtain ⟨_, t', rfl, _, _, ⟨rfl, rfl⟩, h⟩ := h
    refine ⟨‹_›, ?_⟩
    split at h
    · rw [update_ok] at h
      exact ⟨_, .inr rfl, h⟩
    · rw [pure_ok] at h
      exact ⟨_, .inl rfl, h.2⟩
  · simp [panic] at h

theorem brelse_runs (h : (s.buf i).lock = some p) : Runs (brelse p i) s := by
  unfold brelse
  apply (Runs.gets _ _).bind
  intro t s' ht
  rw [gets_ok] at ht
  obtain ⟨rfl, rfl⟩ := ht
  simp only [if_pos h]
  apply (Runs.update _ _).bind
  intro _ t _
  apply (Runs.gets _ _).bind
  intro t' u _
  split
  · exact Runs.update _ _
  · exact Runs.pure _ _

end inversion

end Xv6.Fs
