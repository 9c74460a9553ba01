import Mathlib.Data.BitVec
import Xv6.Lib.Op
import Xv6.Lib.Path
import Xv6.Lib.Ring

/-!
# Pipes: `pipe.c`

Any number of threads read from and write to one pipe. A call runs with the lock of the pipe held until it sleeps or
returns. What a write took from its buffer and what a read put into one are kept on the side.
-/

open Xv6.Lib Op

namespace Xv6.Ipc

abbrev PIPESIZE : Nat := 512

abbrev Byte := BitVec 8

structure Pipe where
  data : Nat → Byte
  nread : BitVec 32
  nwrite : BitVec 32
  readopen : Bool
  writeopen : Bool

/-- Where a thread is: outside, or asleep in a call. A write has put in `i` of `n` bytes so far. -/
inductive Thread where
  | out
  | writing (n : Int) (i : Nat)
  | reading (n : Int)
  deriving DecidableEq

structure State where
  pipe : Pipe
  thread : Nat → Thread
  accepted : List Byte
  delivered : List Byte

abbrev P (α : Type) := Op State α

/-- What a call finds out as it goes: whether its process is killed, and what `copyin` and `copyout` of the byte at
`addr + i` do. -/
structure Env where
  killed : Nat → Bool
  copyin : Nat → Option Byte
  copyout : Nat → Bool

inductive Outcome where
  | asleep (i : Nat)
  | returned (r : Int)
  deriving DecidableEq

def pipe : P Pipe := Op.gets State.pipe

-- `pi->data[pi->nwrite++ % PIPESIZE] = ch`.
def putc (ch : Byte) : P Unit := Op.update fun s =>
  { s with
    pipe := { s.pipe with
      data := Function.update s.pipe.data (s.pipe.nwrite.toNat % PIPESIZE) ch
      nwrite := s.pipe.nwrite + 1 }
    accepted := s.accepted ++ [ch] }

-- `pi->nread++`, when `ch` has been copied out.
def getc (ch : Byte) : P Unit := Op.update fun s =>
  { s with
    pipe := { s.pipe with nread := s.pipe.nread + 1 }
    delivered := s.delivered ++ [ch] }

-- `k` is `n - i`.
def pipewrite_loop (e : Env) : Nat → Nat → P Outcome
  | 0, i => pure (.returned i)
  | k + 1, i => do
    let pi ← pipe
    if pi.readopen = false ∨ e.killed i = true then pure (.returned (-1))
    else if pi.nwrite = pi.nread + BitVec.ofNat 32 PIPESIZE then pure (.asleep i)
    else
      match e.copyin i with
      | none => pure (.returned i)
      | some ch => do
        putc ch
        pipewrite_loop e k (i + 1)

def pipewrite (e : Env) (n : Int) (i : Nat) : P Outcome := pipewrite_loop e (n - i).toNat i

-- `k` is `n - i`.
def piperead_loop (e : Env) : Nat → Nat → P Int
  | 0, i => pure i
  | k + 1, i => do
    let pi ← pipe
    if pi.nread = pi.nwrite then pure i
    else
      let ch := pi.data (pi.nread.toNat % PIPESIZE)
      if e.copyout i = false then pure (if i = 0 then -1 else i)
      else do
        getc ch
        piperead_loop e k (i + 1)

def piperead (e : Env) (n : Int) : P Outcome := do
  let pi ← pipe
  if pi.nread = pi.nwrite ∧ pi.writeopen = true then
    if e.killed 0 = true then pure (.returned (-1)) else pure (.asleep 0)
  else do
    let r ← piperead_loop e n.toNat 0
    pure (.returned r)

def pipeclose (writable : Bool) : P Unit := Op.update fun s =>
  { s with pipe := if writable then { s.pipe with writeopen := false } else { s.pipe with readopen := false } }

/-! ## Runs -/

inductive Act where
  | write (t : Nat) (n : Int) (e : Env)
  | read (t : Nat) (n : Int) (e : Env)
  | resume (t : Nat) (e : Env)
  | close (writable : Bool)

def setThread (t : Nat) (th : Thread) : P Unit := Op.update fun s =>
  { s with thread := Function.update s.thread t th }

def settle (t : Nat) (th : Nat → Thread) : Outcome → P (Option Int)
  | .asleep i => do
    setThread t (th i)
    pure none
  | .returned r => do
    setThread t .out
    pure (some r)

def runWrite (t : Nat) (n : Int) (e : Env) (i : Nat) : P (Option Int) := do
  let o ← pipewrite e n i
  settle t (.writing n) o

def runRead (t : Nat) (n : Int) (e : Env) : P (Option Int) := do
  let o ← piperead e n
  settle t (fun _ => .reading n) o

def run : Act → P (Option Int)
  | .write t n e => do
    let th ← Op.gets fun s => s.thread t
    if th = .out then runWrite t n e 0 else Op.stop "in a call"
  | .read t n e => do
    let th ← Op.gets fun s => s.thread t
    if th = .out then runRead t n e else Op.stop "in a call"
  | .resume t e => do
    let th ← Op.gets fun s => s.thread t
    match th with
    | .out => Op.stop "not in a call"
    | .writing n i => runWrite t n e i
    | .reading n => runRead t n e
  | .close writable => do
    pipeclose writable
    pure none

def step (a : Act) : P Unit := do let _ ← run a

-- `pipealloc`. The page is not cleared.
def fresh (data : Nat → Byte) : State where
  pipe := ⟨data, 0, 0, true, true⟩
  thread := fun _ => .out
  accepted := []
  delivered := []

/-! ## The invariant -/

def Pipe.queued (pi : Pipe) : List Byte :=
  (List.range (pi.nwrite - pi.nread).toNat).map fun k => pi.data ((pi.nread.toNat + k) % PIPESIZE)

structure Inv (s : State) : Prop where
  ring : Ring PIPESIZE s.pipe.data s.accepted s.delivered
  nwrite : s.pipe.nwrite = BitVec.ofNat 32 s.accepted.length
  nread : s.pipe.nread = BitVec.ofNat 32 s.delivered.length

def Drained (s : State) : Prop := s.pipe.writeopen = false ∧ s.delivered = s.accepted

variable {s t : State} {e : Env} {E : String → Prop} {k i : Nat} {n : Int}

theorem toNat_mod (k : Nat) : (BitVec.ofNat 32 k).toNat % PIPESIZE = k % PIPESIZE := by
  rw [BitVec.toNat_ofNat]
  exact Nat.mod_mod_of_dvd _ (by decide)

namespace Inv

theorem sub_eq (h : Inv s) : (s.pipe.nwrite - s.pipe.nread).toNat = s.accepted.length - s.delivered.length := by
  have hle := h.ring.le
  have hroom := h.ring.room
  rw [h.nwrite, h.nread, BitVec.toNat_sub, BitVec.toNat_ofNat, BitVec.toNat_ofNat]
  simp only [PIPESIZE] at hroom
  omega

theorem empty_iff (h : Inv s) : s.pipe.nread = s.pipe.nwrite ↔ s.delivered.length = s.accepted.length := by
  have hsub := h.sub_eq
  have hle := h.ring.le
  constructor
  · intro he
    rw [he, BitVec.sub_self] at hsub
    simp at hsub
    omega
  · intro he
    rw [h.nread, h.nwrite, he]

theorem full_of_eq (h : Inv s) (hlen : s.accepted.length = s.delivered.length + PIPESIZE) :
    s.pipe.nwrite = s.pipe.nread + BitVec.ofNat 32 PIPESIZE := by
  rw [h.nwrite, h.nread, hlen, BitVec.ofNat_add]

theorem putc (h : Inv s) (ch : Byte) (hroom : s.pipe.nwrite ≠ s.pipe.nread + BitVec.ofNat 32 PIPESIZE) :
    Ends (putc ch) s (fun _ t => Inv t) E := by
  have hlt : s.accepted.length < s.delivered.length + PIPESIZE := by
    have hle := h.ring.room
    have hne : s.accepted.length ≠ s.delivered.length + PIPESIZE := fun he => hroom (h.full_of_eq he)
    omega
  have hslot : s.pipe.nwrite.toNat % PIPESIZE = s.accepted.length % PIPESIZE := by rw [h.nwrite, toNat_mod]
  unfold Ipc.putc
  rw [ends_update]
  refine ⟨?_, ?_, h.nread⟩
  · dsimp only
    rw [hslot]
    exact h.ring.push hlt
  · dsimp only
    rw [h.nwrite, List.length_append, List.length_singleton, BitVec.ofNat_add]
    rfl

theorem getc (h : Inv s) (hne : s.pipe.nread ≠ s.pipe.nwrite) :
    Ends (getc (s.pipe.data (s.pipe.nread.toNat % PIPESIZE))) s (fun _ t => Inv t) E := by
  have hlt : s.delivered.length < s.accepted.length := by
    have hle := h.ring.le
    have : s.delivered.length ≠ s.accepted.length := fun he => hne (h.empty_iff.mpr he)
    omega
  have hslot : s.pipe.nread.toNat % PIPESIZE = s.delivered.length % PIPESIZE := by rw [h.nread, toNat_mod]
  unfold Ipc.getc
  rw [ends_update, hslot]
  refine ⟨h.ring.pop hlt, h.nwrite, ?_⟩
  dsimp only
  rw [h.nread, List.length_append, List.length_singleton, BitVec.ofNat_add]
  rfl

theorem pipewrite_loop (h : Inv s) : Ends (pipewrite_loop e k i) s (fun _ t => Inv t) E := by
  induction k generalizing s i with
  | zero => exact h
  | succ k ih =>
    unfold Ipc.pipewrite_loop
    simp only [ends_bind, pipe, ends_gets, ends_ite, ends_pure]
    refine ⟨fun _ => h, fun _ => ⟨fun _ => h, fun hroom => ?_⟩⟩
    cases e.copyin i with
    | none => exact h
    | some ch =>
      rw [ends_bind]
      exact (h.putc ch hroom).mono fun _ _ ht => ih ht

/-- A read that returns 0 was asked for nothing, or found the pipe empty. -/
theorem piperead_loop (h : Inv s) : Ends (piperead_loop e k i) s (fun r t => Inv t ∧
    (r = 0 → i = 0 ∧ (k = 0 ∨ s.pipe.nread = s.pipe.nwrite ∧ t = s))) E := by
  induction k generalizing s i with
  | zero => exact ⟨h, fun h0 => ⟨by omega, .inl rfl⟩⟩
  | succ k ih =>
    unfold Ipc.piperead_loop
    simp only [ends_bind, pipe, ends_gets, ends_ite, ends_pure]
    refine ⟨fun hempty => ⟨h, fun h0 => ⟨by omega, .inr ⟨hempty, trivial⟩⟩⟩, fun hne => ⟨fun _ => ⟨h, ?_⟩, fun _ => ?_⟩⟩
    · split_ifs with h0
      · exact fun hc => absurd hc (by decide)
      · exact fun hc => absurd hc (by omega)
    · refine (h.getc hne).mono fun _ t ht => (ih ht).mono ?_
      rintro r u ⟨hu, hr⟩
      exact ⟨hu, fun h0 => absurd (hr h0).1 (Nat.succ_ne_zero i)⟩

theorem accepted_eq (h : Inv s) : s.accepted = s.delivered ++ s.pipe.queued := by
  have hsent := h.ring.sent_eq
  unfold Pipe.queued
  rw [h.sub_eq]
  refine hsent.trans (congrArg _ (List.map_congr_left fun k _ => ?_))
  have hmod : (s.pipe.nread.toNat + k) % PIPESIZE = (s.delivered.length + k) % PIPESIZE := by
    rw [Nat.add_mod, h.nread, toNat_mod, ← Nat.add_mod]
  rw [hmod]

theorem drained (h : Inv s) (hempty : s.pipe.nread = s.pipe.nwrite) (hw : s.pipe.writeopen = false) : Drained s :=
  ⟨hw, h.ring.took.eq_of_length (h.empty_iff.mp hempty)⟩

theorem piperead (h : Inv s) : Ends (piperead e n) s (fun o t => Inv t ∧
    (0 < n → o = .returned 0 → Drained t)) E := by
  unfold Ipc.piperead
  simp only [ends_bind, pipe, ends_gets, ends_ite, ends_pure]
  refine ⟨fun _ => ⟨fun _ => ⟨h, fun _ => (by simp)⟩, fun _ => ⟨h, fun _ => (by simp)⟩⟩, fun hready => ?_⟩
  refine h.piperead_loop.mono ?_
  rintro r t ⟨ht, hr⟩
  refine ⟨ht, fun hn h0 => ?_⟩
  obtain rfl : r = 0 := Outcome.returned.inj h0
  obtain ⟨hempty, rfl⟩ := (hr rfl).2.resolve_left (by omega)
  exact h.drained hempty (by simpa using fun hw => hready ⟨hempty, hw⟩)

theorem setThread (h : Inv s) (tid : Nat) (th : Thread) : Ends (setThread tid th) s (fun _ t => Inv t ∧
    t.pipe = s.pipe ∧ t.accepted = s.accepted ∧ t.delivered = s.delivered) E :=
  ⟨⟨h.ring, h.nwrite, h.nread⟩, rfl, rfl, rfl⟩

theorem settle {tid : Nat} {th : Nat → Thread} {o : Outcome} {Q : Prop} (h : Inv s)
    (hQ : o = .returned 0 → Q → Drained s) :
    Ends (settle tid th o) s (fun r t => Inv t ∧ (r = some 0 → Q → Drained t)) E := by
  cases o with
  | asleep i =>
    unfold Ipc.settle
    rw [ends_bind]
    exact (h.setThread tid _).mono fun _ t ht => ⟨ht.1, (by simp)⟩
  | returned r =>
    unfold Ipc.settle
    rw [ends_bind]
    refine (h.setThread tid _).mono ?_
    rintro _ t ⟨ht, hp, ha, hd⟩
    refine ⟨ht, fun h0 hq => ?_⟩
    have := hQ (by rw [Option.some.inj h0]) hq
    unfold Drained at *
    rwa [hp, ha, hd]

theorem runWrite {tid : Nat} (h : Inv s) : Ends (runWrite tid n e i) s (fun _ t => Inv t) E := by
  unfold Ipc.runWrite Ipc.pipewrite
  rw [ends_bind]
  refine h.pipewrite_loop.mono fun o t ht => ?_
  exact (ht.settle (Q := False) fun _ => False.elim).mono fun _ _ h => h.1

theorem runRead {tid : Nat} (h : Inv s) :
    Ends (runRead tid n e) s (fun r t => Inv t ∧ (r = some 0 → 0 < n → Drained t)) E := by
  unfold Ipc.runRead
  rw [ends_bind]
  refine h.piperead.mono ?_
  rintro o t ⟨ht, ho⟩
  exact ht.settle fun h0 hn => ho hn h0

end Inv

def Reads (a : Act) (n : Int) (s : State) : Prop :=
  match a with
  | .read _ m _ => m = n
  | .resume t _ => s.thread t = .reading n
  | _ => False

theorem run_inv (a : Act) (h : Inv s) : Ends (run a) s (fun r t => Inv t ∧
    ∀ n, 0 < n → Reads a n s → r = some 0 → Drained t) (fun _ => True) := by
  cases a with
  | write tid n e =>
    simp only [run, ends_bind, ends_gets, ends_ite, ends_stop]
    exact ⟨fun _ => h.runWrite.mono fun _ t ht => ⟨ht, fun _ _ => False.elim⟩, fun _ => trivial⟩
  | read tid n e =>
    simp only [run, ends_bind, ends_gets, ends_ite, ends_stop]
    refine ⟨fun _ => h.runRead.mono ?_, fun _ => trivial⟩
    rintro r t ⟨ht, hr⟩
    exact ⟨ht, fun m hm hn h0 => hr h0 (hn ▸ hm)⟩
  | resume tid e =>
    simp only [run, ends_bind, ends_gets]
    cases hth : s.thread tid with
    | out => exact trivial
    | writing n i =>
      refine h.runWrite.mono fun r t ht => ⟨ht, fun m _ hm => ?_⟩
      rw [Reads, hth] at hm
      cases hm
    | reading n =>
      refine h.runRead.mono ?_
      rintro r t ⟨ht, hr⟩
      refine ⟨ht, fun m hm hn h0 => hr h0 ?_⟩
      rw [Reads, hth] at hn
      cases hn
      exact hm
  | close writable =>
    simp only [run, pipeclose, ends_bind, ends_update, ends_pure]
    refine ⟨?_, fun _ _ => False.elim⟩
    cases writable
    · exact ⟨h.ring, h.nwrite, h.nread⟩
    · exact ⟨h.ring, h.nwrite, h.nread⟩

theorem inv_of_path {data : Nat → Byte} (h : Path step (fun _ _ => True) (fresh data) s) : Inv s := by
  refine h.invariant (I := Inv) ⟨.nil _, rfl, rfl⟩ ?_
  intro a t t' ht _ hrun
  have := run_inv a ht
  simp only [step, bind_ok, pure_ok] at hrun
  obtain ⟨r, u, hr, -, rfl⟩ := hrun
  exact (this.of_ok hr).1

/-! ## What one call moves -/

def Writes (a : Act) (tid : Nat) (n : Int) (i : Nat) (e : Env) (s : State) : Prop :=
  match a with
  | .write tid' n' e' => tid' = tid ∧ n' = n ∧ i = 0 ∧ e' = e
  | .resume tid' e' => tid' = tid ∧ e' = e ∧ s.thread tid = .writing n i
  | _ => False

/-- The bytes of the buffer from byte `i` on went in, up to where the call sleeps or to the number that it returns. -/
def Wrote (tid : Nat) (n : Int) (i : Nat) (e : Env) (s : State) (r : Option Int) (t : State) : Prop :=
  ∃ bs : List Byte, t.accepted = s.accepted ++ bs ∧ t.delivered = s.delivered ∧ bs.length ≤ (n - i).toNat ∧
    (∀ j b, bs[j]? = some b → e.copyin (i + j) = some b) ∧
    (r = none ∧ t.thread tid = .writing n (i + bs.length) ∨
      t.thread tid = .out ∧ (r = some (-1) ∨ r = some (i + bs.length : Nat)))

/-- As many bytes came out as the call returns, and none if it sleeps or fails. -/
def Took (s : State) (r : Option Int) (t : State) : Prop :=
  ∃ bs : List Byte, t.delivered = s.delivered ++ bs ∧ t.accepted = s.accepted ∧
    (bs = [] ∧ (r = none ∨ r = some (-1)) ∨ r = some (bs.length : Int))

def Put (e : Env) (k i : Nat) (s : State) (o : Outcome) (t : State) : Prop :=
  ∃ bs : List Byte, t.accepted = s.accepted ++ bs ∧ t.delivered = s.delivered ∧ bs.length ≤ k ∧
    (∀ j b, bs[j]? = some b → e.copyin (i + j) = some b) ∧
    (o = .asleep (i + bs.length) ∨ o = .returned (-1) ∨ o = .returned (i + bs.length : Nat))

theorem Put.nothing {o : Outcome} (ho : o = .asleep i ∨ o = .returned (-1) ∨ o = .returned i) : Put e k i s o s :=
  ⟨[], by simp, rfl, Nat.zero_le _, by simp, ho⟩

theorem pipewrite_loop_moves : Ends (pipewrite_loop e k i) s (fun o t => Put e k i s o t) E := by
  induction k generalizing s i with
  | zero => exact .nothing (.inr (.inr rfl))
  | succ k ih =>
    unfold pipewrite_loop
    simp only [ends_bind, pipe, ends_gets, ends_ite, ends_pure]
    refine ⟨fun _ => .nothing (.inr (.inl rfl)), fun _ => ⟨fun _ => .nothing (.inl rfl), fun _ => ?_⟩⟩
    cases hin : e.copyin i with
    | none => exact .nothing (.inr (.inr rfl))
    | some ch =>
      rw [ends_bind, putc, ends_update]
      refine ih.mono ?_
      rintro o t ⟨bs, hacc, hdel, hlen, hbytes, ho⟩
      have hadd : i + (ch :: bs).length = i + 1 + bs.length := by
        rw [List.length_cons]
        omega
      refine ⟨ch :: bs, by simp [hacc], hdel, Nat.succ_le_succ hlen, fun j b hj => ?_, by rwa [hadd]⟩
      cases j with
      | zero =>
        cases hj
        exact hin
      | succ j =>
        have := hbytes j b hj
        rwa [Nat.add_right_comm] at this

theorem piperead_loop_moves : Ends (piperead_loop e k i) s (fun r t => ∃ bs : List Byte,
    t.delivered = s.delivered ++ bs ∧ t.accepted = s.accepted ∧
    (i = 0 ∧ bs = [] ∧ r = -1 ∨ r = (i + bs.length : Nat))) E := by
  induction k generalizing s i with
  | zero => exact ⟨[], by simp, rfl, .inr rfl⟩
  | succ k ih =>
    unfold piperead_loop
    simp only [ends_bind, pipe, ends_gets, ends_ite]
    refine ⟨fun _ => ⟨[], by simp, rfl, .inr rfl⟩, fun _ => ⟨fun _ => ⟨[], by simp, rfl, ?_⟩, fun _ => ?_⟩⟩
    · split_ifs with h0
      · exact .inl ⟨h0, rfl, rfl⟩
      · exact .inr rfl
    · rw [getc, ends_update]
      refine ih.mono ?_
      rintro r t ⟨bs, hdel, hacc, hr⟩
      refine ⟨_ :: bs, by rw [hdel, List.append_assoc]; rfl, hacc, .inr ?_⟩
      rw [hr.resolve_left fun hbad => absurd hbad.1 (Nat.succ_ne_zero i), List.length_cons]
      omega

theorem runWrite_moves {tid : Nat} : Ends (runWrite tid n e i) s (fun r t => Wrote tid n i e s r t) E := by
  rw [runWrite, ends_bind, pipewrite]
  refine pipewrite_loop_moves.mono ?_
  rintro o t ⟨bs, hacc, hdel, hlen, hbytes, rfl | rfl | rfl⟩
  · exact ⟨bs, hacc, hdel, hlen, hbytes, .inl ⟨rfl, Function.update_self ..⟩⟩
  · exact ⟨bs, hacc, hdel, hlen, hbytes, .inr ⟨Function.update_self .., .inl rfl⟩⟩
  · exact ⟨bs, hacc, hdel, hlen, hbytes, .inr ⟨Function.update_self .., .inr rfl⟩⟩

theorem runRead_moves {tid : Nat} : Ends (runRead tid n e) s (fun r t => Took s r t) E := by
  simp only [runRead, piperead, ends_bind, pipe, ends_gets, ends_ite]
  refine ⟨fun _ => ⟨fun _ => ?_, fun _ => ?_⟩, fun _ => piperead_loop_moves.mono ?_⟩
  · exact ⟨[], (List.append_nil _).symm, rfl, .inl ⟨rfl, .inr rfl⟩⟩
  · exact ⟨[], (List.append_nil _).symm, rfl, .inl ⟨rfl, .inl rfl⟩⟩
  · rintro r t ⟨bs, hdel, hacc, ⟨-, rfl, rfl⟩ | rfl⟩
    · exact ⟨[], hdel, hacc, .inl ⟨rfl, .inr rfl⟩⟩
    · refine ⟨bs, hdel, hacc, .inr ?_⟩
      rw [Nat.zero_add]

theorem Writes.moves {a : Act} {tid : Nat} {r : Option Int} (h : Writes a tid n i e s) (hrun : run a s = .ok (r, t)) :
    Wrote tid n i e s r t := by
  cases a with
  | write tid' n' e' =>
    obtain ⟨rfl, rfl, rfl, rfl⟩ := h
    rw [run, run_bind (run_gets _)] at hrun
    split_ifs at hrun
    · exact (runWrite_moves (E := fun _ => True)).of_ok hrun
    · simp at hrun
  | resume tid' e' =>
    obtain ⟨rfl, rfl, hth⟩ := h
    rw [run, run_bind (run_gets _), hth] at hrun
    exact (runWrite_moves (E := fun _ => True)).of_ok hrun
  | read => exact h.elim
  | close => exact h.elim

theorem Reads.moves {a : Act} {r : Option Int} (h : Reads a n s) (hrun : run a s = .ok (r, t)) : Took s r t := by
  cases a with
  | read tid n' e' =>
    rw [run, run_bind (run_gets _)] at hrun
    split_ifs at hrun
    · exact (runRead_moves (E := fun _ => True)).of_ok hrun
    · simp at hrun
  | resume tid e' =>
    rw [Reads] at h
    rw [run, run_bind (run_gets _), h] at hrun
    exact (runRead_moves (E := fun _ => True)).of_ok hrun
  | write => exact h.elim
  | close => exact h.elim

/-- A pipe takes the bytes of its writers, and hands them out in order. -/
theorem pipe_fifo {data : Nat → Byte} (h : Path step (fun _ _ => True) (fresh data) s) :
    s.delivered <+: s.accepted ∧ s.accepted = s.delivered ++ s.pipe.queued ∧
      (s.pipe.nwrite - s.pipe.nread).toNat ≤ PIPESIZE ∧
      (∀ a tid n i e r s', Writes a tid n i e s → run a s = .ok (r, s') → Wrote tid n i e s r s') ∧
      (∀ a n r s', Reads a n s → run a s = .ok (r, s') → Took s r s') ∧
      ∀ a n s', 0 < n → Reads a n s → run a s = .ok (some 0, s') →
        s'.pipe.writeopen = false ∧ s'.delivered = s'.accepted := by
  have hs := inv_of_path h
  refine ⟨hs.ring.took, hs.accepted_eq, ?_, fun _ _ _ _ _ _ _ hw => hw.moves, fun _ _ _ _ hr => hr.moves, ?_⟩
  · have := hs.ring.room
    rw [hs.sub_eq]
    omega
  · intro a n s' hn hr hrun
    exact ((run_inv a hs).of_ok hrun).2 n hn hr rfl

def letters : Env := ⟨fun _ => false, fun j => if j < 3 then some (BitVec.ofNat 8 (97 + j)) else none, fun _ => true⟩

def pipedLetters : List Act := [.read 0 2 letters, .write 1 5 letters, .resume 0 letters]

theorem pipe_fifo_letters : ∃ s r s', Path step (fun _ _ => True) (fresh fun _ => 0) s ∧ s.delivered = [97, 98] ∧
    s.accepted = [97, 98, 99] ∧ s.accepted = s.delivered ++ s.pipe.queued ∧ run (.write 2 2 letters) s = .ok (r, s') ∧
    s'.accepted = [97, 98, 99, 97, 98] ∧ Wrote 2 2 0 letters s r s' := by
  let test : State → Bool := fun s => decide (s.delivered = [97, 98] ∧ s.accepted = [97, 98, 99]) &&
    (run (.write 2 2 letters) s).toOption.any fun x : Option Int × State => decide (x.2.accepted = [97, 98, 99, 97, 98])
  obtain ⟨s, hrun, hs⟩ := Path.exists_of_follow step (C := fun _ _ => True) pipedLetters (fresh fun _ => 0) test
    (by decide +kernel)
  rw [Bool.and_eq_true, Option.any_eq_true] at hs
  obtain ⟨hmoved, ⟨r, s'⟩, hwrite, hacc⟩ := hs
  obtain ⟨hdel, hall⟩ := of_decide_eq_true hmoved
  obtain ⟨-, hqueued, -, hwrote, -⟩ := pipe_fifo hrun
  have hwrite := toOption_eq_some.mp hwrite
  exact ⟨s, r, s', hrun, hdel, hall, hqueued, hwrite, of_decide_eq_true hacc,
    hwrote (.write 2 2 letters) 2 2 0 letters r s' ⟨rfl, rfl, rfl, rfl⟩ hwrite⟩

end Xv6.Ipc
