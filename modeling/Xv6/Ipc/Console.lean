import Xv6.Ipc.Pipe

/-!
# Console input: `console.c`

Characters come in through `consoleintr`, and any number of threads call `consoleread`. A call runs with the lock held
until it sleeps or returns. What a line editor without a ring makes of the same characters is kept on the side.
-/

open Xv6.Lib (Op Ring Path)
open Xv6.Lib.Op

namespace Xv6.Console

open Ipc (Byte Outcome)

abbrev INPUT_BUF_SIZE : Nat := 128

abbrev ctrl (x : Char) : Byte := BitVec.ofNat 8 (x.toNat - '@'.toNat)

abbrev newline : Byte := 10

abbrev eof : Byte := ctrl 'D'

structure Cons where
  buf : Nat → Byte
  r : BitVec 32
  w : BitVec 32
  e : BitVec 32

def slot (i : BitVec 32) : Nat := i.toNat % INPUT_BUF_SIZE

def kill_line : Nat → Cons → Cons
  | 0, cons => cons
  | k + 1, cons =>
    if cons.e ≠ cons.w ∧ cons.buf (slot (cons.e - 1)) ≠ newline then kill_line k { cons with e := cons.e - 1 }
    else cons

-- The echo is left out, and so is `procdump`.
def consoleintr (c : Byte) (cons : Cons) : Cons :=
  if c = ctrl 'P' then cons
  else if c = ctrl 'U' then kill_line (cons.e - cons.w).toNat cons
  else if c = ctrl 'H' ∨ c = 0x7f then
    if cons.e ≠ cons.w then { cons with e := cons.e - 1 } else cons
  else if c ≠ 0 ∧ (cons.e - cons.r).toNat < INPUT_BUF_SIZE then
    let c := if c = 13 then newline else c
    let cons := { cons with buf := Function.update cons.buf (slot cons.e) c, e := cons.e + 1 }
    if c = newline ∨ c = eof ∨ (cons.e - cons.r).toNat = INPUT_BUF_SIZE then { cons with w := cons.e } else cons
  else cons

/-- The lines that were committed, the line that is being typed, and how many bytes readers have taken. -/
structure Editor where
  committed : List Byte
  line : List Byte
  taken : Nat

namespace Editor

def held (ed : Editor) : Nat := ed.committed.length - ed.taken + ed.line.length

def commit (ed : Editor) : Editor := { ed with committed := ed.committed ++ ed.line, line := [] }

def type (c : Byte) (ed : Editor) : Editor :=
  if c = 0 ∨ c = ctrl 'P' then ed
  else if c = ctrl 'U' then { ed with line := [] }
  else if c = ctrl 'H' ∨ c = 0x7f then { ed with line := ed.line.dropLast }
  else if ed.held < INPUT_BUF_SIZE then
    let c := if c = 13 then newline else c
    let ed := { ed with line := ed.line ++ [c] }
    if c = newline ∨ c = eof ∨ ed.held = INPUT_BUF_SIZE then ed.commit else ed
  else ed

def input (ed : Editor) : List Byte := ed.committed.drop ed.taken

def read (ed : Editor) : List Byte := ed.committed.take ed.taken

end Editor

/-- A thread is outside, or asleep in a call that has delivered `i` of `n` bytes. -/
inductive Thread where
  | out
  | reading (n : Int) (i : Nat)
  deriving DecidableEq

structure State where
  cons : Cons
  thread : Nat → Thread
  editor : Editor
  delivered : List Byte

abbrev C (α : Type) := Op State α

/-- What a call finds out as it goes: whether its process is killed, and how many bytes of its buffer can be
written. -/
structure Env where
  killed : Bool
  cap : Nat

-- `c = cons.buf[cons.r++ % INPUT_BUF_SIZE]`.
def getc : C Byte := do
  let c ← Op.gets fun s => s.cons.buf (slot s.cons.r)
  Op.update fun s =>
    { s with cons := { s.cons with r := s.cons.r + 1 }, editor := { s.editor with taken := s.editor.taken + 1 } }
  pure c

def ungetc : C Unit := Op.update fun s =>
  { s with cons := { s.cons with r := s.cons.r - 1 }, editor := { s.editor with taken := s.editor.taken - 1 } }

def deliver (c : Byte) : C Unit := Op.update fun s => { s with delivered := s.delivered ++ [c] }

-- `k` is `n` and `i` is `target - n`.
def consoleread_loop (env : Env) : Nat → Nat → C Outcome
  | 0, i => pure (.returned i)
  | k + 1, i => do
    let cons ← Op.gets State.cons
    if cons.r = cons.w then pure (if env.killed = true then .returned (-1) else .asleep i)
    else do
      let c ← getc
      if c = eof then do
        Op.when (0 < i) ungetc
        pure (.returned i)
      else if i < env.cap then do
        deliver c
        if c = newline then pure (.returned (i + 1 : Nat)) else consoleread_loop env k (i + 1)
      else pure (.returned i)

def consoleread (env : Env) (n : Int) (i : Nat) : C Outcome := consoleread_loop env (n - i).toNat i

/-! ## Runs -/

inductive Act where
  | intr (c : Byte)
  | read (t : Nat) (n : Int) (env : Env)
  | resume (t : Nat) (env : Env)

def setThread (t : Nat) (th : Thread) : C Unit := Op.update fun s =>
  { s with thread := Function.update s.thread t th }

def settle (t : Nat) (n : Int) : Outcome → C Unit
  | .asleep i => setThread t (.reading n i)
  | .returned _ => setThread t .out

def runRead (t : Nat) (env : Env) (n : Int) (i : Nat) : C Unit := do
  let o ← consoleread env n i
  settle t n o

def step : Act → C Unit
  | .intr c => Op.update fun s => { s with cons := consoleintr c s.cons, editor := s.editor.type c }
  | .read t n env => do
    let th ← Op.gets fun s => s.thread t
    if th = .out then runRead t env n 0 else Op.stop "in a call"
  | .resume t env => do
    let th ← Op.gets fun s => s.thread t
    match th with
    | .out => Op.stop "not in a call"
    | .reading n i => runRead t env n i

def start (buf : Nat → Byte) : State where
  cons := ⟨buf, 0, 0, 0⟩
  thread := fun _ => .out
  editor := ⟨[], [], 0⟩
  delivered := []

/-! ## The ring holds what the editor holds -/

structure Holds (cons : Cons) (ed : Editor) : Prop where
  ring : Ring INPUT_BUF_SIZE cons.buf (ed.committed ++ ed.line) ed.read
  taken : ed.taken ≤ ed.committed.length
  r : cons.r = BitVec.ofNat 32 ed.taken
  w : cons.w = BitVec.ofNat 32 ed.committed.length
  e : cons.e = BitVec.ofNat 32 (ed.committed.length + ed.line.length)

structure Inv (s : State) : Prop extends Holds s.cons s.editor where
  line : newline ∉ s.editor.line

variable {s t : State} {cons : Cons} {ed : Editor} {c : Byte} {env : Env} {k i : Nat} {n : Int} {E : String → Prop}

theorem slot_ofNat (k : Nat) : slot (BitVec.ofNat 32 k) = k % INPUT_BUF_SIZE := by
  rw [slot, BitVec.toNat_ofNat]
  exact Nat.mod_mod_of_dvd _ (by decide)

theorem sub_ofNat {a b : Nat} (hab : a ≤ b) (hb : b ≤ a + INPUT_BUF_SIZE) :
    (BitVec.ofNat 32 b - BitVec.ofNat 32 a).toNat = b - a := by
  rw [BitVec.toNat_sub, BitVec.toNat_ofNat, BitVec.toNat_ofNat]
  simp only [INPUT_BUF_SIZE] at hb
  omega

theorem ofNat_succ (a : Nat) : BitVec.ofNat 32 (a + 1) = BitVec.ofNat 32 a + 1 := BitVec.ofNat_add a 1

theorem ofNat_pred (a : Nat) : BitVec.ofNat 32 (a + 1) - 1 = BitVec.ofNat 32 a := by
  rw [ofNat_succ, BitVec.add_sub_cancel]

namespace Holds

theorem read_length (h : Holds cons ed) : ed.read.length = ed.taken := by
  rw [Editor.read, List.length_take]
  exact Nat.min_eq_left h.taken

theorem room (h : Holds cons ed) : ed.committed.length + ed.line.length ≤ ed.taken + INPUT_BUF_SIZE := by
  have := h.ring.room
  rwa [h.read_length, List.length_append] at this

theorem used (h : Holds cons ed) : (cons.e - cons.r).toNat = ed.held := by
  have := h.taken
  rw [h.e, h.r, sub_ofNat (by omega) h.room, Editor.held]
  omega

theorem typed (h : Holds cons ed) : (cons.e - cons.w).toNat = ed.line.length := by
  have := h.taken
  have := h.room
  rw [h.e, h.w, sub_ofNat (by omega) (by omega)]
  omega

theorem unread (h : Holds cons ed) : (cons.w - cons.r).toNat = ed.committed.length - ed.taken := by
  have := h.room
  rw [h.w, h.r, sub_ofNat h.taken (by omega)]

theorem empty_iff (h : Holds cons ed) : cons.r = cons.w ↔ ed.input = [] := by
  have hsub := h.unread
  have hle := h.taken
  rw [Editor.input, List.drop_eq_nil_iff]
  constructor
  · intro he
    rw [he, BitVec.sub_self] at hsub
    simp at hsub
    omega
  · intro hge
    rw [h.r, h.w, Nat.le_antisymm hle hge]

theorem untouched_iff (h : Holds cons ed) : cons.e = cons.w ↔ ed.line = [] := by
  have hsub := h.typed
  constructor
  · intro he
    rw [he, BitVec.sub_self] at hsub
    exact List.eq_nil_of_length_eq_zero hsub.symm
  · intro hnil
    rw [h.e, h.w, hnil, List.length_nil, Nat.add_zero]

/-! ## Characters -/

theorem unput {line : List Byte} (h : Holds cons ed) (hline : ed.line = line ++ [c]) :
    cons.buf (slot (cons.e - 1)) = c ∧ Holds { cons with e := cons.e - 1 } { ed with line := line } := by
  have hle := h.taken
  have hlen : ed.line.length = line.length + 1 := by rw [hline, List.length_append, List.length_singleton]
  have he : cons.e - 1 = BitVec.ofNat 32 (ed.committed.length + line.length) := by
    rw [h.e, hlen, ← Nat.add_assoc, ofNat_pred]
  have hring := h.ring
  rw [hline, ← List.append_assoc] at hring
  have hgot : ed.read.length ≤ (ed.committed ++ line).length := by
    rw [h.read_length, List.length_append]
    omega
  refine ⟨?_, hring.unput hgot, hle, h.r, h.w, he⟩
  have hlast := hring.held (ed.committed ++ line).length hgot (by simp)
  rw [List.getElem?_concat_length, List.length_append] at hlast
  rw [he, slot_ofNat]
  exact (Option.some.inj hlast).symm

theorem kill_line {line : List Byte} (h : Holds cons { ed with line := line }) (hno : newline ∉ line) :
    Holds (Console.kill_line line.length cons) { ed with line := [] } := by
  induction line using List.reverseRecOn generalizing cons with
  | nil => exact h
  | append_singleton line c ih =>
    obtain ⟨hlast, hback⟩ := h.unput rfl
    have hne : cons.e ≠ cons.w := by
      rw [ne_eq, h.untouched_iff]
      simp
    have hc : c ≠ newline := by
      rintro rfl
      exact hno (by simp)
    rw [List.length_append, List.length_singleton, Console.kill_line, hlast, if_pos ⟨hne, hc⟩]
    exact ih hback fun hmem => hno (List.mem_append_left _ hmem)

theorem put (h : Holds cons ed) (hheld : ed.held < INPUT_BUF_SIZE) :
    Holds { cons with buf := Function.update cons.buf (slot cons.e) c, e := cons.e + 1 }
      { ed with line := ed.line ++ [c] } := by
  have hle := h.taken
  have hroom : (ed.committed ++ ed.line).length < ed.read.length + INPUT_BUF_SIZE := by
    rw [Editor.held] at hheld
    rw [h.read_length, List.length_append]
    omega
  refine ⟨?_, hle, h.r, h.w, ?_⟩
  · dsimp only
    rw [h.e, slot_ofNat, ← List.append_assoc, ← List.length_append]
    exact h.ring.push hroom
  · dsimp only
    rw [h.e, List.length_append, List.length_singleton, ← Nat.add_assoc, ofNat_succ]

theorem commit (h : Holds cons ed) : Holds { cons with w := cons.e } ed.commit := by
  refine ⟨?_, ?_, h.r, ?_, ?_⟩
  · have hread : ed.commit.read = ed.read := List.take_append_of_le_length h.taken
    rw [hread]
    show Ring _ _ (ed.committed ++ ed.line ++ []) _
    rw [List.append_nil]
    exact h.ring
  · have := h.taken
    show _ ≤ (ed.committed ++ ed.line).length
    rw [List.length_append]
    exact this.trans (Nat.le_add_right ..)
  · show _ = BitVec.ofNat 32 (ed.committed ++ ed.line).length
    rw [List.length_append]
    exact h.e
  · show _ = BitVec.ofNat 32 ((ed.committed ++ ed.line).length + 0)
    rw [List.length_append]
    exact h.e

end Holds

theorem Inv.intr (h : Inv s) : Inv { s with cons := consoleintr c s.cons, editor := s.editor.type c } := by
  have hheld := h.used
  unfold consoleintr Editor.type
  by_cases hP : c = ctrl 'P'
  · rw [if_pos hP, if_pos (.inr hP)]
    exact h
  by_cases h0 : c = 0
  · have hU : c ≠ ctrl 'U' := by rw [h0]; decide
    have hH : ¬ (c = ctrl 'H' ∨ c = 0x7f) := by rw [h0]; decide
    rw [if_neg hP, if_neg hU, if_neg hH, if_neg (fun hc : c ≠ 0 ∧ _ => hc.1 h0), if_pos (.inl h0)]
    exact h
  rw [if_neg hP, if_neg (not_or.mpr ⟨h0, hP⟩)]
  by_cases hU : c = ctrl 'U'
  · rw [if_pos hU, if_pos hU, h.typed]
    exact ⟨Holds.kill_line h.toHolds h.line, by simp⟩
  rw [if_neg hU, if_neg hU]
  by_cases hH : c = ctrl 'H' ∨ c = 0x7f
  · rw [if_pos hH, if_pos hH]
    rcases List.eq_nil_or_concat s.editor.line with hnil | ⟨line, c', hline⟩
    · rw [if_neg (not_not.mpr (h.untouched_iff.mpr hnil)), hnil, List.dropLast_nil, ← hnil]
      exact h
    · rw [List.concat_eq_append] at hline
      have hne : s.cons.e ≠ s.cons.w := fun he => by
        rw [h.untouched_iff.mp he] at hline
        simp at hline
      rw [if_pos hne, hline, List.dropLast_concat]
      exact ⟨(h.unput hline).2, fun hmem => h.line (by rw [hline]; exact List.mem_append_left _ hmem)⟩
  rw [if_neg hH, if_neg hH, hheld]
  by_cases hroom : s.editor.held < INPUT_BUF_SIZE
  · rw [if_pos ⟨h0, hroom⟩, if_pos hroom]
    generalize (if c = 13 then newline else c) = c
    have hput := h.put (c := c) hroom
    dsimp only
    rw [hput.used]
    split_ifs with hend
    · exact ⟨hput.commit, by simp [Editor.commit]⟩
    · refine ⟨hput, fun hmem => ?_⟩
      rcases List.mem_append.mp hmem with hin | hin
      · exact h.line hin
      · exact hend (.inl (List.mem_singleton.mp hin).symm)
  · rw [if_neg fun hc => hroom hc.2, if_neg hroom]
    exact h

/-! ## Reads -/

theorem Editor.read_type (h : ed.taken ≤ ed.committed.length) : (ed.type c).read = ed.read := by
  unfold Editor.type
  generalize (if c = 13 then newline else c) = c'
  dsimp only
  split_ifs
  · rfl
  · rfl
  · rfl
  · exact List.take_append_of_le_length h
  · rfl
  · rfl

namespace Inv

theorem input_cons (h : Inv s) (hne : s.cons.r ≠ s.cons.w) :
    s.editor.input = s.cons.buf (slot s.cons.r) :: s.editor.committed.drop (s.editor.taken + 1) := by
  have hlt : s.editor.taken < s.editor.committed.length := by
    have hin : s.editor.input ≠ [] := fun hnil => hne (h.empty_iff.mpr hnil)
    rw [Editor.input, ne_eq, List.drop_eq_nil_iff] at hin
    omega
  have hnext := h.ring.held s.editor.taken (by rw [h.read_length]) (by rw [List.length_append]; omega)
  rw [List.getElem?_append_left hlt, List.getElem?_eq_getElem hlt] at hnext
  rw [Editor.input, List.drop_eq_getElem_cons hlt, h.r, slot_ofNat, Option.some.inj hnext]

theorem getc (h : Inv s) (hne : s.cons.r ≠ s.cons.w) : Inv { s with
    cons := { s.cons with r := s.cons.r + 1 }, editor := { s.editor with taken := s.editor.taken + 1 } } := by
  have hlt : s.editor.taken < s.editor.committed.length := by
    have hin : s.editor.input ≠ [] := fun hnil => hne (h.empty_iff.mpr hnil)
    rw [Editor.input, ne_eq, List.drop_eq_nil_iff] at hin
    omega
  refine ⟨⟨?_, hlt, ?_, h.w, h.e⟩, h.line⟩
  · have hpop := h.ring.pop (by rw [h.read_length, List.length_append]; omega)
    have hnext := h.ring.held s.editor.taken (by rw [h.read_length]) (by rw [List.length_append]; omega)
    rw [List.getElem?_append_left hlt, List.getElem?_eq_getElem hlt] at hnext
    rw [h.read_length, ← Option.some.inj hnext, Editor.read, List.take_concat_get' _ _ hlt] at hpop
    exact hpop
  · dsimp only
    rw [h.r, ofNat_succ]

theorem ungetc_getc (s : State) : ({ s with
    cons := { s.cons with r := s.cons.r + 1 - 1 }
    editor := { s.editor with taken := s.editor.taken + 1 - 1 } } : State) = s := by
  rw [BitVec.add_sub_cancel, Nat.add_sub_cancel]

end Inv

/-- What a read of `k` bytes finds in its input: a line, or its part up to the end of file. -/
def chunk : Nat → List Byte → List Byte
  | 0, _ => []
  | _, [] => []
  | k + 1, c :: cs => if c = eof then [] else c :: if c = newline then [] else chunk k cs

theorem chunk_length_le (k : Nat) (l : List Byte) : (chunk k l).length ≤ k := by
  induction k generalizing l with
  | zero => simp [chunk]
  | succ k ih =>
    cases l with
    | nil => simp [chunk]
    | cons c cs =>
      simp only [chunk]
      split_ifs
      · simp
      · simp
      · simpa using ih cs

/-- From `s` to `t` a read stores what it finds, up to the first byte that it has no room for. That byte is taken from
the input all the same. -/
structure Served (cap k i : Nat) (s t : State) (o : Outcome) : Prop where
  lines : t.editor.committed = s.editor.committed
  taken : ∃ bs, t.editor.read = s.editor.read ++ bs ∧
    bs.filter (· ≠ eof) = (chunk k s.editor.input).take (cap - i + 1)
  stored : t.delivered = s.delivered ++ (chunk k s.editor.input).take (cap - i)
  outcome : o = .returned (-1) ∨ ∃ j, (o = .returned (j : Nat) ∨ o = .asleep j) ∧
    j = i + ((chunk k s.editor.input).take (cap - i)).length

theorem Served.nothing (hc : chunk k s.editor.input = []) {o : Outcome} {cap : Nat}
    (ho : o = .returned (-1) ∨ o = .returned (i : Nat) ∨ o = .asleep i) : Served cap k i s s o := by
  refine ⟨rfl, ⟨[], by simp, by simp [hc]⟩, by simp [hc], ho.imp_right fun h => ⟨i, h, by simp [hc]⟩⟩

theorem consoleread_loop_ends (h : Inv s) :
    Ends (consoleread_loop env k i) s (fun o t => Inv t ∧ Served env.cap k i s t o) E := by
  induction k generalizing s i with
  | zero => exact ⟨h, .nothing rfl (.inr (.inl rfl))⟩
  | succ k ih =>
    simp only [consoleread_loop, ends_bind, ends_gets, ends_ite, ends_pure, Console.getc, ends_update]
    refine ⟨fun hempty => ⟨h, .nothing ?_ ?_⟩, fun hne => ?_⟩
    · rw [h.empty_iff.mp hempty]
      rfl
    · split_ifs
      · exact .inl rfl
      · exact .inr (.inr rfl)
    have hin := h.input_cons hne
    have hget := h.getc hne
    generalize s.cons.buf (slot s.cons.r) = c at hin ⊢
    have hread : ({ s.editor with taken := s.editor.taken + 1 } : Editor).read = s.editor.read ++ [c] := by
      rw [Editor.read, List.take_add_one, ← List.head?_drop, ← Editor.input, hin]
      rfl
    refine ⟨fun heof => ?_, fun heof => ⟨fun hcap => ?_, fun hcap => ?_⟩⟩
    · -- The end of file is left for the next read, unless it comes first.
      have hnil : chunk (k + 1) s.editor.input = [] := by
        rw [hin, chunk, if_pos heof]
      rw [ends_when]
      refine ⟨fun _ => ?_, fun _ => ⟨hget, rfl, ⟨[c], hread, ?_⟩, by simp [hnil], .inr ⟨i, .inl rfl, by simp [hnil]⟩⟩⟩
      · simp only [ungetc, ends_update, Inv.ungetc_getc]
        exact ⟨h, .nothing hnil (.inr (.inl rfl))⟩
      · simp [hnil, heof]
    · have hsub : env.cap - i = env.cap - (i + 1) + 1 := by omega
      simp only [deliver, ends_update]
      refine ⟨fun hnl => ?_, fun hnl => ?_⟩
      · have hone : chunk (k + 1) s.editor.input = [c] := by
          rw [hin, chunk, if_neg heof, if_pos hnl]
        refine ⟨⟨hget.toHolds, h.line⟩, rfl, ⟨[c], hread, ?_⟩, ?_, .inr ⟨i + 1, .inl rfl, ?_⟩⟩
        · simp [hone, heof]
        · simp [hone, hsub]
        · simp [hone, hsub]
      · have hmore : chunk (k + 1) s.editor.input = c :: chunk k (s.editor.committed.drop (s.editor.taken + 1)) := by
          rw [hin, chunk, if_neg heof, if_neg hnl]
        refine (ih (s := { s with
          cons := { s.cons with r := s.cons.r + 1 }
          editor := { s.editor with taken := s.editor.taken + 1 }
          delivered := s.delivered ++ [c] }) ⟨hget.toHolds, h.line⟩).mono ?_
        rintro o t ⟨ht, hlines, ⟨bs, hbs, hfilter⟩, hstored, hout⟩
        refine ⟨ht, hlines, ⟨c :: bs, ?_, ?_⟩, ?_, hout.imp_right ?_⟩
        · rw [hbs]
          exact (congrArg (· ++ bs) hread).trans (List.append_assoc ..)
        · rw [hmore, List.filter_cons_of_pos (by simpa using heof), hfilter, hsub]
          rfl
        · rw [hstored, hmore, hsub, List.append_assoc]
          rfl
        · rintro ⟨j, hj, hlen⟩
          refine ⟨j, hj, ?_⟩
          rw [hmore, hsub, List.take_succ_cons, List.length_cons, hlen]
          simp only [Editor.input]
          omega
    · have hcons : ∃ cs, chunk (k + 1) s.editor.input = c :: cs := by
        rw [hin, chunk, if_neg heof]
        exact ⟨_, rfl⟩
      obtain ⟨cs, hcs⟩ := hcons
      have hsub : env.cap - i = 0 := by omega
      refine ⟨hget, rfl, ⟨[c], hread, ?_⟩, ?_, .inr ⟨i, .inl rfl, ?_⟩⟩
      · simp [hcs, hsub, heof]
      · simp [hsub]
      · simp [hsub]

/-! ## Runs -/

def copies : Act → State → Bool
  | .intr _, _ => true
  | .read _ n env, _ => n ≤ env.cap
  | .resume t env, s =>
    match s.thread t with
    | .out => true
    | .reading n _ => n ≤ env.cap

structure Good (s : State) : Prop extends Inv s where
  delivered : s.delivered = s.editor.read.filter (· ≠ eof)

theorem Good.runRead {tid : Nat} (h : Good s) (hn : n ≤ env.cap) :
    Ends (runRead tid env n i) s (fun _ t => Good t) E := by
  unfold Console.runRead consoleread
  rw [ends_bind]
  refine (consoleread_loop_ends h.toInv).mono ?_
  rintro o t ⟨ht, -, ⟨bs, hbs, hfilter⟩, hstored, -⟩
  have hall : (chunk (n - i).toNat s.editor.input).length ≤ env.cap - i := by
    have := chunk_length_le (n - i).toNat s.editor.input
    omega
  rw [List.take_of_length_le (by omega)] at hfilter hstored
  have hgood : t.delivered = t.editor.read.filter (· ≠ eof) := by
    rw [hbs, List.filter_append, hfilter, hstored, h.delivered]
  cases o with
  | asleep j => exact ⟨⟨ht.toHolds, ht.line⟩, hgood⟩
  | returned r => exact ⟨⟨ht.toHolds, ht.line⟩, hgood⟩

theorem Good.step {a : Act} (h : Good s) (hc : copies a s = true) :
    Ends (step a) s (fun _ t => Good t) (fun _ => True) := by
  cases a with
  | intr c =>
    refine ⟨h.intr, ?_⟩
    show s.delivered = (s.editor.type c).read.filter _
    rw [Editor.read_type h.taken]
    exact h.delivered
  | read tid n env =>
    simp only [Console.step, ends_bind, ends_gets, ends_ite, ends_stop]
    exact ⟨fun _ => h.runRead (of_decide_eq_true hc), fun _ => trivial⟩
  | resume tid env =>
    simp only [Console.step, ends_bind, ends_gets]
    cases hth : s.thread tid with
    | out => exact trivial
    | reading n i =>
      rw [copies, hth] at hc
      exact h.runRead (of_decide_eq_true hc)

theorem start_inv (buf : Nat → Byte) : Inv (start buf) :=
  ⟨⟨.nil _, Nat.le_refl _, rfl, rfl, rfl⟩, by simp [start]⟩

theorem good_of_path {buf : Nat → Byte} (h : Path step (fun a s => copies a s = true) (start buf) s) : Good s := by
  refine h.invariant (I := Good) ⟨start_inv buf, rfl⟩ ?_
  intro a t t' ht hc hrun
  exact (ht.step hc).of_ok hrun

/-! ## Where a read ends -/

inductive Ending where
  | count
  | line
  | eof
  | open
  deriving DecidableEq

def ending : Nat → List Byte → Ending
  | 0, _ => .count
  | _ + 1, [] => .open
  | k + 1, c :: cs => if c = eof then .eof else if c = newline then .line else ending k cs

/-- A read of `k` more bytes, after `i`. Where it ends with control-D that is put back, unless the read has nothing else
to return. -/
structure Answers (env : Env) (k i : Nat) (s : State) (o : Outcome) (t : State) : Prop where
  lines : t.editor.committed = s.editor.committed
  stored : t.delivered = s.delivered ++ chunk k s.editor.input
  taken : t.editor.taken = s.editor.taken + (chunk k s.editor.input).length +
    if ending k s.editor.input = .eof ∧ i + (chunk k s.editor.input).length = 0 then 1 else 0
  outcome : o = if ending k s.editor.input = .open then
      (if env.killed = true then .returned (-1) else .asleep (i + (chunk k s.editor.input).length))
    else .returned (i + (chunk k s.editor.input).length : Nat)

theorem consoleread_loop_answers (h : Inv s) (hcap : k = 0 ∨ i + k ≤ env.cap) :
    Ends (consoleread_loop env k i) s (fun o t => Answers env k i s o t) E := by
  induction k generalizing s i with
  | zero => exact ⟨rfl, by simp [chunk], by simp [chunk, ending], by simp [chunk, ending]⟩
  | succ k ih =>
    simp only [consoleread_loop, ends_bind, ends_gets, ends_ite, ends_pure, Console.getc, ends_update]
    refine ⟨fun hempty => ?_, fun hne => ?_⟩
    · have hnil := h.empty_iff.mp hempty
      exact ⟨rfl, by simp [hnil, chunk], by simp [hnil, chunk, ending], by simp [hnil, chunk, ending]⟩
    have hin := h.input_cons hne
    have hget := h.getc hne
    generalize s.cons.buf (slot s.cons.r) = c at hin ⊢
    refine ⟨fun heof => ?_, fun heof => ⟨fun _ => ?_, fun hfull => absurd hcap (by omega)⟩⟩
    · rw [ends_when]
      refine ⟨fun hpos => ?_, fun hzero => ?_⟩
      · simp only [ungetc, ends_update, Inv.ungetc_getc]
        refine ⟨rfl, by simp [hin, heof, chunk], ?_, by simp [hin, heof, chunk, ending]⟩
        simp [hin, heof, chunk, Nat.pos_iff_ne_zero.mp hpos]
      · refine ⟨rfl, by simp [hin, heof, chunk], ?_, by simp [hin, heof, chunk, ending]⟩
        simp [hin, heof, chunk, ending, Nat.eq_zero_of_not_pos hzero]
    simp only [deliver, ends_update]
    refine ⟨fun hnl => ?_, fun hnl => ?_⟩
    · have hchunk : chunk (k + 1) s.editor.input = [c] := by
        rw [hin, chunk, if_neg heof, if_pos hnl]
      have hending : ending (k + 1) s.editor.input = .line := by
        rw [hin, ending, if_neg heof, if_pos hnl]
      exact ⟨rfl, by rw [hchunk], by simp [hchunk, hending], by simp [hchunk, hending]⟩
    · refine (ih (s := { s with
        cons := { s.cons with r := s.cons.r + 1 }
        editor := { s.editor with taken := s.editor.taken + 1 }
        delivered := s.delivered ++ [c] }) ⟨hget.toHolds, h.line⟩ (.inr (by omega))).mono fun o t ht => ?_
      have hchunk : chunk (k + 1) s.editor.input = c :: chunk k (s.editor.committed.drop (s.editor.taken + 1)) := by
        rw [hin, chunk, if_neg heof, if_neg hnl]
      have hending : ending (k + 1) s.editor.input = ending k (s.editor.committed.drop (s.editor.taken + 1)) := by
        rw [hin, ending, if_neg heof, if_neg hnl]
      have hlen : i + (chunk (k + 1) s.editor.input).length =
          i + 1 + (chunk k (s.editor.committed.drop (s.editor.taken + 1))).length := by
        rw [hchunk, List.length_cons]
        omega
      refine ⟨ht.lines, ?_, ?_, ?_⟩
      · rw [ht.stored, hchunk, List.append_assoc]
        rfl
      · have hsome : ∀ {p : Prop} {m : Nat}, ¬ (p ∧ i + 1 + m = 0) := by omega
        rw [ht.taken, hlen, if_neg hsome, if_neg hsome, hchunk, List.length_cons]
        simp only [Editor.input]
        omega
      · rw [ht.outcome, hlen, hending]
        rfl

/-- The console delivers what a line editor commits. A read gets one line at most, and ends there or at control-D. -/
theorem line_discipline {buf : Nat → Byte} (h : Path step (fun a s => copies a s = true) (start buf) s) :
    ((s.cons.w - s.cons.r).toNat ≤ (s.cons.e - s.cons.r).toNat ∧ (s.cons.e - s.cons.r).toNat ≤ INPUT_BUF_SIZE) ∧
      (s.cons.r = BitVec.ofNat 32 s.editor.taken ∧ s.cons.w = BitVec.ofNat 32 s.editor.committed.length ∧
        s.editor.taken ≤ s.editor.committed.length) ∧
      s.delivered = (s.editor.committed.take s.editor.taken).filter (· ≠ eof) ∧
      s.delivered <+: s.editor.committed.filter (· ≠ eof) ∧
      ∀ (env : Env) (n : Int) (i : Nat) o t, n ≤ env.cap → consoleread env n i s = .ok (o, t) →
        Answers env (n - i).toNat i s o t := by
  have hs := good_of_path h
  have hroom := hs.room
  have htaken := hs.taken
  refine ⟨⟨?_, ?_⟩, ⟨hs.r, hs.w, htaken⟩, hs.delivered, ?_, fun env n i o t hn hrun => ?_⟩
  · rw [hs.unread, hs.used, Editor.held]
    omega
  · rw [hs.used, Editor.held]
    omega
  · rw [hs.delivered]
    exact (List.take_prefix ..).filter _
  · exact (consoleread_loop_answers (E := fun _ => True) hs.toInv (by omega)).of_ok hrun

def typing : List Act :=
  let env : Env := ⟨false, 8⟩
  [.read 0 8 env, .intr 97, .intr 120, .intr 127, .intr 98, .intr 13, .resume 0 env, .intr 99, .intr eof]

/-- The next read returns one byte, and leaves control-D to the one after it. -/
theorem line_discipline_typing : ∃ s t, Path step (fun a s => copies a s = true) (start fun _ => 0) s ∧
    s.delivered = [97, 98, 10] ∧ s.editor.committed = [97, 98, 10, 99, eof] ∧
    s.delivered <+: s.editor.committed.filter (· ≠ eof) ∧
    consoleread ⟨false, 8⟩ 8 0 s = .ok (.returned 1, t) ∧ t.delivered = [97, 98, 10, 99] ∧ t.editor.input = [eof] ∧
    Answers ⟨false, 8⟩ 8 0 s (.returned 1) t := by
  let test : State → Bool := fun s => (consoleread ⟨false, 8⟩ 8 0 s).toOption.any fun x : Outcome × State =>
    decide (x.1 = .returned 1 ∧ x.2.delivered = [97, 98, 10, 99] ∧ x.2.editor.input = [eof] ∧
      s.delivered = [97, 98, 10] ∧ s.editor.committed = [97, 98, 10, 99, eof])
  obtain ⟨s, hrun, hs⟩ := Path.exists_of_follow step (C := fun a s => copies a s = true) typing (start fun _ => 0)
    test (by decide +kernel)
  obtain ⟨-, -, -, hprefix, hreads⟩ := line_discipline hrun
  rw [Option.any_eq_true] at hs
  obtain ⟨⟨o, t⟩, hread, hval⟩ := hs
  have hread := Xv6.Lib.toOption_eq_some.mp hread
  obtain ⟨rfl, hd, hin, hsd, hc⟩ := of_decide_eq_true hval
  exact ⟨s, t, hrun, hsd, hc, hprefix, hread, hd, hin, hreads ⟨false, 8⟩ 8 0 _ t (by decide) hread⟩

end Xv6.Console
