import Mathlib.Algebra.Ring.Int.Defs
import Mathlib.Logic.Function.Basic
import Mathlib.Tactic.SplitIfs
import Xv6.Lib.Op
import Xv6.Lib.Path

/-!
# The process table: `kfork`, `kexit`, `kwait` and `kkill` of `proc.c`

A step is one critical section of `wait_lock` or of a `p->lock`. Between two of them any other process may go on.
A process is named by its slot.
-/

open Xv6.Lib Op

namespace Xv6.Sched

abbrev NPROC : Nat := 64

inductive Procstate where
  | unused | used | sleeping | runnable | running | zombie
  deriving DecidableEq

structure Proc where
  state : Procstate
  -- A process sleeps here on another process only.
  chan : Option Nat
  killed : Bool
  xstate : Int
  pid : Int
  parent : Option Nat
  deriving DecidableEq

inductive Pc where
  | user
  -- `kfork`, with `np->lock` released, and with `np->parent` set.
  | forked (np : Nat) (pid : Int)
  | parented (np : Nat) (pid : Int)
  -- `kkill`, about to look at `q`.
  | killing (pid : Int) (q : Nat)
  -- `kexit`, from `acquire(&wait_lock)` on. The calls of `wakeup` look at `r` next.
  | exiting (status : Int)
  | reparent (status : Int) (q : Nat)
  | rewake (status : Int) (q r : Nat)
  | exitwake (status : Int) (r : Nat)
  | dying (status : Int)
  -- `kwait`.
  | waiting (addr : Nat)
  | scan (addr : Nat) (q : Nat) (havekids : Bool)
  | scanned (addr : Nat) (havekids : Bool)
  | drowsy (addr : Nat)
  deriving DecidableEq

structure State where
  proc : Nat → Proc
  nextpid : Int
  wait_lock : Option Nat
  pc : Nat → Pc
  -- What the last call returned, and the `int`s that `kwait` stored in the memory of each process.
  a0 : Nat → Int
  mem : Nat → Nat → Int
  -- How often each slot became a zombie, and how often a `kwait` returned its pid.
  exits : Nat → Nat
  reports : Nat → Nat

abbrev T (α : Type) := Op State α

def initproc : Nat := 0

def proc (q : Nat) : T Proc := Op.gets fun s => s.proc q

def setProc (q : Nat) (x : Proc) : T Unit := Op.update fun s => { s with proc := Function.update s.proc q x }

def goto (p : Nat) (c : Pc) : T Unit := Op.update fun s => { s with pc := Function.update s.pc p c }

def ret (p : Nat) (r : Int) : T Unit := Op.update fun s =>
  { s with pc := Function.update s.pc p .user, a0 := Function.update s.a0 p r }

def acquireWait (p : Nat) : T Unit := do
  let l ← Op.gets State.wait_lock
  if l = none then Op.update fun s => { s with wait_lock := some p } else Op.stop "wait_lock is held"

def releaseWait : T Unit := Op.update fun s => { s with wait_lock := none }

/-! ## Allocation -/

def int32 (x : Int) : Int := (x + 2 ^ 31) % 2 ^ 32 - 2 ^ 31

def allocpid : T Int := do
  let pid ← Op.gets State.nextpid
  Op.update fun s => { s with nextpid := int32 (s.nextpid + 1) }
  pure pid

def Proc.free : Proc where
  state := .unused
  chan := none
  killed := false
  xstate := 0
  pid := 0
  parent := none

def freeproc (q : Nat) : T Unit := setProc q Proc.free

def allocproc (np : Nat) (kalloc : Bool) : T Bool := do
  let x ← proc np
  if np < NPROC ∧ x.state = .unused then do
    let pid ← allocpid
    setProc np { x with pid := pid, state := .used }
    if kalloc = false then do
      freeproc np
      pure false
    else pure true
  else Op.stop "not a free slot"

-- Up to the release of `np->lock`.
def kfork (p np : Nat) (kalloc uvmcopy : Bool) : T Unit := do
  let ok ← allocproc np kalloc
  if ok = false then ret p (-1)
  else if uvmcopy = false then do
    freeproc np
    ret p (-1)
  else do
    let x ← proc np
    goto p (.forked np x.pid)

/-! ## One round of a loop -/

def wakeup1 (p : Nat) (chan : Option Nat) (q : Nat) : T Unit := do
  let x ← proc q
  Op.when (q ≠ p ∧ x.state = .sleeping ∧ x.chan = chan) (setProc q { x with state := .runnable })

def kkill1 (pid : Int) (q : Nat) : T Bool := do
  let x ← proc q
  if x.pid = pid then do
    setProc q { x with killed := true, state := if x.state = .sleeping then .runnable else x.state }
    pure true
  else pure false

def kkill_loop (pid : Int) : Nat → Nat → T Int
  | 0, _ => pure (-1)
  | k + 1, q => do
    let found ← kkill1 pid q
    if found then pure 0 else kkill_loop pid k (q + 1)

def kkill (pid : Int) : T Int := kkill_loop pid NPROC 0

def reap (p addr q : Nat) (copied : Bool) : T Unit := do
  let x ← proc q
  if x.state = .zombie then
    if addr ≠ 0 ∧ copied = false then do
      releaseWait
      ret p (-1)
    else do
      Op.update fun s =>
        { s with
          mem := if addr = 0 then s.mem
            else Function.update s.mem p (Function.update (s.mem p) addr x.xstate)
          reports := Function.update s.reports q (s.reports q + 1) }
      freeproc q
      releaseWait
      ret p x.pid
  else goto p (.scan addr (q + 1) true)

/-! ## Steps -/

def goOn (p : Nat) (copied : Bool) : Pc → T Unit
  | .user => Op.stop "not in a call"
  | .forked np pid => do
    acquireWait p
    let x ← proc np
    setProc np { x with parent := some p }
    releaseWait
    goto p (.parented np pid)
  | .parented np pid => do
    let x ← proc np
    setProc np { x with state := .runnable }
    ret p pid
  | .killing pid q =>
    if q < NPROC then do
      let found ← kkill1 pid q
      if found then ret p 0 else goto p (.killing pid (q + 1))
    else ret p (-1)
  | .exiting status => do
    acquireWait p
    goto p (.reparent status 0)
  | .reparent status q =>
    if q < NPROC then do
      let x ← proc q
      if x.parent = some p then do
        setProc q { x with parent := some initproc }
        goto p (.rewake status q 0)
      else goto p (.reparent status (q + 1))
    else goto p (.exitwake status 0)
  | .rewake status q r =>
    if r < NPROC then do
      wakeup1 p (some initproc) r
      goto p (.rewake status q (r + 1))
    else goto p (.reparent status (q + 1))
  | .exitwake status r =>
    if r < NPROC then do
      let x ← proc p
      wakeup1 p x.parent r
      goto p (.exitwake status (r + 1))
    else goto p (.dying status)
  | .dying status => do
    let x ← proc p
    setProc p { x with xstate := status, state := .zombie }
    Op.update fun s => { s with exits := Function.update s.exits p (s.exits p + 1) }
    releaseWait
    goto p .user
  | .waiting addr => do
    acquireWait p
    goto p (.scan addr 0 false)
  | .scan addr q havekids =>
    if q < NPROC then do
      let x ← proc q
      if x.parent = some p then reap p addr q copied else goto p (.scan addr (q + 1) havekids)
    else goto p (.scanned addr havekids)
  | .scanned addr havekids => do
    let x ← proc p
    if havekids = false ∨ x.killed = true then do
      releaseWait
      ret p (-1)
    else goto p (.drowsy addr)
  -- `sleep(p, &wait_lock)`.
  | .drowsy addr => do
    let x ← proc p
    setProc p { x with chan := some p, state := .sleeping }
    releaseWait
    goto p (.waiting addr)

inductive Act where
  | schedule (p : Nat)
  | yield (p : Nat)
  | fork (p np : Nat) (kalloc uvmcopy : Bool)
  | kill (p : Nat) (pid : Int)
  | exit (p : Nat) (status : Int)
  | wait (p : Nat) (addr : Nat)
  | goOn (p : Nat) (copied : Bool)

def call (p : Nat) (x : T Unit) : T Unit := do
  let s ← Op.gets id
  if (s.proc p).state = .running ∧ s.pc p = .user then x else Op.stop "not in user space"

def run : Act → T Unit
  | .schedule p => do
    let x ← proc p
    if x.state = .runnable then setProc p { x with state := .running, chan := none } else Op.stop "not runnable"
  | .yield p => do
    let x ← proc p
    if x.state = .running then setProc p { x with state := .runnable } else Op.stop "not running"
  | .fork p np kalloc uvmcopy => call p (kfork p np kalloc uvmcopy)
  | .kill p pid => call p (goto p (.killing pid 0))
  | .exit p status => call p (if p = initproc then Op.stop "init exiting" else goto p (.exiting status))
  | .wait p addr => call p (goto p (.waiting addr))
  | .goOn p copied => do
    let s ← Op.gets id
    if (s.proc p).state = .running then goOn p copied (s.pc p) else Op.stop "not running"

def boot : State where
  proc := Function.update (fun _ => Proc.free) initproc { Proc.free with state := .runnable, pid := 1 }
  nextpid := 2
  wait_lock := none
  pc := fun _ => .user
  a0 := fun _ => 0
  mem := fun _ _ => 0
  exits := fun _ => 0
  reports := fun _ => 0

/-! ## The invariant -/

def Proc.live (x : Proc) : Prop := x.state = .sleeping ∨ x.state = .runnable ∨ x.state = .running

namespace Pc

def locked : Pc → Bool
  | .reparent .. | .rewake .. | .exitwake .. | .dying _ | .scan .. | .scanned .. | .drowsy _ => true
  | _ => false

def child : Pc → Option Nat
  | .forked np _ | .parented np _ => some np
  | _ => none

def exits : Pc → Bool
  | .exiting _ | .reparent .. | .rewake .. | .exitwake .. | .dying _ => true
  | _ => false

def passed : Pc → Nat
  | .reparent _ q => q
  | .rewake _ q _ => q + 1
  | .exitwake .. | .dying _ => NPROC
  | _ => 0

end Pc

structure Inv (s : State) : Prop where
  init : (s.proc initproc).live
  unused : ∀ q, (s.proc q).state = .unused → (s.proc q).parent = none ∧ (s.proc q).pid = 0
  beyond : ∀ q, NPROC ≤ q → (s.proc q).state = .unused
  parent : ∀ q r, (s.proc q).parent = some r → (s.proc r).live
  inside : ∀ p, s.pc p ≠ .user → (s.proc p).live
  lock : ∀ p, (s.pc p).locked = true → s.wait_lock = some p
  child : ∀ p np, (s.pc p).child = some np → (s.proc np).state = .used ∧ ∀ r, (s.pc r).child = some np → r = p
  exits : ∀ p, (s.pc p).exits = true → p ≠ initproc
  passed : ∀ p q, q < (s.pc p).passed → (s.proc q).parent ≠ some p
  count : ∀ q, s.exits q = s.reports q + if (s.proc q).state = .zombie then 1 else 0

variable {s t : State} {p q np : Nat} {c : Pc} {x y : Proc}

namespace Proc

def Like (x y : Proc) : Prop := x.parent = y.parent ∧ x.pid = y.pid ∧ (x.state = y.state ∨ x.live ∧ y.live)

theorem Like.refl (x : Proc) : x.Like x := ⟨rfl, rfl, .inl rfl⟩

theorem Like.live_iff (h : x.Like y) : x.live ↔ y.live := by
  obtain ⟨-, -, h | h⟩ := h
  · rw [live, live, h]
  · exact iff_of_true h.1 h.2

theorem Like.state_iff (h : x.Like y) {st : Procstate} (hst : st = .unused ∨ st = .used ∨ st = .zombie) :
    x.state = st ↔ y.state = st := by
  obtain ⟨-, -, h | ⟨hx, hy⟩⟩ := h
  · rw [h]
  · refine iff_of_false ?_ ?_
    · rintro rfl
      rcases hx with hx | hx | hx <;> simp [hx] at hst
    · rintro rfl
      rcases hy with hy | hy | hy <;> simp [hy] at hst

theorem Like.update {f : Nat → Proc} (h : x.Like (f q)) (r : Nat) : (Function.update f q x r).Like (f r) := by
  rw [Function.update_apply]
  split_ifs with hr
  · rwa [hr]
  · exact .refl _

end Proc

theorem ends_call {f : T Unit} {Q : Unit → State → Prop}
    (hf : (s.proc p).live → Ends f s Q (fun _ => True)) : Ends (call p f) s Q (fun _ => True) := by
  simp only [Sched.call, ends_bind, ends_gets, ends_ite, ends_stop, id]
  exact ⟨fun hr => hf (.inr (.inr hr.1)), fun _ => trivial⟩

namespace Inv

theorem alone (h : Inv s) (hl : s.wait_lock = none ∨ s.wait_lock = some p) {r : Nat} (hr : (s.pc r).locked = true) :
    r = p := by
  have := h.lock r hr
  rw [this] at hl
  simpa using hl

theorem replace (h : Inv s) (hlive : c = .user ∨ (t.proc p).live) (hproc : t.proc = Function.update s.proc q x)
    (hpc : t.pc = Function.update s.pc p c)
    (hlock : t.wait_lock = s.wait_lock ∨ s.wait_lock = none ∨ s.wait_lock = some p)
    (hc : c.locked = true → t.wait_lock = some p) (hexits : c.exits = true → p ≠ initproc)
    (hpassed : ∀ r < c.passed, (t.proc r).parent ≠ some p)
    (hchild : ∀ np, c.child = some np → (t.proc np).state = .used ∧ ∀ r ≠ p, (s.pc r).child ≠ some np)
    (hunused : x.state = .unused → x.parent = none ∧ x.pid = 0) (hbeyond : NPROC ≤ q → x.state = .unused)
    (hparent : ∀ r, x.parent = some r → (t.proc r).live)
    (hdead : x.live ∨ ¬ (s.proc q).live ∨ q = p ∧ p ≠ initproc ∧ ∀ r, (s.proc r).parent ≠ some p)
    (hused : x.state = .used ∨ ∀ r ≠ p, (s.pc r).child ≠ some q)
    (hleft : ∀ r ≠ p, q < (s.pc r).passed → x.parent ≠ some r)
    (hcount : ∀ r, t.exits r = t.reports r + if (t.proc r).state = .zombie then 1 else 0) : Inv t := by
  have hslot : ∀ P : Nat → Proc → Prop, P q x → (∀ r ≠ q, P r (s.proc r)) → ∀ r, P r (t.proc r) := by
    intro P hq hr
    rw [hproc]
    exact (Function.forall_update_iff s.proc P).mpr ⟨hq, hr⟩
  have hcall : ∀ P : Nat → Pc → Prop, P p c → (∀ r ≠ p, P r (s.pc r)) → ∀ r, P r (t.pc r) := by
    intro P hp hr
    rw [hpc]
    exact (Function.forall_update_iff s.pc P).mpr ⟨hp, hr⟩
  -- A slot that others rely on stays alive.
  have hstay : ∀ r, (s.proc r).live → (r = initproc ∨ (∃ r', (s.proc r').parent = some r) ∨ r ≠ p) →
      (t.proc r).live := by
    refine hslot (fun r y => (s.proc r).live → _ → y.live) (fun hr hneed => ?_) fun r _ hr _ => hr
    obtain hx | hx | ⟨rfl, hx, hnone⟩ := hdead
    · exact hx
    · exact absurd hr hx
    · rcases hneed with hi | ⟨r', hr'⟩ | hne
      · exact absurd hi hx
      · exact absurd hr' (hnone r')
      · exact absurd rfl hne
  refine ⟨hstay _ h.init (.inl rfl), ?_, ?_, ?_, ?_, ?_, ?_, ?_, ?_, hcount⟩
  · exact hslot (fun _ y => y.state = .unused → y.parent = none ∧ y.pid = 0) hunused fun r _ => h.unused r
  · exact hslot (fun r y => NPROC ≤ r → y.state = .unused) hbeyond fun r _ => h.beyond r
  · exact hslot (fun _ y => ∀ r', y.parent = some r' → (t.proc r').live) hparent fun r _ r' hr =>
      hstay r' (h.parent r r' hr) (.inr (.inl ⟨r, hr⟩))
  · exact hcall (fun r d => d ≠ .user → (t.proc r).live) hlive.resolve_left fun r hrp hr =>
      hstay r (h.inside r hr) (.inr (.inr hrp))
  · refine hcall (fun r d => d.locked = true → t.wait_lock = some r) hc fun r hrp hr => ?_
    obtain hl | hl := hlock
    · rw [hl]
      exact h.lock r hr
    · exact absurd (h.alone hl hr) hrp
  · refine hcall (fun r d => ∀ np, d.child = some np → (t.proc np).state = .used ∧
      ∀ r', (t.pc r').child = some np → r' = r) (fun np hnp => ?_) fun r hrp np hnp => ?_
    · obtain ⟨hst, hno⟩ := hchild np hnp
      exact ⟨hst, hcall (fun r' d => d.child = some np → r' = p) (fun _ => rfl) fun r' hr' hch =>
        absurd hch (hno r' hr')⟩
    · obtain ⟨hst, honly⟩ := h.child r np hnp
      refine ⟨?_, hcall (fun r' d => d.child = some np → r' = r) (fun hch => absurd hnp ((hchild np hch).2 r hrp))
        fun r' _ => honly r'⟩
      refine hslot (fun np' y => np' = np → y.state = .used) ?_ (fun np' _ he => he ▸ hst) np rfl
      rintro rfl
      exact hused.resolve_right fun hno => hno r hrp hnp
  · exact hcall (fun r d => d.exits = true → r ≠ initproc) hexits fun r _ => h.exits r
  · refine hcall (fun r d => ∀ r', r' < d.passed → (t.proc r').parent ≠ some r) hpassed fun r hrp r' => ?_
    exact hslot (fun r' y => r' < (s.pc r).passed → y.parent ≠ some r) (hleft r hrp) (fun r' _ => h.passed r r') r'

theorem next (h : Inv s) (hlive : (s.proc p).live) (hproc : t.proc = Function.update s.proc q x)
    (hx : x.Like (s.proc q)) (hpc : t.pc = Function.update s.pc p c)
    (hlock : t.wait_lock = s.wait_lock ∨ s.wait_lock = none ∨ s.wait_lock = some p)
    (hc : c.locked = true → t.wait_lock = some p)
    (hchild : ∀ np, c.child = some np → (s.proc np).state = .used ∧ ∀ r ≠ p, (s.pc r).child ≠ some np)
    (hexits : c.exits = true → p ≠ initproc) (hpassed : ∀ r < c.passed, (s.proc r).parent ≠ some p)
    (hcount : t.exits = s.exits ∧ t.reports = s.reports) : Inv t := by
  have hlike : ∀ r, (t.proc r).Like (s.proc r) := fun r => hproc ▸ hx.update r
  refine h.replace (.inr ((hlike p).live_iff.mpr hlive)) hproc hpc hlock hc hexits ?_ ?_ ?_ ?_ ?_ ?_ ?_ ?_ ?_
  · intro r hr
    rw [(hlike r).1]
    exact hpassed r hr
  · intro np hnp
    rw [(hlike np).state_iff (.inr (.inl rfl))]
    exact hchild np hnp
  · intro hu
    rw [hx.1, hx.2.1]
    exact h.unused q ((hx.state_iff (.inl rfl)).mp hu)
  · intro hq
    exact (hx.state_iff (.inl rfl)).mpr (h.beyond q hq)
  · intro r hr
    rw [hx.1] at hr
    exact (hlike r).live_iff.mpr (h.parent q r hr)
  · exact (Classical.em _).imp hx.live_iff.mpr .inl
  · by_cases hu : x.state = .used
    · exact .inl hu
    · exact .inr fun r _ hr => hu ((hx.state_iff (.inr (.inl rfl))).mpr (h.child r q hr).1)
  · intro r _ hr
    rw [hx.1]
    exact h.passed r q hr
  · intro r
    rw [hcount.1, hcount.2, h.count r]
    simp only [(hlike r).state_iff (.inr (.inr rfl))]

theorem jump (h : Inv s) (hlive : (s.proc p).live) (hproc : t.proc = s.proc) (hpc : t.pc = Function.update s.pc p c)
    (hlock : t.wait_lock = s.wait_lock ∨ s.wait_lock = none ∨ s.wait_lock = some p)
    (hc : c.locked = true → t.wait_lock = some p) (hchild : c.child = none)
    (hexits : c.exits = true → p ≠ initproc) (hpassed : ∀ r < c.passed, (s.proc r).parent ≠ some p)
    (hcount : t.exits = s.exits ∧ t.reports = s.reports) : Inv t :=
  h.next hlive (q := p) (hproc.trans (Function.update_eq_self p s.proc).symm) (.refl _) hpc hlock hc
    (by rw [hchild]; simp) hexits hpassed hcount

variable {b : Bool}

theorem like_wake (h : x.state = .sleeping) : { x with state := .runnable }.Like x :=
  ⟨rfl, rfl, .inr ⟨.inr (.inl rfl), .inl h⟩⟩

theorem like_kill (x : Proc) :
    ({ x with killed := true, state := if x.state = .sleeping then .runnable else x.state } : Proc).Like x := by
  refine ⟨rfl, rfl, ?_⟩
  split
  · exact .inr ⟨.inr (.inl rfl), .inl ‹_›⟩
  · exact .inl rfl

theorem wakeup1 (h : Inv s) (hlive : (s.proc p).live) {chan : Option Nat} {r : Nat}
    (hc : c.locked = true → s.wait_lock = some p) (hchild : c.child = none)
    (hexits : c.exits = true → p ≠ initproc) (hpassed : ∀ r < c.passed, (s.proc r).parent ≠ some p) :
    Ends (do Sched.wakeup1 p chan r; goto p c) s (fun _ t => Inv t) (fun _ => True) := by
  simp only [Sched.wakeup1, goto, proc, setProc, ends_bind, ends_gets, ends_when, ends_update]
  refine ⟨fun hw => ?_, fun _ => ?_⟩
  · exact h.next hlive rfl (like_wake hw.2.1) rfl (.inl rfl) hc (by rw [hchild]; simp) hexits hpassed ⟨rfl, rfl⟩
  · exact h.jump hlive rfl rfl (.inl rfl) hc hchild hexits hpassed ⟨rfl, rfl⟩

theorem count_update (h : Inv s) (hx : x.state = .zombie ↔ (s.proc q).state = .zombie) (r : Nat) :
    s.exits r = s.reports r + if (Function.update s.proc q x r).state = .zombie then 1 else 0 := by
  rw [h.count r]
  by_cases hr : r = q
  · rw [hr, Function.update_self]
    simp only [hx]
  · rw [Function.update_of_ne hr]

theorem not_live_of_used (h : x.state = .used) : ¬ x.live := by
  rintro (hl | hl | hl) <;> simp [hl] at h

theorem forked (h : Inv s) (hlive : (s.proc p).live) {pid : Int} (hpc : s.pc p = .forked np pid) :
    Ends (goOn p b (.forked np pid)) s (fun _ t => Inv t) (fun _ => True) := by
  simp only [goOn, acquireWait, releaseWait, goto, proc, setProc, ends_bind, ends_gets, ends_ite,
    ends_update, ends_stop]
  refine ⟨fun hl => ?_, fun _ => trivial⟩
  obtain ⟨hused, honly⟩ := h.child p np (by rw [hpc]; rfl)
  have hdead := not_live_of_used hused
  have hne : p ≠ np := by
    rintro rfl
    exact hdead hlive
  have hp : ∀ y, (Function.update s.proc np y p).live := fun y => by rwa [Function.update_of_ne hne]
  refine h.replace (c := .parented np pid) (.inr (hp _)) rfl rfl (.inr (.inl hl)) (by rintro ⟨⟩) (by rintro ⟨⟩)
    (by intros; contradiction) ?_ ?_
    (h.beyond np) ?_ (.inr (.inl hdead)) (.inl hused) ?_ (h.count_update Iff.rfl)
  · intro np' hnp
    obtain rfl : np = np' := Option.some.inj hnp
    refine ⟨?_, fun r hr hch => hr (honly r hch)⟩
    show (Function.update s.proc np _ np).state = _
    rw [Function.update_self]
    exact hused
  · intro hu
    exact absurd (hused.symm.trans hu) (by decide)
  · intro r hr
    obtain rfl : p = r := Option.some.inj hr
    exact hp _
  · -- With the lock free nobody is in `reparent`.
    intro r hr hlt
    have hfree : (s.pc r).locked = false := by
      by_contra hr
      have := h.lock r (by simpa using hr)
      rw [hl] at this
      cases this
    cases hrc : s.pc r <;> simp [hrc, Pc.locked] at hfree <;> simp [hrc, Pc.passed] at hlt

theorem parented (h : Inv s) {pid : Int} (hpc : s.pc p = .parented np pid) :
    Ends (goOn p b (.parented np pid)) s (fun _ t => Inv t) (fun _ => True) := by
  simp only [goOn, ret, proc, setProc, ends_bind, ends_gets, ends_update]
  obtain ⟨hused, honly⟩ := h.child p np (by rw [hpc]; rfl)
  have hx : ({ s.proc np with state := .runnable } : Proc).live := .inr (.inl rfl)
  refine h.replace (c := .user) (.inl rfl) rfl rfl (.inl rfl) (by rintro ⟨⟩) (by rintro ⟨⟩) (by intros; contradiction)
    (by intros; contradiction) (by simp) ?_ ?_ (.inl hx)
    (.inr fun r hr hch => hr (honly r hch)) (fun r _ => h.passed r np) (h.count_update ?_)
  · intro hn
    exact absurd (hused.symm.trans (h.beyond np hn)) (by decide)
  · intro r hr
    show (Function.update s.proc np _ r).live
    rw [Function.update_apply]
    split_ifs
    · exact hx
    · exact h.parent np r hr
  · rw [hused]
    exact ⟨(by simp), (by simp)⟩

theorem reparent (h : Inv s) (hlive : (s.proc p).live) {status : Int} (hpc : s.pc p = .reparent status q) :
    Ends (goOn p b (.reparent status q)) s (fun _ t => Inv t) (fun _ => True) := by
  have hl : s.wait_lock = some p := h.lock p (by rw [hpc]; rfl)
  have hexit : p ≠ initproc := h.exits p (by rw [hpc]; rfl)
  have hpass : ∀ r < q, (s.proc r).parent ≠ some p := fun r hr => h.passed p r (by rw [hpc]; exact hr)
  simp only [goOn, goto, proc, setProc, ends_bind, ends_gets, ends_ite, ends_update]
  refine ⟨fun hq => ⟨fun hpar => ?_, fun hpar => ?_⟩, fun hq => ?_⟩
  · have hstate : ∀ r, (Function.update s.proc q { s.proc q with parent := some initproc } r).state = (s.proc r).state := by
      intro r
      rw [Function.update_apply]
      split_ifs with hr
      · rw [hr]
      · rfl
    have hup : ∀ r, (Function.update s.proc q { s.proc q with parent := some initproc } r).live ↔ (s.proc r).live := by
      intro r
      rw [Proc.live, Proc.live, hstate r]
    refine h.replace (c := .rewake status q 0) (.inr ((hup p).mpr hlive)) rfl rfl (.inl rfl) (fun _ => hl) (fun _ => hexit)
      ?_ (by intros; contradiction) ?_ (h.beyond q) ?_ ?_ ?_ ?_ (h.count_update Iff.rfl)
    · intro r hr
      show (Function.update s.proc q _ r).parent ≠ _
      rw [Function.update_apply]
      split_ifs with hrq
      · exact fun he => hexit (Option.some.inj he).symm
      · exact hpass r (by simp only [Pc.passed] at hr; omega)
    · intro hu
      rw [(h.unused q hu).1] at hpar
      cases hpar
    · intro r hr
      obtain rfl : initproc = r := Option.some.inj hr
      exact (hup _).mpr h.init
    · exact (Classical.em _).imp id .inl
    · by_cases hu : (s.proc q).state = .used
      · exact .inl hu
      · exact .inr fun r _ hr => hu (h.child r q hr).1
    · intro r hr hlt
      have hexr : (s.pc r).exits = true := by
        cases hrc : s.pc r <;> simp [hrc, Pc.passed] at hlt <;> rfl
      exact fun he => h.exits r hexr (Option.some.inj he).symm
  · refine h.jump (c := .reparent status (q + 1)) hlive rfl rfl (.inl rfl) (fun _ => hl) rfl (fun _ => hexit) ?_ ⟨rfl, rfl⟩
    intro r hr
    obtain rfl | hlt := Nat.lt_succ_iff_lt_or_eq.mp hr |>.symm
    · exact hpar
    · exact hpass r hlt
  · refine h.jump (c := .exitwake status 0) hlive rfl rfl (.inl rfl) (fun _ => hl) rfl (fun _ => hexit) ?_ ⟨rfl, rfl⟩
    intro r hr
    exact hpass r (by simp only [Pc.passed] at hr; omega)

theorem dying (h : Inv s) {status : Int} (hpc : s.pc p = .dying status) :
    Ends (goOn p b (.dying status)) s (fun _ t => Inv t) (fun _ => True) := by
  have hl : s.wait_lock = some p := h.lock p (by rw [hpc]; rfl)
  have hlive : (s.proc p).live := h.inside p (by rw [hpc]; simp)
  have hexit : p ≠ initproc := h.exits p (by rw [hpc]; rfl)
  have hnone : ∀ r, (s.proc r).parent ≠ some p := by
    intro r
    by_cases hr : r < NPROC
    · exact h.passed p r (by rw [hpc]; exact hr)
    · rw [(h.unused r (h.beyond r (Nat.le_of_not_lt hr))).1]
      simp
  simp only [goOn, releaseWait, goto, proc, setProc, ends_bind, ends_gets, ends_update]
  refine h.replace (c := .user) (.inl rfl) rfl rfl (.inr (.inr hl)) (by rintro ⟨⟩) (by rintro ⟨⟩)
    (by intros; contradiction) (by intros; contradiction) (by simp) ?_ ?_
    (.inr (.inr ⟨rfl, hexit, hnone⟩)) ?_ (fun r _ => h.passed r p) ?_
  · intro hp
    rcases hlive with hs | hs | hs <;> rw [h.beyond p hp] at hs <;> cases hs
  · intro r hr
    have hne : r ≠ p := by
      rintro rfl
      exact hnone r hr
    show (Function.update s.proc p _ r).live
    rw [Function.update_of_ne hne]
    exact h.parent p r hr
  · exact .inr fun r _ hr => not_live_of_used (h.child r p hr).1 hlive
  · intro r
    show Function.update s.exits p (s.exits p + 1) r =
      s.reports r + if (Function.update s.proc p _ r).state = .zombie then 1 else 0
    by_cases hr : r = p
    · subst hr
      have hz : (s.proc r).state ≠ .zombie := by
        rcases hlive with hs | hs | hs <;> rw [hs] <;> simp
      rw [Function.update_self, Function.update_self, h.count r, if_neg hz, if_pos rfl]
    · rw [Function.update_of_ne hr, Function.update_of_ne hr, h.count r]

theorem reap (h : Inv s) {addr : Nat} {kids : Bool} (hpc : s.pc p = .scan addr q kids) :
    Ends (reap p addr q b) s (fun _ t => Inv t) (fun _ => True) := by
  have hl : s.wait_lock = some p := h.lock p (by rw [hpc]; rfl)
  have hlive : (s.proc p).live := h.inside p (by rw [hpc]; simp)
  simp only [Sched.reap, freeproc, releaseWait, ret, goto, proc, setProc, ends_bind, ends_gets, ends_ite,
    ends_update]
  refine ⟨fun hz => ⟨fun _ => ?_, fun _ => ?_⟩, fun _ => ?_⟩
  · exact h.jump (c := .user) hlive rfl rfl (.inr (.inr hl)) (by rintro ⟨⟩) rfl (by rintro ⟨⟩)
      (by intros; contradiction) ⟨rfl, rfl⟩
  · have hdead : ¬ (s.proc q).live := by
      rintro (hs | hs | hs) <;> rw [hz] at hs <;> cases hs
    refine h.replace (c := .user) (.inl rfl) rfl rfl (.inr (.inr hl)) (by rintro ⟨⟩) (by rintro ⟨⟩)
      (by intros; contradiction) (by intros; contradiction) (fun _ => ⟨rfl, rfl⟩)
      (fun _ => rfl) (by intros; contradiction) (.inr (.inl hdead)) ?_ (fun _ _ _ => (by rintro ⟨⟩)) ?_
    · refine .inr fun r _ hr => ?_
      have := (h.child r q hr).1
      rw [hz] at this
      cases this
    · intro r
      show s.exits r = Function.update s.reports q (s.reports q + 1) r +
        if (Function.update s.proc q _ r).state = .zombie then 1 else 0
      by_cases hr : r = q
      · subst hr
        rw [Function.update_self, Function.update_self, h.count r, if_pos hz]
        rfl
      · rw [Function.update_of_ne hr, Function.update_of_ne hr, h.count r]
  · exact h.jump (c := .scan addr (q + 1) true) hlive rfl rfl (.inl rfl) (fun _ => hl) rfl (by rintro ⟨⟩)
      (by intros; contradiction) ⟨rfl, rfl⟩

theorem goOn (h : Inv s) (hlive : (s.proc p).live) :
    Ends (goOn p b (s.pc p)) s (fun _ t => Inv t) (fun _ => True) := by
  cases hpc : s.pc p with
  | user => exact trivial
  | forked np pid => exact h.forked hlive hpc
  | parented np pid => exact h.parented hpc
  | killing pid q =>
    simp only [Sched.goOn, kkill1, ret, goto, proc, setProc, ends_bind, ends_gets, ends_ite, ends_update,
      ends_pure]
    refine ⟨fun _ => ⟨fun _ => ⟨fun _ => ?_, (by simp)⟩, fun _ => ⟨(by simp), fun _ => ?_⟩⟩, fun _ => ?_⟩
    · exact h.next (c := .user) hlive rfl (like_kill _) rfl (.inl rfl) (by rintro ⟨⟩) (by intros; contradiction)
        (by rintro ⟨⟩) (by intros; contradiction) ⟨rfl, rfl⟩
    · exact h.jump (c := .killing pid (q + 1)) hlive rfl rfl (.inl rfl) (by rintro ⟨⟩) rfl (by rintro ⟨⟩)
        (by intros; contradiction) ⟨rfl, rfl⟩
    · exact h.jump (c := .user) hlive rfl rfl (.inl rfl) (by rintro ⟨⟩) rfl (by rintro ⟨⟩) (by intros; contradiction)
        ⟨rfl, rfl⟩
  | exiting status =>
    simp only [Sched.goOn, acquireWait, goto, ends_bind, ends_gets, ends_ite, ends_update, ends_stop]
    refine ⟨fun hl => ?_, fun _ => trivial⟩
    exact h.jump (c := .reparent status 0) hlive rfl rfl (.inr (.inl hl)) (fun _ => rfl) rfl
      (fun _ => h.exits p (by rw [hpc]; rfl)) (by intros; contradiction) ⟨rfl, rfl⟩
  | reparent status q => exact h.reparent hlive hpc
  | rewake status q r =>
    have hl : s.wait_lock = some p := h.lock p (by rw [hpc]; rfl)
    have hexit : p ≠ initproc := h.exits p (by rw [hpc]; rfl)
    have hpass : ∀ r < q + 1, (s.proc r).parent ≠ some p := fun r hr => h.passed p r (by rw [hpc]; exact hr)
    rw [Sched.goOn, ends_ite]
    refine ⟨fun _ => h.wakeup1 hlive (fun _ => hl) rfl (fun _ => hexit) hpass, fun _ => ?_⟩
    exact h.jump (c := .reparent status (q + 1)) hlive rfl rfl (.inl rfl) (fun _ => hl) rfl (fun _ => hexit) hpass
      ⟨rfl, rfl⟩
  | exitwake status r =>
    have hl : s.wait_lock = some p := h.lock p (by rw [hpc]; rfl)
    have hexit : p ≠ initproc := h.exits p (by rw [hpc]; rfl)
    have hpass : ∀ r < NPROC, (s.proc r).parent ≠ some p := fun r hr => h.passed p r (by rw [hpc]; exact hr)
    rw [Sched.goOn, ends_ite]
    refine ⟨fun _ => ?_, fun _ => ?_⟩
    · rw [ends_bind, proc, ends_gets]
      exact h.wakeup1 hlive (fun _ => hl) rfl (fun _ => hexit) hpass
    · exact h.jump (c := .dying status) hlive rfl rfl (.inl rfl) (fun _ => hl) rfl (fun _ => hexit) hpass ⟨rfl, rfl⟩
  | dying status => exact h.dying hpc
  | waiting addr =>
    simp only [Sched.goOn, acquireWait, goto, ends_bind, ends_gets, ends_ite, ends_update, ends_stop]
    refine ⟨fun hl => ?_, fun _ => trivial⟩
    exact h.jump (c := .scan addr 0 false) hlive rfl rfl (.inr (.inl hl)) (fun _ => rfl) rfl (by rintro ⟨⟩)
      (by intros; contradiction) ⟨rfl, rfl⟩
  | scan addr q kids =>
    have hl : s.wait_lock = some p := h.lock p (by rw [hpc]; rfl)
    simp only [Sched.goOn, goto, proc, ends_bind, ends_gets, ends_ite, ends_update]
    refine ⟨fun hq => ⟨fun _ => h.reap hpc, fun _ => ?_⟩, fun _ => ?_⟩
    · exact h.jump (c := .scan addr (q + 1) kids) hlive rfl rfl (.inl rfl) (fun _ => hl) rfl (by rintro ⟨⟩)
        (by intros; contradiction) ⟨rfl, rfl⟩
    · exact h.jump (c := .scanned addr kids) hlive rfl rfl (.inl rfl) (fun _ => hl) rfl (by rintro ⟨⟩)
        (by intros; contradiction) ⟨rfl, rfl⟩
  | scanned addr kids =>
    have hl : s.wait_lock = some p := h.lock p (by rw [hpc]; rfl)
    simp only [Sched.goOn, releaseWait, ret, goto, proc, ends_bind, ends_gets, ends_ite, ends_update]
    refine ⟨fun _ => ?_, fun _ => ?_⟩
    · exact h.jump (c := .user) hlive rfl rfl (.inr (.inr hl)) (by rintro ⟨⟩) rfl (by rintro ⟨⟩)
        (by intros; contradiction) ⟨rfl, rfl⟩
    · exact h.jump (c := .drowsy addr) hlive rfl rfl (.inl rfl) (fun _ => hl) rfl (by rintro ⟨⟩)
        (by intros; contradiction) ⟨rfl, rfl⟩
  | drowsy addr =>
    have hl : s.wait_lock = some p := h.lock p (by rw [hpc]; rfl)
    simp only [Sched.goOn, releaseWait, goto, proc, setProc, ends_bind, ends_gets, ends_update]
    exact h.next (c := .waiting addr) hlive rfl ⟨rfl, rfl, .inr ⟨.inl rfl, hlive⟩⟩ rfl (.inr (.inr hl)) (by rintro ⟨⟩)
      (by intros; contradiction) (by rintro ⟨⟩)
      (by intros; contradiction) ⟨rfl, rfl⟩

theorem kfork (h : Inv s) (hlive : (s.proc p).live) {kalloc uvmcopy : Bool} :
    Ends (kfork p np kalloc uvmcopy) s (fun _ t => Inv t) (fun _ => True) := by
  simp only [Sched.kfork, allocproc, allocpid, freeproc, ret, goto, proc, setProc, ends_bind, ends_gets,
    ends_ite, ends_update, ends_pure, ends_stop]
  refine ⟨?_, fun _ => trivial⟩
  rintro ⟨hnp, hfree⟩
  obtain ⟨hpar, hpid⟩ := h.unused np hfree
  have hback : Proc.free.Like (s.proc np) := ⟨hpar.symm, hpid.symm, .inl hfree.symm⟩
  have hdead : ¬ (s.proc np).live := by
    rintro (hs | hs | hs) <;> rw [hfree] at hs <;> cases hs
  have hne : p ≠ np := by
    rintro rfl
    exact hdead hlive
  have hfresh : ∀ r, (s.pc r).child ≠ some np := by
    intro r hr
    have := (h.child r np hr).1
    rw [hfree] at this
    cases this
  refine ⟨fun _ => ⟨fun _ => ?_, (by simp)⟩, fun _ => ⟨(by simp), fun _ => ⟨fun _ => ?_, fun _ => ?_⟩⟩⟩
  · exact h.next (c := .user) hlive (Function.update_idem ..) hback rfl (.inl rfl) (by rintro ⟨⟩)
      (by intros; contradiction) (by rintro ⟨⟩) (by intros; contradiction) ⟨rfl, rfl⟩
  · exact h.next (c := .user) hlive (Function.update_idem ..) hback rfl (.inl rfl) (by rintro ⟨⟩)
      (by intros; contradiction) (by rintro ⟨⟩) (by intros; contradiction) ⟨rfl, rfl⟩
  · refine h.replace (c := .forked np _) (.inr ?_) rfl rfl (.inl rfl) (by rintro ⟨⟩) (by rintro ⟨⟩)
      (by intros; contradiction) ?_ (by simp) ?_ ?_
      (.inr (.inl hdead)) (.inl rfl) (fun r _ => h.passed r np) (h.count_update ?_)
    · show (Function.update s.proc np _ p).live
      rwa [Function.update_of_ne hne]
    · intro np' hnp
      obtain rfl : np = np' := Option.some.inj hnp
      refine ⟨?_, fun r _ => hfresh r⟩
      show (Function.update s.proc np _ np).state = _
      rw [Function.update_self]
    · intro hn
      omega
    · intro r hr
      rw [hpar] at hr
      cases hr
    · rw [hfree]
      exact ⟨(by simp), (by simp)⟩

theorem slot (h : Inv s) (hx : x.Like (s.proc p)) (hlive : (s.proc p).live) :
    Inv { s with proc := Function.update s.proc p x } := by
  refine h.next (c := s.pc p) hlive rfl hx (Function.update_eq_self ..).symm (.inl rfl) (h.lock p) (fun np hnp => ?_)
    (h.exits p) (h.passed p) ⟨rfl, rfl⟩
  obtain ⟨hst, honly⟩ := h.child p np hnp
  exact ⟨hst, fun r hr hch => hr (honly r hch)⟩

theorem run (h : Inv s) (a : Act) : Ends (run a) s (fun _ t => Inv t) (fun _ => True) := by
  cases a with
  | schedule p =>
    simp only [Sched.run, proc, setProc, ends_bind, ends_gets, ends_ite, ends_update, ends_stop]
    refine ⟨fun hr => ?_, fun _ => trivial⟩
    exact h.slot ⟨rfl, rfl, .inr ⟨.inr (.inr rfl), .inr (.inl hr)⟩⟩ (.inr (.inl hr))
  | yield p =>
    simp only [Sched.run, proc, setProc, ends_bind, ends_gets, ends_ite, ends_update, ends_stop]
    refine ⟨fun hr => ?_, fun _ => trivial⟩
    exact h.slot ⟨rfl, rfl, .inr ⟨.inr (.inl rfl), .inr (.inr hr)⟩⟩ (.inr (.inr hr))
  | fork p np kalloc uvmcopy => exact ends_call fun hlive => h.kfork hlive
  | kill p pid =>
    refine ends_call fun hlive => ?_
    exact h.jump (c := .killing pid 0) hlive rfl rfl (.inl rfl) (by rintro ⟨⟩) rfl (by rintro ⟨⟩)
      (by intros; contradiction) ⟨rfl, rfl⟩
  | exit p status =>
    refine ends_call fun hlive => ?_
    rw [ends_ite]
    refine ⟨fun _ => trivial, fun hp => ?_⟩
    exact h.jump (c := .exiting status) hlive rfl rfl (.inl rfl) (by rintro ⟨⟩) rfl (fun _ => hp)
      (by intros; contradiction) ⟨rfl, rfl⟩
  | wait p addr =>
    refine ends_call fun hlive => ?_
    exact h.jump (c := .waiting addr) hlive rfl rfl (.inl rfl) (by rintro ⟨⟩) rfl (by rintro ⟨⟩)
      (by intros; contradiction) ⟨rfl, rfl⟩
  | goOn p copied =>
    simp only [Sched.run, ends_bind, ends_gets, ends_ite, ends_stop, id]
    exact ⟨fun hr => h.goOn (.inr (.inr hr)), fun _ => trivial⟩

end Inv

theorem boot_inv : Inv boot := by
  have hfree : ∀ q ≠ initproc, boot.proc q = Proc.free := fun q hq => by simp [boot, hq]
  have hpar : ∀ q, (boot.proc q).parent = none := by
    intro q
    simp only [boot, Function.update_apply]
    split_ifs <;> rfl
  refine ⟨.inr (.inl rfl), fun q hq => ⟨hpar q, ?_⟩, fun q hq => ?_, fun q r hr => ?_, (by intros; contradiction),
    (by intros; contradiction), (by intros; contradiction), (by intros; contradiction), (by intros; contradiction),
    fun q => ?_⟩
  · rw [hfree q (by rintro rfl; cases hq)]
    rfl
  · rw [hfree q (by rintro rfl; exact absurd hq (by decide))]
    rfl
  · rw [hpar q] at hr
    cases hr
  · simp only [boot, Function.update_apply]
    split_ifs <;> first | rfl | contradiction

theorem inv_of_path {C : Act → State → Prop} (h : Path run C boot s) : Inv s :=
  h.invariant boot_inv fun a _ _ hs _ hrun => (hs.run a).of_ok hrun

end Xv6.Sched
