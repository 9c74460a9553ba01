import Xv6.Sched.Switch

/-!
# Interrupts and locks: `spinlock.c`, and `sched` of `proc.c`

`noff` and `intena` belong to the processor, and `sched` keeps the value of `intena` on the stack of the thread. Where the
scheduler does not switch to a thread it may take and give back locks as it likes.
-/

open Xv6.Lib Op

namespace Xv6.Intr

open Switch (Lock)

structure Cpu where
  noff : Nat
  intena : Bool
  -- `SSTATUS_SIE`.
  sie : Bool
  -- The process whose thread it runs, if it is not on its scheduler.
  on : Option Nat
  -- The lock that `acquire` spins on.
  want : Option Lock
  -- On the side: the locks it holds, the calls of `push_off` without a `pop_off` or a lock, and whether interrupts were
  -- on before the first of the calls that make up `noff`.
  held : List Lock
  pushes : Nat
  before : Bool

/-- The kernel thread of a process while it does not run. A new one starts in `forkret`, not in `sched`. -/
structure Thread where
  out : Bool
  started : Bool
  intena : Bool
  before : Bool

structure State where
  cpu : Nat → Cpu
  thread : Nat → Thread
  lock : Lock → Option Nat

abbrev M (α : Type) := Op State α

def setCpu (c : Nat) (k : Cpu) : M Unit := Op.update fun s => { s with cpu := Function.update s.cpu c k }

def setThread (p : Nat) (th : Thread) : M Unit := Op.update fun s => { s with thread := Function.update s.thread p th }

def setLock (lk : Lock) (v : Option Nat) : M Unit := Op.update fun s => { s with lock := Function.update s.lock lk v }

/-! ## `spinlock.c` -/

def Cpu.push_off (k : Cpu) : Cpu :=
  { k with
    sie := false
    intena := if k.noff = 0 then k.sie else k.intena
    before := if k.noff = 0 then k.sie else k.before
    noff := k.noff + 1
    pushes := k.pushes + 1 }

def pop_off (c : Nat) : M Unit := do
  let k ← Op.gets fun s => s.cpu c
  if k.sie then Op.stop "pop_off - interruptible"
  else if k.noff < 1 then Op.stop "pop_off"
  else
    setCpu c { k with
      noff := k.noff - 1
      pushes := k.pushes - 1
      sie := if k.noff - 1 = 0 ∧ k.intena then true else k.sie }

def acquire (c : Nat) (lk : Lock) : M Unit := do
  let s ← Op.gets id
  setCpu c { (s.cpu c).push_off with want := some lk }
  if s.lock lk = some c then Op.stop "acquire" else pure ()

def spin (c : Nat) (lk : Lock) : M Unit := do
  let s ← Op.gets id
  let k := s.cpu c
  if k.want = some lk ∧ s.lock lk = none then do
    setLock lk (some c)
    setCpu c { k with want := none, held := lk :: k.held, pushes := k.pushes - 1 }
  else Op.stop "not now"

def release (c : Nat) (lk : Lock) : M Unit := do
  let s ← Op.gets id
  let k := s.cpu c
  if s.lock lk = some c then do
    setLock lk none
    setCpu c { k with held := k.held.erase lk, pushes := k.pushes + 1 }
    pop_off c
  else Op.stop "release"

/-! ## `proc.c` -/

def sched (c p : Nat) : M Unit := do
  let s ← Op.gets id
  let k := s.cpu c
  if s.lock (.proc p) ≠ some c then Op.stop "sched p->lock"
  else if k.noff ≠ 1 then Op.stop "sched locks"
  else if k.sie then Op.stop "sched interruptible"
  else do
    setThread p { s.thread p with out := true, intena := k.intena, before := k.before }
    setCpu c { k with on := none }

def swtch (c p : Nat) : M Unit := do
  let s ← Op.gets id
  let k := s.cpu c
  let th := s.thread p
  if s.lock (.proc p) = some c ∧ k.noff = 1 ∧ th.out then do
    setThread p { th with out := false, started := true }
    setCpu c { k with
      on := some p
      intena := if th.started then th.intena else k.intena
      before := if th.started then th.before else k.before }
  else Op.stop "not now"

inductive Act where
  | push_off | pop_off
  | acquire (lk : Lock) | spin (lk : Lock) | release (lk : Lock)
  | intr (on : Bool)
  | sched | swtch (p : Nat)
  | allocproc (p : Nat)
  deriving DecidableEq

/-- The code that runs on `c` goes on. It calls `pop_off` only after a `push_off` of its own. -/
def act (c : Nat) (s : State) : Act → M Unit
  | .push_off => setCpu c (s.cpu c).push_off
  | .pop_off => if (s.cpu c).pushes = 0 then Op.stop "not now" else pop_off c
  | .acquire lk => acquire c lk
  | .spin _ => Op.stop "not now"
  | .release lk => release c lk
  | .intr on => if (s.cpu c).noff = 0 then setCpu c { s.cpu c with sie := on } else Op.stop "not now"
  | .sched => (s.cpu c).on.elim (Op.stop "not now") (sched c)
  | .swtch p => if (s.cpu c).on = none then swtch c p else Op.stop "not now"
  | .allocproc p => if (s.thread p).out then setThread p { s.thread p with started := false } else Op.stop "not now"

def run : Nat × Act → M Unit
  | (c, .spin lk) => spin c lk
  | (c, a) => do
    let s ← Op.gets id
    if (s.cpu c).want.isSome then Op.stop "not now" else act c s a

def start (sie intena : Nat → Bool) : State where
  cpu c := { noff := 0, intena := intena c, sie := sie c, on := none, want := none, held := [], pushes := 0, before := sie c }
  thread _ := { out := true, started := false, intena := false, before := false }
  lock _ := none

/-! ## What holds in every run -/

structure Cpu.Ok (k : Cpu) : Prop where
  noff : k.noff = k.held.length + k.pushes
  off : 0 < k.noff → k.sie = false
  before : 0 < k.noff → k.intena = k.before
  nodup : k.held.Nodup
  spins : k.want.isSome → 0 < k.pushes

structure Inv (s : State) : Prop where
  cpu : ∀ c, (s.cpu c).Ok
  locks : ∀ c lk, lk ∈ (s.cpu c).held ↔ s.lock lk = some c
  saved : ∀ p, (s.thread p).out = true → (s.thread p).started = true → (s.thread p).intena = (s.thread p).before

def Panic (msg : String) : Prop := msg = "pop_off" ∨ msg = "pop_off - interruptible"

instance (msg : String) : Decidable (Panic msg) := inferInstanceAs (Decidable (_ ∨ _))

variable {s t : State} {c p : Nat} {k : Cpu} {lk : Lock}

/-- What a step on `c` does: if it takes `noff` back to 0, then interrupts are as they were. -/
structure Step (s : State) (c : Nat) (t : State) : Prop where
  inv : Inv t
  back : 0 < (s.cpu c).noff → (t.cpu c).noff = 0 → (t.cpu c).sie = (s.cpu c).before

theorem Cpu.Ok.push_off (h : k.Ok) (want : Option Lock) : Cpu.Ok { k.push_off with want } := by
  refine ⟨?_, fun _ => rfl, fun _ => ?_, h.nodup, by simp [Cpu.push_off]⟩
  · simp [Cpu.push_off, h.noff, Nat.add_assoc]
  · simp only [Cpu.push_off]
    split_ifs with h0
    · rfl
    · exact h.before (by omega)

namespace Inv

theorem change (h : Inv s) (hcpu : t.cpu = Function.update s.cpu c k) (hk : k.Ok)
    (hlock : ∀ l, (t.lock l = some c ↔ l ∈ k.held) ∧ (t.lock l = s.lock l ∨ ∀ d ≠ c, s.lock l ≠ some d ∧ t.lock l ≠ some d))
    (hsaved : ∀ q, (t.thread q).out = true → (t.thread q).started = true → (t.thread q).intena = (t.thread q).before) :
    Inv t := by
  refine ⟨?_, ?_, hsaved⟩
  · rw [hcpu]
    exact (Function.forall_update_iff s.cpu fun _ k => k.Ok).mpr ⟨hk, fun d _ => h.cpu d⟩
  · rw [hcpu]
    refine (Function.forall_update_iff s.cpu fun d k => ∀ l, l ∈ k.held ↔ t.lock l = some d).mpr
      ⟨fun l => (hlock l).1.symm, fun d hd l => ?_⟩
    rw [h.locks]
    rcases (hlock l).2 with he | hne
    · rw [he]
    · exact iff_of_false (hne d hd).1 (hne d hd).2

theorem same_locks (h : Inv s) (hheld : k.held = (s.cpu c).held) (l : Lock) :
    (s.lock l = some c ↔ l ∈ k.held) ∧ (s.lock l = s.lock l ∨ ∀ d ≠ c, s.lock l ≠ some d ∧ s.lock l ≠ some d) :=
  ⟨hheld ▸ (h.locks c l).symm, .inl rfl⟩

theorem saved_update (h : Inv s) {th : Thread} (hth : th.out = true → th.started = true → th.intena = th.before) :
    ∀ q, (Function.update s.thread p th q).out = true → (Function.update s.thread p th q).started = true →
      (Function.update s.thread p th q).intena = (Function.update s.thread p th q).before :=
  (Function.forall_update_iff s.thread fun _ th => th.out = true → th.started = true → th.intena = th.before).mpr
    ⟨hth, fun q _ => h.saved q⟩

theorem setCpu_step (h : Inv s) (hk : k.Ok) (hheld : k.held = (s.cpu c).held) (hback : 0 < (s.cpu c).noff → k.noff ≠ 0) :
    Ends (setCpu c k) s (fun _ t => Step s c t) fun msg => ¬ Panic msg := by
  refine ⟨h.change rfl hk (h.same_locks hheld) h.saved, fun hn h0 => absurd ?_ (hback hn)⟩
  simpa using h0

theorem pop_off_step (h : Inv s) (hp : 0 < (s.cpu c).pushes) (hw : (s.cpu c).want = none) :
    Ends (pop_off c) s (fun _ t => Step s c t) fun msg => ¬ Panic msg := by
  have hk := h.cpu c
  have hn := hk.noff
  have hoff := hk.off (by omega)
  simp only [pop_off, setCpu, ends_bind, ends_gets, ends_ite, ends_stop, ends_update]
  refine ⟨fun hon => by simp [hoff] at hon, fun _ => ⟨fun hlt => by omega, fun _ => ⟨h.change rfl ⟨?_, ?_, ?_, hk.nodup, ?_⟩
    (h.same_locks rfl) h.saved, ?_⟩⟩⟩
  · simp only
    omega
  · simp only
    intro h0
    rw [if_neg (by omega), hoff]
  · simp only
    exact fun _ => hk.before (by omega)
  · simp [hw]
  · simp only [Function.update_self]
    intro hpos h0
    rw [← hk.before hpos, hoff]
    cases (s.cpu c).intena <;> simp [h0]

theorem spin_step (h : Inv s) : Ends (spin c lk) s (fun _ t => Step s c t) fun msg => ¬ Panic msg := by
  simp only [spin, setLock, setCpu, ends_bind, ends_gets, id, ends_ite, ends_update, ends_stop]
  refine ⟨?_, fun _ => by decide⟩
  rintro ⟨hw, hfree⟩
  have hk := h.cpu c
  have hn := hk.noff
  have hpos := hk.spins (by simp [hw])
  have hnot : lk ∉ (s.cpu c).held := by
    rw [h.locks c, hfree]
    simp
  refine ⟨h.change rfl ⟨?_, hk.off, hk.before, List.nodup_cons.mpr ⟨hnot, hk.nodup⟩, by simp⟩ (fun l => ?_) h.saved, ?_⟩
  · simp only [List.length_cons]
    omega
  · simp only [Function.update_apply, List.mem_cons, h.locks]
    split_ifs with hl
    · simp [hl, hfree, eq_comm]
    · simp [hl]
  · simp only [Function.update_self]
    omega

/-- `release` is `pop_off` after the lock has become one more call of `push_off`. -/
theorem release_step (h : Inv s) (hw : (s.cpu c).want = none) :
    Ends (release c lk) s (fun _ t => Step s c t) fun msg => ¬ Panic msg := by
  simp only [release, setLock, ends_bind, ends_gets, id, ends_ite, ends_update, ends_stop]
  refine ⟨fun hl => ?_, fun _ => by decide⟩
  have hk := h.cpu c
  have hmem := (h.locks c lk).mpr hl
  have hlen := List.length_erase_of_mem hmem
  have hpos := List.length_pos_of_mem hmem
  have hn := hk.noff
  have hinv : Inv { s with
      lock := Function.update s.lock lk none
      cpu := Function.update s.cpu c { s.cpu c with held := (s.cpu c).held.erase lk, pushes := (s.cpu c).pushes + 1 } } := by
    refine h.change rfl ⟨?_, hk.off, hk.before, hk.nodup.erase lk, by simp⟩ (fun l => ?_) h.saved
    · simp only [hlen]
      omega
    · simp only [Function.update_apply, hk.nodup.mem_erase_iff, h.locks]
      split_ifs with he
      · simp [he, hl, eq_comm]
      · simp [he]
  refine (hinv.pop_off_step (c := c) ?_ ?_).mono fun _ t ht => ⟨ht.inv, ?_⟩
  · simp
  · simpa using hw
  · simpa using ht.back

theorem sched_step (h : Inv s) : Ends (sched c p) s (fun _ t => Step s c t) fun msg => ¬ Panic msg := by
  simp only [sched, setThread, setCpu, ends_bind, ends_gets, id, ends_ite, ends_stop, ends_update]
  refine ⟨fun _ => by decide, fun hl => ⟨fun _ => by decide, fun hn => ⟨fun _ => by decide, fun _ => ?_⟩⟩⟩
  rw [not_not] at hn
  have hk := h.cpu c
  refine ⟨h.change rfl ⟨hk.noff, hk.off, hk.before, hk.nodup, hk.spins⟩ (h.same_locks rfl) ?_, by simp [hn]⟩
  exact h.saved_update fun _ _ => hk.before (by omega)

theorem swtch_step (h : Inv s) : Ends (swtch c p) s (fun _ t => Step s c t) fun msg => ¬ Panic msg := by
  simp only [swtch, setThread, setCpu, ends_bind, ends_gets, id, ends_ite, ends_stop, ends_update]
  refine ⟨?_, fun _ => by decide⟩
  rintro ⟨-, hn, hout⟩
  have hk := h.cpu c
  refine ⟨h.change rfl ⟨hk.noff, hk.off, fun hpos => ?_, hk.nodup, hk.spins⟩ (h.same_locks rfl) ?_, by simp [hn]⟩
  · simp only
    split_ifs with hst
    · exact h.saved p hout hst
    · exact hk.before hpos
  · exact h.saved_update (by simp)

theorem act_step (h : Inv s) (hw : (s.cpu c).want = none) (a : Act) :
    Ends (act c s a) s (fun _ t => Step s c t) fun msg => ¬ Panic msg := by
  have hk := h.cpu c
  have hstop : Ends (Op.stop "not now" : M Unit) s (fun _ t => Step s c t) fun msg => ¬ Panic msg :=
    (by decide : ¬ Panic "not now")
  cases a with
  | push_off => exact h.setCpu_step (hk.push_off (s.cpu c).want) rfl fun _ => Nat.succ_ne_zero _
  | pop_off => exact ends_ite.mpr ⟨fun _ => hstop, fun hp => h.pop_off_step (Nat.pos_of_ne_zero hp) hw⟩
  | acquire lk =>
    refine ends_bind.mpr (ends_gets.mpr (ends_bind.mpr ?_))
    refine (h.setCpu_step (hk.push_off (some lk)) rfl fun _ => Nat.succ_ne_zero _).mono fun _ t ht => ?_
    exact ends_ite.mpr ⟨fun _ => (by decide : ¬ Panic "acquire"), fun _ => ht⟩
  | spin lk => exact hstop
  | release lk => exact h.release_step hw
  | intr on =>
    refine ends_ite.mpr ⟨fun h0 => ?_, fun _ => hstop⟩
    refine h.setCpu_step ⟨hk.noff, fun hn => absurd h0 hn.ne', hk.before, hk.nodup, hk.spins⟩ rfl fun hn => hn.ne'
  | sched =>
    unfold act
    cases (s.cpu c).on with
    | none => exact hstop
    | some p => exact h.sched_step
  | swtch p => exact ends_ite.mpr ⟨fun _ => h.swtch_step, fun _ => hstop⟩
  | allocproc p =>
    refine ends_ite.mpr ⟨fun _ => ⟨⟨h.cpu, h.locks, ?_⟩, fun hn h0 => absurd h0 hn.ne'⟩, fun _ => hstop⟩
    exact h.saved_update (by simp)

theorem run (h : Inv s) (c : Nat) (a : Act) : Ends (run (c, a)) s (fun _ t => Step s c t) fun msg => ¬ Panic msg := by
  unfold Intr.run
  split
  · rename_i heq
    cases heq
    exact h.spin_step
  · rename_i heq
    cases heq
    refine ends_bind.mpr (ends_gets.mpr (ends_ite.mpr ⟨fun _ => ?_, fun hw => h.act_step ?_ a⟩))
    · exact (by decide : ¬ Panic "not now")
    · simpa using hw

end Inv

theorem start_inv (sie intena : Nat → Bool) : Inv (start sie intena) := by
  refine ⟨fun c => ⟨rfl, by simp [start], by simp [start], List.nodup_nil, by simp [start]⟩, fun c lk => ?_, fun p _ hst => ?_⟩
  · simp [start]
  · simp [start] at hst

/-- In the thread of a process `noff` is the number of locks held and of calls of `push_off` without a `pop_off`, interrupts
are off unless it is 0, and as before the first of these calls when it is 0 again. No step meets a panic of `pop_off`. -/
theorem interrupts_restored {C : Nat × Act → State → Prop} {sie intena : Nat → Bool}
    (h : Path run C (start sie intena) s) :
    (∀ c p, (s.cpu c).on = some p →
      (s.cpu c).held.Nodup ∧ (∀ lk, lk ∈ (s.cpu c).held ↔ s.lock lk = some c) ∧
      (s.cpu c).noff = (s.cpu c).held.length + (s.cpu c).pushes ∧ (0 < (s.cpu c).noff → (s.cpu c).sie = false) ∧
      ∀ a t, run (c, a) s = .ok ((), t) → 0 < (s.cpu c).noff → (t.cpu c).noff = 0 → (t.cpu c).sie = (s.cpu c).before) ∧
    ∀ c a msg, run (c, a) s = .error msg → msg ≠ "pop_off" ∧ msg ≠ "pop_off - interruptible" := by
  have hinv : Inv s := by
    refine h.invariant (I := Inv) (start_inv sie intena) ?_
    rintro ⟨c, a⟩ s t hs _ hrun
    exact ((hs.run c a).of_ok hrun).inv
  constructor
  · intro c p _
    have hk := hinv.cpu c
    exact ⟨hk.nodup, hinv.locks c, hk.noff, hk.off, fun a t hrun => ((hinv.run c a).of_ok hrun).back⟩
  · intro c a msg hrun
    exact not_or.mp ((hinv.run c a).of_error hrun)

def journey : List (Nat × Act) :=
  [(0, .acquire (.proc 0)), (0, .spin (.proc 0)), (0, .swtch 0), (0, .release (.proc 0)), (0, .intr true),
    (0, .acquire (.spin 1)), (0, .spin (.spin 1)), (0, .acquire (.proc 0)), (0, .spin (.proc 0)), (0, .release (.spin 1)),
    (0, .sched), (0, .release (.proc 0)), (1, .acquire (.proc 0)), (1, .spin (.proc 0)), (1, .swtch 0)]

theorem interrupts_restored_journey : ∃ s t, Path run (fun _ _ => True) (start (fun _ => false) fun _ => false) s ∧
    run (1, .release (.proc 0)) s = .ok ((), t) ∧ (s.cpu 1).noff = 1 ∧ (t.cpu 1).sie = true := by
  obtain ⟨s, hpath, hs⟩ := Path.exists_of_follow run (C := fun _ _ => True) journey (start (fun _ => false) fun _ => false)
    (fun s => decide ((s.cpu 1).on = some 0 ∧ (s.cpu 1).noff = 1 ∧ (s.cpu 1).before = true ∧
      ((run (1, .release (.proc 0)) s).toOption.map fun r => (r.2.cpu 1).noff) = some 0)) (by decide +kernel)
  obtain ⟨hon, hn, hbefore, hrun⟩ := of_decide_eq_true hs
  obtain ⟨⟨_, t⟩, hrun, h0⟩ := Option.map_eq_some_iff.mp hrun
  have hrun := toOption_eq_some.mp hrun
  refine ⟨s, t, hpath, hrun, hn, ?_⟩
  rw [((interrupts_restored hpath).1 1 0 hon).2.2.2.2 _ t hrun (by omega) h0, hbefore]

end Xv6.Intr
