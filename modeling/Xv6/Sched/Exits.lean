import Xv6.Sched.Table

/-!
# Exits and kills

What one step can do to one slot of the process table, and what follows for whole runs: every exit is reported once,
and a kill reaches its target only.
-/

open Xv6.Lib Op

namespace Xv6.Sched

variable {s t : State} {p q np : Nat} {c : Pc} {x : Proc}

/-! ## What a step does to a slot -/

/-- The action is the round of `p`'s `kwait` that finds the zombie `q` and returns. -/
structure Reaps (a : Act) (q : Nat) (s t : State) (p addr : Nat) : Prop where
  act : ∃ copied, a = .goOn p copied
  pc : ∃ kids, s.pc p = .scan addr q kids
  parent : (s.proc q).parent = some p
  returns : t.pc p = .user ∧ t.a0 p = (s.proc q).pid
  stored : addr ≠ 0 → t.mem p addr = (s.proc q).xstate

/-- The action is the round of a `kkill` that finds its pid at `q`. -/
structure Kills (a : Act) (q : Nat) (s : State) (pid : Int) : Prop where
  act : ∃ p copied, a = .goOn p copied ∧ s.pc p = .killing pid q
  bound : q < NPROC
  pid : (s.proc q).pid = pid

inductive Slot (a : Act) (s t : State) (q : Nat) : Prop
  | same (h : t.proc q = s.proc q)
  | moves (hs : (s.proc q).state ≠ .zombie) (ht : (t.proc q).state ≠ .unused)
  | adopted (h : ∃ r, t.proc q = { s.proc q with parent := some r })
  | unborn (hs : (s.proc q).state = .unused) (ht : t.proc q = Proc.free)
  | killed (pid : Int) (h : Kills a q s pid) (ht : (t.proc q).Like (s.proc q))
  | reaped (p addr : Nat) (h : Reaps a q s t p addr) (ht : t.proc q = Proc.free)

namespace Slot

variable {a : Act} {x : Proc} {r : Nat}

theorem update (hproc : t.proc = Function.update s.proc q x) (hq : t.proc q = x → Slot a s t q) (r : Nat) :
    Slot a s t r := by
  by_cases hr : r = q
  · subst hr
    exact hq (by rw [hproc, Function.update_self])
  · exact .same (by rw [hproc, Function.update_of_ne hr])

theorem update_moves (hproc : t.proc = Function.update s.proc q x) (hs : (s.proc q).state ≠ .zombie)
    (hx : x.state ≠ .unused) (r : Nat) : Slot a s t r :=
  update hproc (fun h => .moves hs (h ▸ hx)) r

end Slot

theorem Proc.live.ne (h : x.live) : x.state ≠ .unused ∧ x.state ≠ .zombie := by
  rcases h with h | h | h <;> rw [h] <;> exact ⟨(by simp), (by simp)⟩

theorem slot_goOn (h : Inv s) (hlive : (s.proc p).live) (copied : Bool) :
    Ends (goOn p copied (s.pc p)) s (fun _ t => ∀ r, Slot (.goOn p copied) s t r) (fun _ => True) := by
  have hsame : ∀ (t : State), t.proc = s.proc → ∀ r, Slot (.goOn p copied) s t r := fun t ht r => .same (by rw [ht])
  have hwake : ∀ (chan : Option Nat) (r : Nat) (c : Pc), Ends (do wakeup1 p chan r; goto p c) s
      (fun _ t => ∀ r, Slot (.goOn p copied) s t r) (fun _ => True) := by
    intro chan r c
    simp only [wakeup1, goto, proc, setProc, ends_bind, ends_gets, ends_when, ends_update]
    refine ⟨fun hw => Slot.update_moves rfl ?_ (by simp), fun _ => hsame _ rfl⟩
    rw [hw.2.1]
    simp
  cases hpc : s.pc p with
  | user => exact trivial
  | forked np pid =>
    simp only [goOn, acquireWait, releaseWait, goto, proc, setProc, ends_bind, ends_gets, ends_ite,
      ends_update, ends_stop]
    exact ⟨fun _ => Slot.update rfl fun hr => .adopted ⟨p, hr⟩, fun _ => trivial⟩
  | parented np pid =>
    simp only [goOn, ret, proc, setProc, ends_bind, ends_gets, ends_update]
    refine Slot.update_moves rfl ?_ (by simp)
    rw [(h.child p np (by rw [hpc]; rfl)).1]
    simp
  | killing pid q =>
    simp only [goOn, kkill1, ret, goto, proc, setProc, ends_bind, ends_gets, ends_ite, ends_update,
      ends_pure]
    refine ⟨fun hq => ⟨fun hpid => ⟨fun _ => ?_, (by simp)⟩, fun _ => ⟨(by simp), fun _ => hsame _ rfl⟩⟩, fun _ =>
      hsame _ rfl⟩
    refine Slot.update rfl fun hr => .killed pid ⟨⟨p, copied, rfl, hpc⟩, hq, hpid⟩ ?_
    rw [hr]
    exact Inv.like_kill _
  | exiting status =>
    simp only [goOn, acquireWait, goto, ends_bind, ends_gets, ends_ite, ends_update, ends_stop]
    exact ⟨fun _ => hsame _ rfl, fun _ => trivial⟩
  | reparent status q =>
    simp only [goOn, goto, proc, setProc, ends_bind, ends_gets, ends_ite, ends_update]
    exact ⟨fun _ => ⟨fun _ => Slot.update rfl fun hr => .adopted ⟨initproc, hr⟩, fun _ => hsame _ rfl⟩,
      fun _ => hsame _ rfl⟩
  | rewake status q r =>
    rw [goOn, ends_ite]
    exact ⟨fun _ => hwake .., fun _ => hsame _ rfl⟩
  | exitwake status r =>
    rw [goOn, ends_ite]
    exact ⟨fun _ => hwake .., fun _ => hsame _ rfl⟩
  | dying status =>
    simp only [goOn, releaseWait, goto, proc, setProc, ends_bind, ends_gets, ends_update]
    exact Slot.update_moves rfl hlive.ne.2 (by simp)
  | waiting addr =>
    simp only [goOn, acquireWait, goto, ends_bind, ends_gets, ends_ite, ends_update, ends_stop]
    exact ⟨fun _ => hsame _ rfl, fun _ => trivial⟩
  | scan addr q kids =>
    simp only [goOn, reap, freeproc, releaseWait, ret, goto, proc, setProc, ends_bind, ends_gets, ends_ite,
      ends_update]
    refine ⟨fun hq => ⟨fun hpar => ⟨fun hz => ⟨fun _ => hsame _ rfl, fun _ => ?_⟩, fun _ => hsame _ rfl⟩,
      fun _ => hsame _ rfl⟩, fun _ => hsame _ rfl⟩
    refine Slot.update rfl fun hr => .reaped p addr ⟨⟨copied, rfl⟩, ⟨kids, hpc⟩, hpar, ⟨?_, ?_⟩, ?_⟩ hr
    · exact Function.update_self ..
    · exact Function.update_self ..
    · intro ha
      simp [if_neg ha]
  | scanned addr kids =>
    simp only [goOn, releaseWait, ret, goto, proc, ends_bind, ends_gets, ends_ite, ends_update]
    exact ⟨fun _ => hsame _ rfl, fun _ => hsame _ rfl⟩
  | drowsy addr =>
    simp only [goOn, releaseWait, goto, proc, setProc, ends_bind, ends_gets, ends_update]
    exact Slot.update_moves rfl hlive.ne.2 (by simp)

theorem slot_run (h : Inv s) (a : Act) : Ends (run a) s (fun _ t => ∀ r, Slot a s t r) (fun _ => True) := by
  have hsame : ∀ (t : State), t.proc = s.proc → ∀ r, Slot a s t r := fun t ht r => .same (by rw [ht])
  cases a with
  | schedule p =>
    simp only [run, proc, setProc, ends_bind, ends_gets, ends_ite, ends_update, ends_stop]
    refine ⟨fun hr => Slot.update_moves rfl ?_ (by simp), fun _ => trivial⟩
    rw [hr]
    simp
  | yield p =>
    simp only [run, proc, setProc, ends_bind, ends_gets, ends_ite, ends_update, ends_stop]
    refine ⟨fun hr => Slot.update_moves rfl ?_ (by simp), fun _ => trivial⟩
    rw [hr]
    simp
  | fork p np kalloc uvmcopy =>
    refine ends_call fun hlive => ?_
    simp only [kfork, allocproc, allocpid, freeproc, ret, goto, proc, setProc, ends_bind, ends_gets,
      ends_ite, ends_update, ends_pure, ends_stop]
    refine ⟨?_, fun _ => trivial⟩
    rintro ⟨_, hfree⟩
    refine ⟨fun _ => ⟨fun _ => ?_, by simp⟩, fun _ => ⟨by simp, fun _ => ⟨fun _ => ?_, fun _ => ?_⟩⟩⟩
    · exact Slot.update (Function.update_idem ..) fun hr => .unborn hfree hr
    · exact Slot.update (Function.update_idem ..) fun hr => .unborn hfree hr
    · refine Slot.update_moves rfl ?_ (by simp)
      rw [hfree]
      simp
  | kill p pid => exact ends_call fun _ => hsame _ rfl
  | exit p status =>
    refine ends_call fun _ => ?_
    rw [ends_ite]
    exact ⟨fun _ => trivial, fun _ => hsame _ rfl⟩
  | wait p addr => exact ends_call fun _ => hsame _ rfl
  | goOn p copied =>
    simp only [run, ends_bind, ends_gets, ends_ite, ends_stop, id]
    exact ⟨fun hr => slot_goOn h (.inr (.inr hr)) copied, fun _ => trivial⟩

/-! ## Exits -/

theorem reaps_of_run (h : Inv s) {a : Act} (hrun : run a s = .ok ((), t)) (hz : (s.proc q).state = .zombie)
    (ht : (t.proc q).state ≠ .zombie) : t.proc q = Proc.free ∧ ∃ p addr, Reaps a q s t p addr := by
  cases (slot_run h a).of_ok hrun q with
  | same h => exact absurd (h ▸ hz) ht
  | moves hs _ => exact absurd hz hs
  | adopted h =>
    obtain ⟨r, hr⟩ := h
    rw [hr] at ht
    exact absurd hz ht
  | unborn hs _ =>
    rw [hz] at hs
    cases hs
  | killed pid _ hlike => exact absurd ((hlike.state_iff (.inr (.inr rfl))).mpr hz) ht
  | reaped p addr h ht => exact ⟨ht, p, addr, h⟩

/-- Every exit is reported to one waiter, the parent. -/
theorem exit_reported_once (h : Path run (fun _ _ => True) boot s) :
    (∀ q r, (s.proc r).state = .zombie → (s.proc q).parent ≠ some r) ∧
      (∀ q r, (s.proc q).state ≠ .unused → (s.proc q).parent = some r →
        (s.proc r).state ≠ .unused ∧ (s.proc r).state ≠ .zombie) ∧
      (∀ a q s', run a s = .ok ((), s') → (s.proc q).state = .zombie → (s'.proc q).state ≠ .zombie →
        (s'.proc q).state = .unused ∧ ∃ p addr, Reaps a q s s' p addr ∧ s.wait_lock = some p) ∧
      ∀ q, s.exits q = s.reports q + if (s.proc q).state = .zombie then 1 else 0 := by
  have hs := inv_of_path h
  refine ⟨?_, ?_, ?_, hs.count⟩
  · intro q r hz hr
    exact (hs.parent q r hr).ne.2 hz
  · intro q r _ hr
    exact (hs.parent q r hr).ne
  · intro a q s' hrun hz ht
    obtain ⟨hfree, p, addr, hr⟩ := reaps_of_run hs hrun hz ht
    obtain ⟨kids, hpc⟩ := hr.pc
    exact ⟨by rw [hfree]; rfl, p, addr, hr, hs.lock p (by rw [hpc]; rfl)⟩

def oneChild : List Act :=
  [.schedule 0, .fork 0 1 true true, .goOn 0 true, .goOn 0 true, .schedule 1, .exit 1 7] ++
    List.replicate (1 + (NPROC + 1) + (NPROC + 1) + 1) (.goOn 1 true) ++
    [.wait 0 4096, .goOn 0 true, .goOn 0 true, .goOn 0 true]

theorem exit_reported_once_oneChild : ∃ s, Path run (fun _ _ => True) boot s ∧
    (s.a0 0 = 2 ∧ s.mem 0 4096 = 7 ∧ s.reports 1 = 1) ∧
    (∀ q r, (s.proc r).state = .zombie → (s.proc q).parent ≠ some r) ∧
      (∀ q r, (s.proc q).state ≠ .unused → (s.proc q).parent = some r →
        (s.proc r).state ≠ .unused ∧ (s.proc r).state ≠ .zombie) ∧
      (∀ a q s', run a s = .ok ((), s') → (s.proc q).state = .zombie → (s'.proc q).state ≠ .zombie →
        (s'.proc q).state = .unused ∧ ∃ p addr, Reaps a q s s' p addr ∧ s.wait_lock = some p) ∧
      ∀ q, s.exits q = s.reports q + if (s.proc q).state = .zombie then 1 else 0 := by
  obtain ⟨s, hrun, hs⟩ := Path.exists_of_follow run (C := fun _ _ => True) oneChild boot
    (fun s => decide (s.a0 0 = 2 ∧ s.mem 0 4096 = 7 ∧ s.reports 1 = 1)) (by decide +kernel)
  exact ⟨s, hrun, of_decide_eq_true hs, exit_reported_once hrun⟩

/-! ## Kills -/

def Aimed : Act → State → Prop
  | .goOn p _, s =>
    match s.pc p with
    | .killing pid q => pid = 0 → q < NPROC → (s.proc q).state ≠ .unused
    | _ => True
  | _, _ => True

instance (a : Act) (s : State) : Decidable (Aimed a s) := by
  unfold Aimed
  split
  · split <;> infer_instance
  · infer_instance

def Quiet (s : State) : Prop := ∀ q, (s.proc q).state = .unused → (s.proc q).killed = false

theorem Kills.used {a : Act} {pid : Int} (hk : Kills a q s pid) (h : Inv s) (ha : Aimed a s) :
    (s.proc q).state ≠ .unused := by
  intro hu
  obtain ⟨p, copied, rfl, hpc⟩ := hk.act
  simp only [Aimed, hpc] at ha
  have hpid : pid = 0 := by rw [← hk.pid, (h.unused q hu).2]
  exact ha hpid hk.bound hu

theorem Quiet.run (hq : Quiet s) (h : Inv s) {a : Act} (ha : Aimed a s) :
    Ends (run a) s (fun _ t => Quiet t) (fun _ => True) := by
  refine (slot_run h a).mono fun _ t ht q hu => ?_
  cases ht q with
  | same hs =>
    rw [hs] at hu ⊢
    exact hq q hu
  | moves _ ht => exact absurd hu ht
  | adopted hr =>
    obtain ⟨r, hr⟩ := hr
    rw [hr] at hu ⊢
    exact hq q hu
  | unborn _ ht =>
    rw [ht]
    rfl
  | killed pid hk hlike => exact absurd ((hlike.state_iff (.inl rfl)).mp hu) (hk.used h ha)
  | reaped p addr _ ht =>
    rw [ht]
    rfl

structure Meets (pid : Int) (q : Nat) (s : State) : Prop where
  bound : q < NPROC
  found : (s.proc q).pid = pid
  first : ∀ r < q, (s.proc r).pid ≠ pid

theorem Meets.unique {pid : Int} {r : Nat} (hq : Meets pid q s) (hr : Meets pid r s) : q = r := by
  obtain h | h | h := Nat.lt_trichotomy q r
  · exact absurd hq.found (hr.first q h)
  · exact h
  · exact absurd hr.found (hq.first r h)

theorem run_kkill_loop {pid : Int} {k : Nat} (hk : q + k = NPROC) (hfirst : ∀ r < q, (s.proc r).pid ≠ pid) :
    Ends (kkill_loop pid k q) s (fun r t => (r = -1 ∧ t = s ∧ ∀ q, ¬ Meets pid q s) ∨
      ∃ q, Meets pid q s ∧ r = 0 ∧ (∀ r ≠ q, t.proc r = s.proc r) ∧ (t.proc q).killed = true) (fun _ => False) := by
  induction k generalizing q with
  | zero =>
    refine .inl ⟨rfl, rfl, fun r hr => ?_⟩
    exact hfirst r (by have := hr.bound; omega) hr.found
  | succ k ih =>
    simp only [kkill_loop, kkill1, proc, setProc, ends_bind, ends_gets, ends_ite, ends_update, ends_pure]
    refine ⟨fun hpid => ⟨fun _ => ?_, (by simp)⟩, fun hpid => ⟨(by simp), fun _ => ?_⟩⟩
    · refine .inr ⟨q, ⟨by omega, hpid, hfirst⟩, trivial, fun r hr => Function.update_of_ne hr .., ?_⟩
      show (Function.update s.proc q _ q).killed = true
      rw [Function.update_self]
    · refine ih (by omega) fun r hr => ?_
      obtain rfl | hlt := Nat.lt_succ_iff_lt_or_eq.mp hr |>.symm
      · exact hpid
      · exact hfirst r hlt

/-- A call of `kkill` changes a process of that pid only, and returns -1 when there is none. -/
def OnlyTarget (pid : Int) (s : State) (r : Int) (t : State) : Prop :=
  (∀ q, t.proc q ≠ s.proc q → (s.proc q).state ≠ .unused ∧ (s.proc q).pid = pid) ∧
    ((∀ q < NPROC, (s.proc q).state ≠ .unused → (s.proc q).pid ≠ pid) → r = -1)

theorem Quiet.kkill (hq : Quiet s) (pid : Int) : Ends (kkill pid) s
    (fun r t => OnlyTarget pid s r t ↔ ∀ q, Meets pid q s → (s.proc q).state ≠ .unused) (fun _ => False) := by
  refine (run_kkill_loop (q := 0) rfl (by simp)).mono ?_
  rintro r t (⟨rfl, rfl, hnone⟩ | ⟨q, hmeet, rfl, hrest, hkilled⟩)
  · exact iff_of_true ⟨fun q h => absurd rfl h, fun _ => rfl⟩ fun q h => absurd h (hnone q)
  · constructor
    · rintro ⟨honly, -⟩ r hr hu
      obtain rfl := hmeet.unique hr
      have hne : t.proc q ≠ s.proc q := by
        intro he
        rw [he, hq q hu] at hkilled
        cases hkilled
      exact (honly q hne).1 hu
    · intro hused
      refine ⟨fun r hr => ?_, fun hnone => absurd hmeet.found (hnone q hmeet.bound (hused q hmeet))⟩
      obtain rfl : r = q := by
        by_contra hrq
        exact hr (hrest r hrq)
      exact ⟨hused r hmeet, hmeet.found⟩

theorem quiet_of_path (h : Path run Aimed boot s) : Inv s ∧ Quiet s := by
  refine h.invariant (I := fun s => Inv s ∧ Quiet s) ⟨boot_inv, ?_⟩ ?_
  · intro q hq
    by_cases hi : q = initproc
    · subst hi
      rfl
    · simp [boot, hi, Proc.free]
  · rintro a t t' ⟨ht, hq⟩ ha hrun
    exact ⟨(ht.run a).of_ok hrun, (hq.run ht ha).of_ok hrun⟩

theorem Quiet.allocproc (hq : Quiet s) {kalloc : Bool} : Ends (allocproc np kalloc) s
    (fun ok t => ok = true → (t.proc np).killed = false) (fun _ => True) := by
  simp only [Sched.allocproc, allocpid, freeproc, proc, setProc, ends_bind, ends_gets, ends_ite, ends_update,
    ends_pure, ends_stop]
  refine ⟨fun hfree => ⟨fun _ => (by simp), fun _ _ => ?_⟩, fun _ => trivial⟩
  rw [Function.update_self]
  exact hq np hfree.2

theorem kill_round (h : Inv s) {pid : Int} {copied : Bool} (hpc : s.pc p = .killing pid q)
    (ha : Aimed (.goOn p copied) s) : Ends (run (.goOn p copied)) s (fun _ t =>
      (∀ r, t.proc r ≠ s.proc r → r = q ∧ (s.proc r).state ≠ .unused ∧ (s.proc r).pid = pid) ∧
      (t.pc p = .user → t.a0 p = 0 ∧ (s.proc q).state ≠ .unused ∧ (s.proc q).pid = pid ∨ t.a0 p = -1 ∧ NPROC ≤ q))
      (fun _ => True) := by
  simp only [run, hpc, goOn, kkill1, ret, goto, proc, setProc, ends_bind, ends_gets, ends_ite, ends_update,
    ends_pure, ends_stop, id]
  refine ⟨fun _ => ⟨fun hq => ⟨fun hpid => ⟨fun _ => ?_, (by simp)⟩, fun _ => ⟨(by simp), fun _ => ?_⟩⟩, fun hq => ?_⟩,
    fun _ => trivial⟩
  · have hused : (s.proc q).state ≠ .unused := Kills.used ⟨⟨p, copied, rfl, hpc⟩, hq, hpid⟩ h ha
    refine ⟨fun r hr => ?_, fun _ => .inl ⟨Function.update_self .., hused, hpid⟩⟩
    obtain rfl : r = q := by
      by_contra hrq
      exact hr (Function.update_of_ne hrq ..)
    exact ⟨rfl, hused, hpid⟩
  · refine ⟨fun r hr => absurd rfl hr, fun hu => ?_⟩
    rw [Function.update_self] at hu
    cases hu
  · exact ⟨fun r hr => absurd rfl hr, fun _ => .inr ⟨Function.update_self .., Nat.le_of_not_lt hq⟩⟩

/-- As long as no round of `kill(0)` comes to a free slot, a kill reaches its target only. A call that runs alone does
so if and only if the slot it stops at is in use. -/
theorem kill_reaches_target (h : Path run Aimed boot s) :
    (∀ q, (s.proc q).state = .unused → (s.proc q).killed = false) ∧
      (∀ np kalloc s', allocproc np kalloc s = .ok (true, s') → (s'.proc np).killed = false) ∧
      (∀ p copied pid q s', s.pc p = .killing pid q → Aimed (.goOn p copied) s →
        run (.goOn p copied) s = .ok ((), s') →
        (∀ r, s'.proc r ≠ s.proc r → r = q ∧ (s.proc r).state ≠ .unused ∧ (s.proc r).pid = pid) ∧
        (s'.pc p = .user →
          s'.a0 p = 0 ∧ (s.proc q).state ≠ .unused ∧ (s.proc q).pid = pid ∨ s'.a0 p = -1 ∧ NPROC ≤ q)) ∧
      ∀ pid, ∃ r s', kkill pid s = .ok (r, s') ∧
        (OnlyTarget pid s r s' ↔ ∀ q, Meets pid q s → (s.proc q).state ≠ .unused) := by
  obtain ⟨hs, hq⟩ := quiet_of_path h
  refine ⟨hq, ?_, ?_, ?_⟩
  · intro np kalloc s' hrun
    exact hq.allocproc.of_ok hrun rfl
  · intro p copied pid q s' hpc ha hrun
    exact (kill_round hs hpc ha).of_ok hrun
  · intro pid
    have hend := hq.kkill pid
    cases hrun : kkill pid s with
    | error msg => exact (hend.of_error hrun).elim
    | ok r => exact ⟨r.1, r.2, rfl, hend.of_ok hrun⟩

def killFirst : List Act :=
  [.schedule 0, .fork 0 1 true true, .goOn 0 true, .goOn 0 true, .fork 0 2 true true, .goOn 0 true, .goOn 0 true,
    .kill 0 2, .goOn 0 true, .goOn 0 true]

theorem kill_reaches_target_killFirst : ∃ s, Path run Aimed boot s ∧
    ((s.proc 1).killed = true ∧ (s.proc 2).killed = false ∧ s.a0 0 = 0) ∧
    (∀ q, (s.proc q).state = .unused → (s.proc q).killed = false) ∧
      (∀ np kalloc s', allocproc np kalloc s = .ok (true, s') → (s'.proc np).killed = false) ∧
      (∀ p copied pid q s', s.pc p = .killing pid q → Aimed (.goOn p copied) s →
        run (.goOn p copied) s = .ok ((), s') →
        (∀ r, s'.proc r ≠ s.proc r → r = q ∧ (s.proc r).state ≠ .unused ∧ (s.proc r).pid = pid) ∧
        (s'.pc p = .user →
          s'.a0 p = 0 ∧ (s.proc q).state ≠ .unused ∧ (s.proc q).pid = pid ∨ s'.a0 p = -1 ∧ NPROC ≤ q)) ∧
      ∀ pid, ∃ r s', kkill pid s = .ok (r, s') ∧
        (OnlyTarget pid s r s' ↔ ∀ q, Meets pid q s → (s.proc q).state ≠ .unused) := by
  obtain ⟨s, hrun, hs⟩ := Path.exists_of_follow run (C := Aimed) killFirst boot
    (fun s => decide ((s.proc 1).killed = true ∧ (s.proc 2).killed = false ∧ s.a0 0 = 0)) (by decide +kernel)
  exact ⟨s, hrun, of_decide_eq_true hs, kill_reaches_target hrun⟩

def killZero : List Act := [.schedule 0, .kill 0 0, .goOn 0 true, .goOn 0 true]

/-- `kill(0)` returns 0 and marks a free slot, and the next process to get that slot is killed at birth. -/
theorem kill_zero_marks_free : ∃ s, Path run (fun _ _ => True) boot s ∧ s.a0 0 = 0 ∧
    (s.proc 1).state = .unused ∧ (s.proc 1).killed = true ∧
    ∃ s', allocproc 1 true s = .ok (true, s') ∧ (s'.proc 1).killed = true := by
  obtain ⟨s, hrun, hs⟩ := Path.exists_of_follow run (C := fun _ _ => True) killZero boot
    (fun s => decide (s.a0 0 = 0 ∧ (s.proc 1).state = .unused ∧ (s.proc 1).killed = true)) (by decide +kernel)
  obtain ⟨h0, hu, hk⟩ := of_decide_eq_true hs
  refine ⟨s, hrun, h0, hu, hk, ?_⟩
  have hend : Ends (allocproc 1 true) s (fun ok t => ok = true ∧ (t.proc 1).killed = true) (fun _ => False) := by
    simp only [allocproc, allocpid, proc, setProc, ends_bind, ends_gets, ends_ite, ends_update, ends_pure,
      ends_stop]
    exact ⟨fun _ => ⟨(by simp), fun _ => ⟨trivial, hk⟩⟩, fun hno => hno ⟨by decide, hu⟩⟩
  cases hrun : allocproc 1 true s with
  | error msg => exact (hend.of_error hrun).elim
  | ok r =>
    obtain ⟨ok, t⟩ := r
    obtain ⟨rfl, hkt⟩ := hend.of_ok hrun
    exact ⟨t, rfl, hkt⟩

end Xv6.Sched
