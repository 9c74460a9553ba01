import Xv6.Sched.Handoff

/-!
# No lost wakeup

A process that sleeps lets its condition lock go only after it holds its own lock, and `wakeup` looks at a slot only with
the lock of that slot.
-/

open Xv6.Lib Op

namespace Xv6.Switch

open Sched (Procstate)

variable {s t : State} {c d p q : Nat} {f g : Frame} {rest : List Frame} {x : Proc}

/-! ## What a step does to sleepers and wakers -/

def Frame.watched : Frame → Bool
  | .sleep .. | .sleepLocked .. | .sleepFree .. | .visit (.wakeup _) .. => true
  | _ => false

def Cpu.top (K : Cpu) : Option Frame := K.stack.head?

/-- Nobody falls asleep, nobody calls `sleep`. -/
def Undisturbed (s t : State) : Prop :=
  ∀ p, (t.proc p).calls = (s.proc p).calls ∧
    ((t.proc p).state = .sleeping → (s.proc p).state = .sleeping ∧ (t.proc p).chan = (s.proc p).chan)

inductive Move (s t : State) (c : Nat) : Prop
  | quiet (hproc : Undisturbed s t) (htop : ∀ f, (t.cpu c).top = some f → f.watched = false)
  | call (chan lk p : Nat) (hp : (s.cpu c).on = some p) (hl : s.lock (.spin lk) = some c)
      (hs : (s.cpu c).top = some .code) (hlock : t.lock = s.lock)
      (hproc : t.proc = Function.update s.proc p { s.proc p with calls := (chan, lk) :: (s.proc p).calls })
      (htop : (t.cpu c).top = some (.sleep chan lk)) (hon : (t.cpu c).on = (s.cpu c).on)
  | locked (chan lk : Nat) (hproc : t.proc = s.proc) (hs : (s.cpu c).top = some (.sleep chan lk))
      (htop : (t.cpu c).top = some (.sleepLocked chan lk)) (hlock : t.lock (.spin lk) = s.lock (.spin lk))
      (hon : (t.cpu c).on = (s.cpu c).on)
  | freed (chan lk : Nat) (hproc : t.proc = s.proc) (hs : (s.cpu c).top = some (.sleepLocked chan lk))
      (htop : (t.cpu c).top = some (.sleepFree chan lk)) (hon : (t.cpu c).on = (s.cpu c).on)
  | asleep (chan lk p : Nat) (hp : (s.cpu c).on = some p) (hs : (s.cpu c).top = some (.sleepFree chan lk))
      (hproc : t.proc = Function.update s.proc p { s.proc p with chan := some chan, state := .sleeping })
      (htop : (t.cpu c).top = some .sched)
  | begin (chan : Nat) (hproc : t.proc = s.proc) (htop : (t.cpu c).top = some (.visit (.wakeup chan) 0 false))
  -- `wakeup` goes on at the same slot, or leaves out its own.
  | look (chan q q' : Nat) (b : Bool) (hproc : t.proc = s.proc) (hs : (s.cpu c).top = some (.visit (.wakeup chan) q false))
      (htop : (t.cpu c).top = some (.visit (.wakeup chan) q' b)) (hq : q' = q ∨ q' = q + 1 ∧ (s.cpu c).on = some q)
      (hlock : ∀ lk, t.lock (.spin lk) = s.lock (.spin lk)) 
  | woke (chan q : Nat) (hproc : t.proc = Function.update s.proc q ((Visit.wakeup chan).edit (s.proc q)))
      (hs : (s.cpu c).top = some (.visit (.wakeup chan) q true))
      (htop : (t.cpu c).top = some (.visit (.wakeup chan) (q + 1) false))
      (hlock : ∀ lk, t.lock (.spin lk) = s.lock (.spin lk))
  | uncover (hproc : t.proc = s.proc) (hheld : (t.cpu c).held = []) (htop : ∀ f, (t.cpu c).top = some f → f.idle = true)

theorem Undisturbed.of_eq (h : t.proc = s.proc) : Undisturbed s t := by
  intro p
  rw [h]
  exact ⟨rfl, fun hs => ⟨hs, rfl⟩⟩

theorem Undisturbed.update (h : t.proc = Function.update s.proc p x) (hcalls : x.calls = (s.proc p).calls)
    (hstate : x.state = .sleeping → (s.proc p).state = .sleeping ∧ x.chan = (s.proc p).chan) : Undisturbed s t := by
  rw [Undisturbed, h]
  exact (Function.forall_update_iff s.proc fun q x => x.calls = (s.proc q).calls ∧
    (x.state = .sleeping → (s.proc q).state = .sleeping ∧ x.chan = (s.proc q).chan)).mpr
    ⟨⟨hcalls, hstate⟩, fun _ _ => ⟨rfl, fun hs => ⟨hs, rfl⟩⟩⟩

theorem Visit.edit_calls (v : Visit) (x : Proc) : (v.edit x).calls = x.calls := by
  cases v <;> simp only [edit] <;> split <;> rfl

theorem Visit.edit_sleeping (v : Visit) (x : Proc) (h : (v.edit x).state = .sleeping) :
    x.state = .sleeping ∧ (v.edit x).chan = x.chan := by
  cases v with
  | kkill pid =>
    simp only [edit] at h ⊢
    split at h
    · change (if _ then _ else _) = _ at h
      split at h
      · cases h
      · exact absurd h ‹_›
    · rename_i hc
      exact ⟨h, by rw [if_neg hc]⟩
  | wakeup _ | allocproc _ | ready | freeproc =>
    simp only [edit] at h ⊢
    split at h
    · cases h
    · rename_i hc
      exact ⟨h, by rw [if_neg hc]⟩

/-! ### The other processors -/

def Others (c : Nat) (s t : State) : Prop := ∀ d ≠ c, t.cpu d = s.cpu d

instance (c : Nat) : IsPreorder State (Others c) where
  refl _ _ _ := rfl
  trans _ _ _ h₁ h₂ d hd := (h₂ d hd).trans (h₁ d hd)

theorem others_setCpu {K : Cpu} : Others c s (s.setCpu c K) := fun _ hd => Function.update_of_ne hd ..

theorem keeps_goto {st : List Frame} : Keeps (Others c) (goto c st) := .update fun _ => others_setCpu

theorem keeps_setProc : Keeps (Others c) (setProc p x) := .update fun _ _ _ => rfl

theorem keeps_acquire {l : Lock} : Keeps (Others c) (acquire c l) :=
  .bind (.gets _) fun _ => .ite (.stop _) (.ite (.update fun _ => others_setCpu) (.stop _))

theorem keeps_release {l : Lock} : Keeps (Others c) (release c l) :=
  .bind (.gets _) fun _ => .ite (.update fun _ => others_setCpu) (.stop _)

theorem keeps_myproc : Keeps (Others c) (myproc c) := by
  refine .bind (.gets _) fun K => ?_
  cases K.proc with
  | none => exact .stop _
  | some p => exact .pure _

theorem keeps_step : Keeps (Others c) (step c f rest) := by
  cases f with
  | code | kexitBack => exact .stop _
  | visit v q b =>
    cases b with
    | false => exact .bind (.gets _) fun _ => .ite keeps_goto (.ite keeps_goto (.bind keeps_acquire fun _ => keeps_goto))
    | true => exact .bind (.gets _) fun _ => .bind keeps_setProc fun _ => .bind keeps_release fun _ => keeps_goto
  | yield | sleep | kexitLock => exact .bind keeps_myproc fun _ => .bind keeps_acquire fun _ => keeps_goto
  | yieldSet | sleepFree =>
    exact .bind keeps_myproc fun _ => .bind (.gets _) fun _ => .bind keeps_setProc fun _ => keeps_goto
  | yieldBack | forkret => exact .bind keeps_myproc fun _ => .bind keeps_release fun _ => keeps_goto
  | sleepLocked => exact .bind keeps_release fun _ => keeps_goto
  | sleepBack | kexitSet =>
    exact .bind keeps_myproc fun _ => .bind (.gets _) fun _ => .bind keeps_setProc fun _ => .bind keeps_release fun _ =>
      keeps_goto
  | sleepRelock | kexit => exact .bind keeps_acquire fun _ => keeps_goto
  | kexitWake | top => exact keeps_goto
  | sched =>
    exact .bind keeps_myproc fun _ => .bind (.gets _) fun _ => .ite (.stop _) (.ite (.stop _) (.ite (.stop _)
      (.update fun _ => others_setCpu)))
  | look i b =>
    cases b with
    | false => exact .ite keeps_goto (.bind keeps_acquire fun _ => keeps_goto)
    | true =>
      exact .bind (.gets _) fun _ => .ite
        (.bind keeps_setProc fun _ => .bind (.update fun _ => others_setCpu) fun _ => keeps_goto)
        (.bind keeps_release fun _ => keeps_goto)
  | switch i => exact .update fun _ => others_setCpu
  | back i => exact .bind (.update fun _ => others_setCpu) fun _ => .bind keeps_release fun _ => keeps_goto

theorem keeps_call {f : Call} : Keeps (Others c) (call c rest f) := by
  cases f with
  | acquire => exact .bind keeps_acquire fun _ => keeps_goto
  | release => exact .bind keeps_release fun _ => keeps_goto
  | yield | kexit => exact .bind keeps_myproc fun _ => keeps_goto
  | sleep =>
    exact .bind keeps_myproc fun _ => .bind (.gets _) fun _ => .ite (.bind keeps_setProc fun _ => keeps_goto) (.stop _)
  | wakeup | kkill | allocproc | ready | freeproc => exact keeps_goto

/-! ### The processor itself -/

@[simp] theorem State.top_goto {st : List Frame} : ((s.goto c st).cpu c).top = st.head? := by
  simp [State.goto, State.setCpu, Cpu.top]

@[simp] theorem State.on_goto {st : List Frame} : ((s.goto c st).cpu c).on = (s.cpu c).on := by
  simp [State.goto, State.setCpu]

@[simp] theorem State.on_acquired {l : Lock} : ((s.acquired c l).cpu c).on = (s.cpu c).on := by
  simp [State.acquired, State.setCpu]

@[simp] theorem State.on_released {l : Lock} : ((s.released c l).cpu c).on = (s.cpu c).on := by
  simp [State.released, State.setCpu]

theorem State.spin_acquired {lk : Nat} {st : List Frame} :
    ((s.acquired c (.proc q)).goto c st).lock (.spin lk) = s.lock (.spin lk) := by
  simp [State.acquired, State.goto, State.setCpu, State.setLock]

theorem State.spin_released {lk : Nat} {st : List Frame} :
    ((s.released c (.proc q)).goto c st).lock (.spin lk) = s.lock (.spin lk) := by
  simp [State.released, State.goto, State.setCpu, State.setLock]

theorem Move.goto {st : List Frame} (hproc : Undisturbed s t) (hf : st.head?.any Frame.watched = false) :
    Move s (t.goto c st) c := by
  refine .quiet hproc fun f hf' => ?_
  rw [State.top_goto] at hf'
  simpa [hf'] using hf

theorem Frame.above_unwatched (h : f.above g = true) (hf : f ≠ .code) (hs : f ≠ .sched) : g.watched = false := by
  cases f with
  | code => exact absurd rfl hf
  | sched => exact absurd rfl hs
  | visit v q held =>
    obtain rfl | rfl := of_decide_eq_true h
    · rfl
    · rfl
  | top | look | switch | back => cases h
  | _ =>
    obtain rfl := of_decide_eq_true h
    rfl

theorem Frame.resumes_unwatched (h : g.resumes = true) : g.watched = false := by
  cases g <;> first | rfl | cases h

theorem move_visit (h : Inv s) {v : Visit} {b : Bool} (hst : (s.cpu c).stack = .visit v q b :: rest) :
    Ends (step c (.visit v q b) rest) s (fun _ t => Move s t c) (fun _ => True) := by
  have hplace := (h.cpu c).place
  have htop : (s.cpu c).top = some (.visit v q b) := by rw [Cpu.top, hst]; rfl
  have hpop : rest.head?.any Frame.watched = false := by
    obtain ⟨g, tail, rfl, hover⟩ := hplace.below hst rfl ⟨(by simp), (by simp)⟩
    exact Frame.above_unwatched hover (by simp) (by simp)
  cases b with
  | false =>
    simp only [step, ends_bind, ends_gets, ends_ite, ends_acquire, ends_goto]
    refine ⟨fun _ => .goto (.of_eq rfl) hpop, fun _ => ⟨fun hskip => ?_, fun _ hl => ?_⟩⟩
    · cases v with
      | wakeup chan =>
        exact .look chan q (q + 1) false rfl htop State.top_goto (.inr ⟨rfl, (hplace.on_of_own hst rfl hskip.2).1⟩)
          fun _ => rfl
      | _ => cases hskip.1
    · cases v with
      | wakeup chan =>
        exact .look chan q q true rfl htop State.top_goto (.inl rfl) fun _ => State.spin_acquired
      | _ => exact .goto (.of_eq rfl) rfl
  | true =>
    simp only [step, proc, setProc, ends_bind, ends_gets, ends_update, ends_release, ends_goto]
    intro hl
    have hquiet : Undisturbed s (s.setProc q (v.edit (s.proc q))) :=
      .update rfl (v.edit_calls _) (v.edit_sleeping _)
    cases v with
    | wakeup chan =>
      exact .woke chan q rfl htop State.top_goto fun _ => State.spin_released
    | _ =>
      refine .goto hquiet ?_
      split
      · exact hpop
      · rfl

theorem move_step (h : Inv s) (hst : (s.cpu c).stack = f :: rest) :
    Ends (step c f rest) s (fun _ t => Move s t c) (fun _ => True) := by
  have htop : (s.cpu c).top = some f := by rw [Cpu.top, hst]; rfl
  have hpop : f.inner = true → f ≠ .code → f ≠ .top → f ≠ .sched → rest.head?.any Frame.watched = false := by
    intro hf hcode ht hsched
    obtain ⟨g, tail, rfl, hover⟩ := (h.cpu c).place.below hst hf ⟨hcode, ht⟩
    exact Frame.above_unwatched hover hcode hsched
  cases f with
  | code | kexitBack => exact trivial
  | visit v q b => exact move_visit h hst
  | yield | kexitLock =>
    simp only [step, ends_bind, ends_myproc, ends_acquire, ends_goto]
    exact fun _ _ _ => .goto (.of_eq rfl) rfl
  | yieldSet | kexitSet =>
    simp only [step, proc, setProc, ends_bind, ends_myproc, ends_gets, ends_update, ends_release, ends_goto]
    intro p hp
    first
      | exact .goto (.update rfl rfl (by simp)) rfl
      | exact fun _ => .goto (.update rfl rfl (by simp)) rfl
  | yieldBack | forkret =>
    simp only [step, ends_bind, ends_myproc, ends_release, ends_goto]
    exact fun _ _ _ => .goto (.of_eq rfl) (hpop rfl (by simp) (by simp) (by simp))
  | sleep chan lk =>
    simp only [step, ends_bind, ends_myproc, ends_acquire, ends_goto]
    intro p hp hl
    exact .locked chan lk rfl htop State.top_goto State.spin_acquired (by rw [State.on_goto, State.on_acquired])
  | sleepLocked chan lk =>
    simp only [step, ends_bind, ends_release, ends_goto]
    intro hl
    exact .freed chan lk rfl htop State.top_goto (by rw [State.on_goto, State.on_released])
  | sleepFree chan lk =>
    simp only [step, proc, setProc, ends_bind, ends_myproc, ends_gets, ends_update, ends_goto]
    intro p hp
    exact .asleep chan lk p ((h.cpu c).place.on_of_own hst rfl hp).1 htop rfl State.top_goto
  | sleepBack lk =>
    simp only [step, proc, setProc, ends_bind, ends_myproc, ends_gets, ends_update, ends_release, ends_goto]
    intro p hp hl
    refine .goto (.update rfl rfl fun hstate => ?_) rfl
    have hrun : (s.proc p).state = .running := (h.state c p hp).mpr (Cpu.leaving_eq hst)
    rw [show _ = Procstate.running from hrun] at hstate
    cases hstate
  | sleepRelock lk =>
    simp only [step, ends_bind, ends_acquire, ends_goto]
    exact fun _ => .goto (.of_eq rfl) (hpop rfl (by simp) (by simp) (by simp))
  | kexit =>
    simp only [step, ends_bind, ends_acquire, ends_goto]
    exact fun _ => .goto (.of_eq rfl) rfl
  | kexitWake => exact .goto (.of_eq rfl) rfl
  | sched =>
    simp only [step, sched, ends_bind, ends_myproc, ends_gets, ends_ite, ends_stop, ends_update, id]
    refine fun p hp => ⟨fun _ => trivial, fun _ => ⟨fun _ => trivial, fun _ => ⟨fun _ => trivial, fun _ => ?_⟩⟩⟩
    refine .quiet (.update rfl rfl fun hs => ⟨hs, rfl⟩) fun f hf => ?_
    have hctx := ((h.cpu c).place.on_of_own hst rfl hp).2.1
    simp only [State.leave, State.setCpu, Cpu.top, Function.update_self, State.setProc, hctx] at hf
    cases hf
    rfl
  | top => exact .goto (.of_eq rfl) rfl
  | look i b =>
    cases b with
    | false =>
      simp only [step, ends_bind, ends_ite, ends_acquire, ends_goto]
      exact ⟨fun _ => .goto (.of_eq rfl) rfl, fun _ _ => .goto (.of_eq rfl) rfl⟩
    | true =>
      simp only [step, proc, setProc, ends_bind, ends_gets, ends_ite, ends_update, ends_release, ends_goto]
      exact ⟨fun _ => .goto (.update rfl rfl (by simp)) rfl, fun _ _ => .goto (.of_eq rfl) rfl⟩
  | switch i =>
    simp only [step, ends_update]
    refine .quiet (.update rfl rfl fun hs => ⟨hs, rfl⟩) fun f hf => ?_
    obtain ⟨g, tail, hctx, hres, -⟩ := h.context i (h.saved_of_off (h.off_of_switch hst (.inl rfl)))
    simp only [State.enter, State.setCpu, Cpu.top, Function.update_self, State.setProc, hctx] at hf
    cases hf
    exact Frame.resumes_unwatched hres
  | back i =>
    simp only [step, ends_bind, ends_update, ends_release, ends_goto]
    exact fun _ => .goto (.of_eq rfl) rfl

theorem move_call (h : Inv s) (hst : (s.cpu c).stack = .code :: rest) (f : Call) :
    Ends (call c rest f) s (fun _ t => Move s t c) (fun _ => True) := by
  cases f with
  | acquire lk =>
    rw [call, ends_bind, ends_acquire]
    exact fun _ => .goto (.of_eq rfl) rfl
  | release lk =>
    rw [call, ends_bind, ends_release]
    exact fun _ => .goto (.of_eq rfl) rfl
  | yield | kexit =>
    simp only [call, ends_bind, ends_myproc, ends_goto]
    exact fun _ _ => .goto (.of_eq rfl) rfl
  | sleep chan lk =>
    simp only [call, setProc, ends_bind, ends_myproc, ends_gets, ends_ite, ends_update, ends_stop,
      ends_goto, id]
    refine fun p hp => ⟨fun hl => ?_, fun _ => trivial⟩
    exact .call chan lk p ((h.cpu c).place.on_of_own hst rfl hp).1 hl (by rw [Cpu.top, hst]; rfl) rfl rfl State.top_goto State.on_goto
  | wakeup chan => exact .begin chan rfl State.top_goto
  | kkill | allocproc | ready | freeproc => exact .goto (.of_eq rfl) rfl

theorem move_run (h : Inv s) (a : Act) :
    Ends (run a) s (fun _ t => ∃ c, Others c s t ∧ Move s t c) (fun _ => True) := by
  have hkeep : ∀ {x : M Unit} {c : Nat}, Keeps (Others c) x → Ends x s (fun _ t => Move s t c) (fun _ => True) →
      Ends x s (fun _ t => ∃ c, Others c s t ∧ Move s t c) (fun _ => True) := by
    intro x c hk hm
    unfold Ends at *
    split at hm
    · exact ⟨c, hk _ _ _ ‹_›, hm⟩
    · exact trivial
  cases a with
  | step c =>
    simp only [run, ends_bind, ends_gets]
    split
    · exact hkeep keeps_step (move_step h ‹_›)
    · exact trivial
  | call c f =>
    simp only [run, ends_bind, ends_gets]
    split
    · exact hkeep keeps_call (move_call h ‹_› f)
    · exact trivial
  | exitWakeup c chan =>
    simp only [run, ends_bind, ends_gets]
    split
    · exact hkeep keeps_goto (.begin chan rfl State.top_goto)
    · exact trivial
  | interrupt c =>
    simp only [run, ends_bind, ends_gets]
    split
    · rw [ends_ite]
      exact ⟨fun _ => hkeep keeps_goto (.goto (.of_eq rfl) rfl), fun _ => trivial⟩
    · exact trivial
  | interruptReturn c =>
    simp only [run, ends_bind, ends_gets]
    split
    · rename_i g rest hst
      rw [ends_ite]
      refine ⟨fun hheld => hkeep keeps_goto (.uncover rfl ?_ fun f hf => ?_), fun _ => trivial⟩
      · simpa [State.goto, State.setCpu] using hheld
      · rw [State.top_goto] at hf
        cases hf
        exact (h.cpu c).place.above_second rfl hst
    · exact trivial

/-! ## The invariant -/

structure Naps (s : State) : Prop where
  calls : ∀ c p chan lk, (s.cpu c).on = some p → ((s.cpu c).top = some (.sleep chan lk) ∨
    (s.cpu c).top = some (.sleepLocked chan lk) ∨ (s.cpu c).top = some (.sleepFree chan lk)) →
    (s.proc p).calls.head? = some (chan, lk)
  holds : ∀ c chan lk, (s.cpu c).top = some (.sleep chan lk) ∨ (s.cpu c).top = some (.sleepLocked chan lk) →
    s.lock (.spin lk) = some c
  asleep : ∀ p, (s.proc p).state = .sleeping →
    ∃ chan lk, (s.proc p).chan = some chan ∧ (s.proc p).calls.head? = some (chan, lk)
  -- The slots that a `wakeup` has passed.
  woken : ∀ c chan q b, (s.cpu c).top = some (.visit (.wakeup chan) q b) → ∀ lk, s.lock (.spin lk) = some c →
    ∀ p < q, (s.proc p).calls.head? = some (chan, lk) →
      (s.proc p).state ≠ .sleeping ∧ ∀ d, (s.cpu d).on = some p → (s.cpu d).top ≠ some (.sleepFree chan lk)

namespace Move

theorem undisturbed_or (h : Move s t c) : Undisturbed s t ∨
    (∃ chan lk p, (s.cpu c).on = some p ∧ s.lock (.spin lk) = some c ∧ (s.cpu c).top = some .code ∧
      t.proc = Function.update s.proc p { s.proc p with calls := (chan, lk) :: (s.proc p).calls }) ∨
    ∃ chan lk p, (s.cpu c).on = some p ∧ (s.cpu c).top = some (.sleepFree chan lk) ∧
      t.proc = Function.update s.proc p { s.proc p with chan := some chan, state := .sleeping } := by
  cases h with
  | quiet hproc => exact .inl hproc
  | call chan lk p hp hl hs _ hproc => exact .inr (.inl ⟨chan, lk, p, hp, hl, hs, hproc⟩)
  | locked chan lk hproc | freed chan lk hproc | begin chan hproc | look chan q q' b hproc | uncover hproc =>
    exact .inl (.of_eq hproc)
  | asleep chan lk p hp hs hproc => exact .inr (.inr ⟨chan, lk, p, hp, hs, hproc⟩)
  | woke chan q hproc => exact .inl (.update hproc (Visit.edit_calls _ _) (Visit.edit_sleeping _ _))

theorem calls (h : Move s t c) (p : Nat) : (t.proc p).calls = (s.proc p).calls ∨
    ∃ chan lk, (s.cpu c).on = some p ∧ s.lock (.spin lk) = some c ∧ (s.cpu c).top = some .code ∧
      (t.proc p).calls = (chan, lk) :: (s.proc p).calls := by
  obtain hu | ⟨chan, lk, r, hon, hl, htop, hproc⟩ | ⟨chan, lk, r, -, -, hproc⟩ := h.undisturbed_or
  · exact .inl (hu p).1
  · rw [hproc, Function.update_apply]
    split_ifs with hp
    · subst hp
      exact .inr ⟨chan, lk, hon, hl, htop, rfl⟩
    · exact .inl rfl
  · rw [hproc, Function.update_apply]
    split_ifs with hp
    · exact .inl (by rw [hp])
    · exact .inl rfl

theorem state (h : Move s t c) (hp : (t.proc p).state = .sleeping) :
    (s.proc p).state = .sleeping ∧ (t.proc p).chan = (s.proc p).chan ∨
    ∃ chan lk, (s.cpu c).on = some p ∧ (s.cpu c).top = some (.sleepFree chan lk) ∧ (t.proc p).chan = some chan := by
  obtain hu | ⟨chan, lk, r, -, -, -, hproc⟩ | ⟨chan, lk, r, hon, htop, hproc⟩ := h.undisturbed_or
  · exact .inl ((hu p).2 hp)
  · rw [hproc, Function.update_apply] at hp ⊢
    split_ifs at hp ⊢ with hpr
    · exact .inl ⟨hpr ▸ hp, by rw [hpr]⟩
    · exact .inl ⟨hp, rfl⟩
  · rw [hproc, Function.update_apply] at hp ⊢
    split_ifs at hp ⊢ with hpr
    · subst hpr
      exact .inr ⟨chan, lk, hon, htop, rfl⟩
    · exact .inl ⟨hp, rfl⟩

theorem top (h : Move s t c) (hf : (t.cpu c).top = some f) (hw : ∀ chan q b, f ≠ .visit (.wakeup chan) q b) :
    f.watched = false ∨ (t.cpu c).on = (s.cpu c).on ∧
    ((∃ chan lk, f = .sleep chan lk ∧ s.lock (.spin lk) = some c ∧ t.lock = s.lock ∧
      ∀ p, (s.cpu c).on = some p → (t.proc p).calls.head? = some (chan, lk)) ∨
    (∃ chan lk, f = .sleepLocked chan lk ∧ (s.cpu c).top = some (.sleep chan lk) ∧ t.proc = s.proc ∧
      t.lock (.spin lk) = s.lock (.spin lk)) ∨
    ∃ chan lk, f = .sleepFree chan lk ∧ (s.cpu c).top = some (.sleepLocked chan lk) ∧ t.proc = s.proc) := by
  cases h with
  | quiet _ htop => exact .inl (htop f hf)
  | call chan lk p hp hl _ hlock hproc htop hon =>
    obtain rfl := Option.some.inj (htop.symm.trans hf)
    refine .inr ⟨hon, .inl ⟨chan, lk, rfl, hl, hlock, fun r hr => ?_⟩⟩
    obtain rfl := Option.some.inj (hp.symm.trans hr)
    rw [hproc, Function.update_self]
    rfl
  | locked chan lk hproc hs htop hlock hon =>
    obtain rfl := Option.some.inj (htop.symm.trans hf)
    exact .inr ⟨hon, .inr (.inl ⟨chan, lk, rfl, hs, hproc, hlock⟩)⟩
  | freed chan lk hproc hs htop hon =>
    obtain rfl := Option.some.inj (htop.symm.trans hf)
    exact .inr ⟨hon, .inr (.inr ⟨chan, lk, rfl, hs, hproc⟩)⟩
  | asleep chan lk p hp hs hproc htop =>
    obtain rfl := Option.some.inj (htop.symm.trans hf)
    exact .inl rfl
  | begin chan hproc htop | look chan q q' b hproc hs htop | woke chan q hproc hs htop =>
    exact absurd (Option.some.inj (hf.symm.trans htop)) (hw _ _ _)
  | uncover hproc hheld htop =>
    have hidle := htop f hf
    cases f with
    | visit v q b =>
      cases v with
      | wakeup chan => exact absurd rfl (hw chan q b)
      | _ => exact .inl rfl
    | sleep | sleepLocked | sleepFree => cases hidle
    | _ => exact .inl rfl

end Move

theorem lock_other (hs : Inv s) (ht : Inv t) (ho : Others c s t) {l : Lock} (hd : d ≠ c) :
    t.lock l = some d ↔ s.lock l = some d := by
  rw [ht.lock, hs.lock, ho d hd]

namespace Naps

theorem calls_move (h : Naps s) (hm : Move s t c) {chan lk : Nat} (hon : (t.cpu c).on = some p)
    (hf : (t.cpu c).top = some f) (hsleep : f = .sleep chan lk ∨ f = .sleepLocked chan lk ∨ f = .sleepFree chan lk) :
    (t.proc p).calls.head? = some (chan, lk) := by
  have hw : ∀ chan q b, f ≠ .visit (.wakeup chan) q b := by
    rintro chan q b rfl
    simp at hsleep
  obtain hno | ⟨hsame, ⟨_, _, rfl, -, -, hcalls⟩ | ⟨_, _, rfl, htop, hproc, -⟩ | ⟨_, _, rfl, htop, hproc⟩⟩ := hm.top hf hw
  · rcases hsleep with rfl | rfl | rfl <;> cases hno
  · obtain ⟨rfl, rfl⟩ : _ ∧ _ := by simpa using hsleep
    exact hcalls p (hsame ▸ hon)
  · obtain ⟨rfl, rfl⟩ : _ ∧ _ := by simpa using hsleep
    rw [hproc]
    exact h.calls c p _ _ (hsame ▸ hon) (.inl htop)
  · obtain ⟨rfl, rfl⟩ : _ ∧ _ := by simpa using hsleep
    rw [hproc]
    exact h.calls c p _ _ (hsame ▸ hon) (.inr (.inl htop))

theorem holds_move (h : Naps s) (hm : Move s t c) {chan lk : Nat} (hf : (t.cpu c).top = some f)
    (hsleep : f = .sleep chan lk ∨ f = .sleepLocked chan lk) : t.lock (.spin lk) = some c := by
  have hw : ∀ chan q b, f ≠ .visit (.wakeup chan) q b := by
    rintro chan q b rfl
    simp at hsleep
  obtain hno | ⟨-, ⟨_, _, rfl, hl, hlock, -⟩ | ⟨_, _, rfl, htop, -, hlock⟩ | ⟨_, _, rfl, -, -⟩⟩ := hm.top hf hw
  · rcases hsleep with rfl | rfl <;> cases hno
  · obtain ⟨rfl, rfl⟩ : _ ∧ _ := by simpa using hsleep
    rw [hlock, hl]
  · obtain ⟨rfl, rfl⟩ : _ ∧ _ := by simpa using hsleep
    rw [hlock]
    exact h.holds c _ _ (.inl htop)
  · simp at hsleep

theorem not_freed (h : Naps s) (hm : Move s t c) {chan lk : Nat} (hl : s.lock (.spin lk) ≠ some c) :
    (t.cpu c).top ≠ some (.sleepFree chan lk) := by
  intro hf
  obtain hno | ⟨-, ⟨_, _, he, -⟩ | ⟨_, _, he, -⟩ | ⟨_, _, he, htop, -⟩⟩ := hm.top hf (by simp)
  · cases hno
  · cases he
  · cases he
  · cases he
    exact hl (h.holds c _ _ (.inr htop))

theorem woken_other (h : Naps s) (hs : Inv s) (ht : Inv t) (ho : Others c s t) (hm : Move s t c) (hd : d ≠ c)
    {chan lk : Nat} {b : Bool} (htop : (t.cpu d).top = some (.visit (.wakeup chan) q b))
    (hl : t.lock (.spin lk) = some d) (hp : p < q) (hcalls : (t.proc p).calls.head? = some (chan, lk)) :
    (t.proc p).state ≠ .sleeping ∧ ∀ e, (t.cpu e).on = some p → (t.cpu e).top ≠ some (.sleepFree chan lk) := by
  rw [ho d hd] at htop
  rw [lock_other hs ht ho hd] at hl
  have hnot : s.lock (.spin lk) ≠ some c := by
    rw [hl]
    exact fun he => hd (Option.some.inj he)
  have hsame : (s.proc p).calls.head? = some (chan, lk) := by
    obtain he | ⟨_, _, -, hlc, -, he⟩ := hm.calls p
    · rw [← he, hcalls]
    · rw [he, List.head?_cons] at hcalls
      obtain ⟨rfl, rfl⟩ := Prod.mk.inj (Option.some.inj hcalls)
      exact absurd hlc hnot
  obtain ⟨hstate, hfree⟩ := h.woken d chan q b htop lk hl p hp hsame
  refine ⟨fun hsleep => ?_, fun e hon => ?_⟩
  · obtain ⟨he, -⟩ | ⟨_, _, hon, hf, -⟩ := hm.state hsleep
    · exact hstate he
    · have hhead := h.calls c p _ _ hon (.inr (.inr hf))
      obtain ⟨rfl, rfl⟩ := Prod.mk.inj (Option.some.inj (hsame.symm.trans hhead))
      exact hfree c hon hf
  · by_cases hec : e = c
    · subst hec
      exact h.not_freed hm hnot
    · rw [ho e hec] at hon ⊢
      exact hfree e hon

theorem woken_self (h : Naps s) (hs : Inv s) (ht : Inv t) (ho : Others c s t) (hm : Move s t c) {chan lk : Nat} {b : Bool}
    (htop : (t.cpu c).top = some (.visit (.wakeup chan) q b)) (hl : t.lock (.spin lk) = some c) (hp : p < q)
    (hcalls : (t.proc p).calls.head? = some (chan, lk)) :
    (t.proc p).state ≠ .sleeping ∧ ∀ e, (t.cpu e).on = some p → (t.cpu e).top ≠ some (.sleepFree chan lk) := by
  -- The frames on the other processors are as they were, and `c` is in `wakeup`.
  have hothers : (∀ e, (s.cpu e).on = some p → (s.cpu e).top ≠ some (.sleepFree chan lk)) →
      ∀ e, (t.cpu e).on = some p → (t.cpu e).top ≠ some (.sleepFree chan lk) := by
    intro hfree e hon
    by_cases hec : e = c
    · subst hec
      rw [htop]
      simp
    · rw [ho e hec] at hon ⊢
      exact hfree e hon
  cases hm with
  | quiet _ hquiet => cases hquiet _ htop
  | call _ _ _ _ _ _ _ _ hf | locked _ _ _ _ hf | freed _ _ _ _ hf | asleep _ _ _ _ _ _ hf =>
    cases hf.symm.trans htop
  | begin _ _ hf =>
    cases hf.symm.trans htop
    exact absurd hp (Nat.not_lt_zero p)
  | look chan' r r' b' hproc hst hf hr hlock =>
    cases hf.symm.trans htop
    rw [hproc] at hcalls ⊢
    rw [hlock] at hl
    by_cases hpr : p < r
    · obtain ⟨hstate, hfree⟩ := h.woken c chan r false hst lk hl p hpr hcalls
      exact ⟨hstate, hothers hfree⟩
    · -- The slot left out is that of the running process itself.
      obtain rfl | ⟨rfl, hon⟩ := hr
      · exact absurd hp hpr
      · obtain rfl : p = r := by omega
        have hproc := hs.proc_of_on hon
        have hrun : (s.proc p).state = .running := by
          refine (hs.state c p hproc).mpr ?_
          rw [Cpu.leaving, ← Cpu.top, hst]
          rfl
        refine ⟨by rw [hrun]; simp, hothers fun e he => ?_⟩
        obtain rfl := hs.unique e c p (hs.proc_of_on he) hproc
        rw [hst]
        simp
  | woke chan' r hproc hst hf hlock =>
    cases hf.symm.trans htop
    rw [hlock] at hl
    by_cases hpr : p = r
    · subst hpr
      rw [hproc, Function.update_self] at hcalls ⊢
      rw [Visit.edit_calls] at hcalls
      refine ⟨fun hsleep => ?_, hothers fun e he htope => ?_⟩
      · -- Asleep on account of a call with this channel, it would have been woken.
        have hstate := (Visit.edit_sleeping _ _ hsleep).1
        obtain ⟨_, _, hchan, hhead⟩ := h.asleep p hstate
        obtain ⟨rfl, rfl⟩ := Prod.mk.inj (Option.some.inj (hcalls.symm.trans hhead))
        simp only [Visit.edit, hstate, hchan, and_self, if_true] at hsleep
        cases hsleep
      · -- Its lock is held here.
        have hlock₁ : s.lock (.proc p) = some c := by
          refine hs.lock_of_locks ?_
          rw [Cpu.locks, ← Cpu.top, hst]
          rfl
        have hlock₂ : s.lock (.proc p) = some e := by
          refine hs.lock_of_locks ?_
          rw [Cpu.locks, ← Cpu.top, htope, hs.proc_of_on he]
          rfl
        obtain rfl : c = e := Option.some.inj (hlock₁.symm.trans hlock₂)
        cases hst.symm.trans htope
    · rw [hproc, Function.update_of_ne hpr] at hcalls ⊢
      obtain ⟨hstate, hfree⟩ := h.woken c chan r true hst lk hl p (by omega) hcalls
      exact ⟨hstate, hothers hfree⟩
  | uncover _ hheld _ =>
    have := (ht.lock _ c).mp hl
    rw [hheld] at this
    cases this

theorem move (h : Naps s) (hs : Inv s) (ht : Inv t) (ho : Others c s t) (hm : Move s t c) : Naps t := by
  refine ⟨?_, ?_, ?_, ?_⟩
  · intro d p chan lk hon hsleep
    by_cases hd : d = c
    · subst hd
      rcases hsleep with hf | hf | hf
      · exact h.calls_move hm hon hf (.inl rfl)
      · exact h.calls_move hm hon hf (.inr (.inl rfl))
      · exact h.calls_move hm hon hf (.inr (.inr rfl))
    · rw [ho d hd] at hon hsleep
      obtain he | ⟨_, _, hc, -⟩ := hm.calls p
      · rw [he]
        exact h.calls d p chan lk hon hsleep
      · exact absurd (hs.unique d c p (hs.proc_of_on hon) (hs.proc_of_on hc)) hd
  · intro d chan lk hsleep
    by_cases hd : d = c
    · subst hd
      rcases hsleep with hf | hf
      · exact h.holds_move hm hf (.inl rfl)
      · exact h.holds_move hm hf (.inr rfl)
    · rw [ho d hd] at hsleep
      rw [lock_other hs ht ho hd]
      exact h.holds d chan lk hsleep
  · intro p hp
    obtain ⟨hstate, hchan⟩ | ⟨chan, lk, hon, htop, hchan⟩ := hm.state hp
    · obtain he | ⟨_, _, hon, -, hcode, -⟩ := hm.calls p
      · rw [he, hchan]
        exact h.asleep p hstate
      · -- The caller runs.
        have hrun : (s.proc p).state = .running := by
          refine (hs.state c p (hs.proc_of_on hon)).mpr ?_
          rw [Cpu.leaving, ← Cpu.top, hcode]
          rfl
        rw [hrun] at hstate
        cases hstate
    · obtain he | ⟨_, _, -, -, hcode, -⟩ := hm.calls p
      · exact ⟨chan, lk, hchan, by rw [he]; exact h.calls c p chan lk hon (.inr (.inr htop))⟩
      · cases htop.symm.trans hcode
  · intro d chan q b htop lk hl p hp hcalls
    by_cases hd : d = c
    · subst hd
      exact h.woken_self hs ht ho hm htop hl hp hcalls
    · exact h.woken_other hs ht ho hm hd htop hl hp hcalls

end Naps

theorem naps_of_path {pids : Nat → Option Int} (h : Path run (fun _ _ => True) (start pids) s) : Inv s ∧ Naps s := by
  refine h.invariant (I := fun s => Inv s ∧ Naps s) ⟨start_inv pids, ?_, ?_, ?_, ?_⟩ ?_
  · intro c p chan lk hon
    cases hon
  · rintro c chan lk (hf | hf) <;> cases hf
  · intro p hp
    have hne : (if (pids p).isSome then Procstate.runnable else .unused) ≠ .sleeping := by
      split <;> simp
    exact absurd hp hne
  · intro c chan q b hf
    cases hf
  · rintro a s s' ⟨hs, hn⟩ _ hrun
    have ht := (hs.run a).of_ok hrun
    obtain ⟨c, ho, hm⟩ := (move_run hs a).of_ok hrun
    exact ⟨ht, hn.move hs ht ho hm⟩

theorem calls_suffix {s₀ : State} (hs : Inv s₀) (h : Path run (fun _ _ => True) s₀ s) :
    Inv s ∧ (s₀.proc p).calls <:+ (s.proc p).calls := by
  refine h.invariant (I := fun s => Inv s ∧ (s₀.proc p).calls <:+ (s.proc p).calls) ⟨hs, List.suffix_rfl⟩ ?_
  rintro a s s' ⟨hs, hcalls⟩ _ hrun
  obtain ⟨c, -, hm⟩ := (move_run hs a).of_ok hrun
  refine ⟨(hs.run a).of_ok hrun, ?_⟩
  obtain he | ⟨chan, lk, -, -, -, he⟩ := hm.calls p
  · rwa [he]
  · rw [he]
    exact hcalls.trans (List.suffix_cons ..)

/-- In `s₀` the process `p` has called `sleep(chan, lk)`, as its call number `n`. At the end of the loop of a `wakeup(chan)`,
on a processor that holds `lk`, it does not sleep on account of that call. -/
theorem no_lost_wakeup {pids : Nat → Option Int} {s₀ : State} {chan lk n : Nat}
    (h₀ : Path run (fun _ _ => True) (start pids) s₀) (hcall : (s₀.proc p).calls.reverse[n]? = some (chan, lk))
    (h : Path run (fun _ _ => True) s₀ s) (hp : p < Sched.NPROC) (hq : Sched.NPROC ≤ q)
    (hwake : (s.cpu c).stack = .visit (.wakeup chan) q false :: rest) (hlk : s.lock (.spin lk) = some c) :
    ¬ ((s.proc p).state = .sleeping ∧ (s.proc p).calls.length = n + 1) := by
  rintro ⟨hsleep, hlen⟩
  have hpath : Path run (fun _ _ => True) (start pids) s := by
    clear hwake hlk hsleep hlen
    induction h with
    | refl => exact h₀
    | step _ hc hrun ih => exact ih.step hc hrun
  obtain ⟨hs₀, -⟩ := naps_of_path h₀
  obtain ⟨hs, hn⟩ := naps_of_path hpath
  have hcalls : (s.proc p).calls = (s₀.proc p).calls := by
    have hsuf := (calls_suffix (p := p) hs₀ h).2
    have hlt := (List.getElem?_eq_some_iff.mp hcall).1
    rw [List.length_reverse] at hlt
    exact (hsuf.eq_of_length_le (by omega)).symm
  have hhead : (s.proc p).calls.head? = some (chan, lk) := by
    rw [← hcalls, List.getElem?_reverse (by omega), hlen] at hcall
    rw [List.head?_eq_getElem?]
    simpa using hcall
  have htop : (s.cpu c).top = some (.visit (.wakeup chan) q false) := by rw [Cpu.top, hwake]; rfl
  exact (hn.woken c chan q false htop lk hlk p (by omega) hhead).1 hsleep

def fallAsleep : List Act :=
  List.replicate 5 (.step 0) ++ [.call 0 (.acquire 5), .call 0 (.sleep 7 5)] ++ List.replicate 5 (.step 0) ++
    List.replicate 7 (.step 1)

def wakeIt : List Act := [.call 1 (.acquire 5), .call 1 (.wakeup 7)] ++ List.replicate (2 * Sched.NPROC - 1) (.step 1)

theorem no_lost_wakeup_fallAsleep : ∃ s₀ s, Path run (fun _ _ => True) (start fun p => if p < 2 then some 1 else none) s₀ ∧
    (s₀.proc 0).state = .sleeping ∧ Path run (fun _ _ => True) s₀ s ∧
    (s.cpu 1).stack = [.visit (.wakeup 7) Sched.NPROC false, .code] ∧
    ¬ ((s.proc 0).state = .sleeping ∧ (s.proc 0).calls.length = 0 + 1) := by
  obtain ⟨s₀, hrun₀, hs₀⟩ := Path.exists_of_follow run (C := fun _ _ => True) fallAsleep
    (start fun p => if p < 2 then some 1 else none)
    (fun s => decide (((s.proc 0).state = .sleeping ∧ (s.proc 0).calls.reverse[0]? = some (7, 5)) ∧
      (Path.follow run (fun _ _ => True) wakeIt s).toOption.map (fun r => decide
        ((r.2.cpu 1).stack = [.visit (.wakeup 7) Sched.NPROC false, .code] ∧ r.2.lock (.spin 5) = some 1)) = some true))
    (by decide +kernel)
  obtain ⟨⟨hsleep, hcall⟩, hrest⟩ := of_decide_eq_true hs₀
  obtain ⟨s, hrun, hs⟩ := Path.exists_of_follow run (C := fun _ _ => True) wakeIt s₀
    (fun s => decide ((s.cpu 1).stack = [.visit (.wakeup 7) Sched.NPROC false, .code] ∧ s.lock (.spin 5) = some 1))
      hrest
  obtain ⟨hstack, hlock⟩ := of_decide_eq_true hs
  exact ⟨s₀, s, hrun₀, hsleep, hrun, hstack,
    no_lost_wakeup hrun₀ hcall hrun (by decide) (Nat.le_refl _) hstack hlock⟩

end Xv6.Switch
