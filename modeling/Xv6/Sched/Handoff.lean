import Xv6.Sched.Switch

/-!
# A process runs on one processor

`p->lock` is taken by one thread of control and let go by another, across `swtch`. Which `p->lock` a processor holds can
be read off the frame on top of its stack.
-/

open Xv6.Lib Op

namespace Xv6.Switch

open Sched (Procstate)

/-! ## Stacks -/

namespace Frame

def locks (me : Option Nat) : Frame → Option Nat
  | .visit _ q true => some q
  | .yieldSet | .yieldBack | .sleepLocked .. | .sleepFree .. | .sleepBack _ | .kexitSet | .kexitBack | .sched
  | .forkret => me
  | .look i true | .switch i | .back i => some i
  | _ => none

def resumes : Frame → Bool
  | .yieldBack | .sleepBack _ | .kexitBack | .forkret => true
  | _ => false

def idle : Frame → Bool
  | .code | .visit _ _ false | .yield | .sleepRelock _ | .kexit | .kexitWake | .kexitLock | .top => true
  | _ => false

def own : Frame → Bool
  | .code | .visit .. | .top | .look .. | .switch _ | .back _ => false
  | _ => true

def inner : Frame → Bool
  | .look .. | .switch _ | .back _ => false
  | _ => true

def above : Frame → Frame → Bool
  | .code, g => g.idle
  | .sched, g => g.resumes
  | .visit .., g => g = .code ∨ g = .kexitWake
  | .top, _ | .look .., _ | .switch _, _ | .back _, _ => false
  | _, g => g = .code

def leaves : Frame → Bool
  | .sched | .back _ => true
  | _ => false

def routine : Frame → Bool
  | .code | .visit .. | .sched | .top | .look .. | .switch _ | .back _ => false
  | _ => true

end Frame

def Stacked (bottom : Frame) : List Frame → Prop
  | [] => False
  | [f] => f = bottom
  | f :: g :: rest => f.above g = true ∧ Stacked bottom (g :: rest)

variable {bottom f g : Frame} {rest : List Frame}

theorem Stacked.below (h : Stacked bottom (f :: rest)) (hf : f ≠ bottom) :
    ∃ g tail, rest = g :: tail ∧ f.above g = true ∧ Stacked bottom rest := by
  cases rest with
  | nil => exact absurd h hf
  | cons g tail => exact ⟨g, tail, rfl, h⟩

theorem Stacked.replace (h : Stacked bottom (f :: rest)) (hf : f ≠ bottom) {f' : Frame}
    (hover : ∀ g, f.above g = true → f'.above g = true) : Stacked bottom (f' :: rest) := by
  obtain ⟨g, tail, rfl, hfg, htail⟩ := h.below hf
  exact ⟨hover g hfg, htail⟩

theorem Frame.idle_locks {me : Option Nat} (h : g.idle = true) : g.locks me = none := by
  cases g with
  | visit v q held =>
    cases held
    · rfl
    · cases h
  | look i held => cases h
  | _ => first | rfl | cases h

theorem Frame.above_routine (h : f.routine = true) (g : Frame) : f.above g = decide (g = .code) := by
  cases f <;> first | rfl | cases h

theorem Frame.routine_inner (h : f.routine = true) : f.inner = true := by
  cases f <;> first | rfl | cases h

theorem Frame.routine_own (h : f.routine = true) : f.own = true := by
  cases f <;> first | rfl | cases h

theorem Frame.routine_leaves (h : f.routine = true) : f.leaves = false := by
  cases f <;> first | rfl | cases h

theorem Frame.idle_inner (h : g.idle = true) : g.inner = true := by
  cases g <;> first | rfl | cases h

theorem Frame.idle_leaves (h : g.idle = true) : g.leaves = false := by
  cases g <;> first | rfl | cases h

theorem Frame.above_idle (h : f.above g = true) (hf : f ≠ .sched) : g.idle = true := by
  cases f with
  | code => exact h
  | visit v q held =>
    obtain rfl | rfl := of_decide_eq_true h
    · rfl
    · rfl
  | sched => exact absurd rfl hf
  | top | look | switch | back => cases h
  | _ =>
    obtain rfl := of_decide_eq_true h
    rfl

def Lock.slot : Lock → Option Nat
  | .proc q => some q
  | .spin _ => none

namespace Cpu

variable {K : Cpu} {p : Nat}

def locks (K : Cpu) : Option Nat := K.stack.head?.bind (Frame.locks K.proc)

def leaving (K : Cpu) : Bool := K.stack.head?.any Frame.leaves

inductive Place (K : Cpu) : Prop
  | thread (p : Nat) (on : K.on = some p) (proc : K.proc = some p) (context : K.context = [.back p])
      (stack : Stacked .code K.stack)
  | handler (on : K.on = none) (proc : K.proc = none) (stack : Stacked .top K.stack)
      (own : ∀ f ∈ K.stack, f.own = false)
  | look (i : Nat) (held : Bool) (on : K.on = none) (proc : K.proc = none) (stack : K.stack = [.look i held])
  | switch (i : Nat) (on : K.on = none) (proc : K.proc = some i) (stack : K.stack = [.switch i])
  | back (i : Nat) (on : K.on = none) (proc : K.proc = some i) (stack : K.stack = [.back i])

theorem Place.restack (h : K.Place) (hst : K.stack = f :: rest) (hf : f.inner = true) {st : List Frame} {held : List Lock}
    (hmk : ∀ bottom, bottom = .code ∨ bottom = .top → Stacked bottom (f :: rest) → Stacked bottom st)
    (hown : K.proc = none → f.own = false → (∀ g ∈ rest, g.own = false) → ∀ g ∈ st, g.own = false) :
    ({ K with stack := st, held := held } : Cpu).Place := by
  cases h with
  | thread p on proc context stack => exact .thread p on proc context (hmk .code (.inl rfl) (hst ▸ stack))
  | handler on proc stack own =>
    rw [hst] at own
    exact .handler on proc (hmk .top (.inr rfl) (hst ▸ stack)) (hown proc (own f List.mem_cons_self) fun g hg =>
      own g (List.mem_cons_of_mem f hg))
  | look i held on proc stack | switch i on proc stack | back i on proc stack =>
    obtain ⟨rfl, -⟩ := List.cons.inj (hst.symm.trans stack)
    cases hf

theorem Place.proc_of_on (h : K.Place) (hon : K.on = some p) : K.proc = some p := by
  cases h with
  | thread q on proc => rw [proc, ← on, hon]
  | handler on | look i b on | switch i on | back i on =>
    rw [on] at hon
    cases hon

theorem Place.on_of_own (h : K.Place) (hst : K.stack = f :: rest) (hf : f.inner = true) (hp : K.proc = some p) :
    K.on = some p ∧ K.context = [.back p] ∧ Stacked .code (f :: rest) := by
  cases h with
  | thread q on proc context stack =>
    obtain rfl : p = q := Option.some.inj (hp.symm.trans proc)
    exact ⟨on, context, hst ▸ stack⟩
  | handler on proc | look i b on proc =>
    rw [proc] at hp
    cases hp
  | switch i on proc stack | back i on proc stack =>
    obtain ⟨rfl, -⟩ := List.cons.inj (hst.symm.trans stack)
    cases hf

section place

variable {held : List Lock} (h : K.Place) (hst : K.stack = f :: rest) (hf : f.inner = true)

include h hst hf

theorem Place.stacked : ∃ bottom, (bottom = .code ∨ bottom = .top) ∧ Stacked bottom (f :: rest) := by
  cases h with
  | thread p on proc context stack => exact ⟨.code, .inl rfl, hst ▸ stack⟩
  | handler on proc stack own => exact ⟨.top, .inr rfl, hst ▸ stack⟩
  | look i held on proc stack | switch i on proc stack | back i on proc stack =>
    obtain ⟨rfl, -⟩ := List.cons.inj (hst.symm.trans stack)
    cases hf

theorem Place.below (hne : f ≠ .code ∧ f ≠ .top) : ∃ g tail, rest = g :: tail ∧ f.above g = true := by
  obtain ⟨bottom, hb, hs⟩ := h.stacked hst hf
  obtain ⟨g, tail, he, hover, -⟩ := hs.below (by rcases hb with rfl | rfl; exacts [hne.1, hne.2])
  exact ⟨g, tail, he, hover⟩

omit hst in
theorem Place.above_second {g : Frame} (hst : K.stack = f :: g :: rest) : f.above g = true := by
  obtain ⟨_, -, hs⟩ := h.stacked hst hf
  exact hs.1

theorem Place.pop (hne : f ≠ .code ∧ f ≠ .top) : ({ K with stack := rest, held := held } : Cpu).Place := by
  refine h.restack hst hf (fun bottom hb hs => ?_) fun _ _ hrest => hrest
  obtain ⟨g, tail, rfl, -, hs⟩ := hs.below (by rcases hb with rfl | rfl; exacts [hne.1, hne.2])
  exact hs

theorem Place.replace (hne : f ≠ .code ∧ f ≠ .top) {f' : Frame} (hover : ∀ g, f.above g = true → f'.above g = true)
    (hown : f'.own = true → f.own = true) : ({ K with stack := f' :: rest, held := held } : Cpu).Place := by
  refine h.restack hst hf (fun bottom hb hs => ?_) fun _ hfown hrest => ?_
  · exact hs.replace (by rcases hb with rfl | rfl; exacts [hne.1, hne.2]) hover
  · refine List.forall_mem_cons.mpr ⟨?_, hrest⟩
    by_contra hc
    rw [hown (by simpa using hc)] at hfown
    cases hfown

theorem Place.push {g : Frame} (hover : g.above f = true) (hown : g.own = true → K.proc ≠ none) :
    ({ K with stack := g :: f :: rest, held := held } : Cpu).Place := by
  refine h.restack hst hf (fun bottom hb hs => ⟨hover, hs⟩) fun hp hfown hrest => ?_
  refine List.forall_mem_cons.mpr ⟨?_, List.forall_mem_cons.mpr ⟨hfown, hrest⟩⟩
  by_contra hc
  exact hown (by simpa using hc) hp

end place

structure Ok (K : Cpu) : Prop where
  place : K.Place
  locks : ∀ q, .proc q ∈ K.held ↔ K.locks = some q

theorem locks_eq (hst : K.stack = f :: rest) : K.locks = f.locks K.proc := by
  rw [Cpu.locks, hst]
  rfl

theorem leaving_eq (hst : K.stack = f :: rest) : K.leaving = f.leaves := by
  rw [Cpu.leaving, hst]
  rfl

namespace Ok

variable {st : List Frame}

theorem keep (h : K.Ok) (hplace : ({ K with stack := st } : Cpu).Place)
    (hst : ({ K with stack := st } : Cpu).locks = K.locks) : ({ K with stack := st } : Cpu).Ok :=
  ⟨hplace, fun q => by rw [hst]; exact h.locks q⟩

theorem acquire (h : K.Ok) {l : Lock} (hplace : ({ K with held := l :: K.held, stack := st } : Cpu).Place)
    (hst : ({ K with stack := st } : Cpu).locks = l.slot.or K.locks) (hor : l.slot = none ∨ K.locks = none) :
    ({ K with held := l :: K.held, stack := st } : Cpu).Ok := by
  refine ⟨hplace, fun r => ?_⟩
  show _ ∈ _ ↔ ({ K with stack := st } : Cpu).locks = some r
  rw [hst, List.mem_cons, h.locks]
  cases l with
  | proc q => simp [hor.resolve_left (by rintro ⟨⟩), Lock.slot, eq_comm]
  | spin n => simp [Lock.slot]

theorem release (h : K.Ok) {l : Lock} (hn : K.held.Nodup)
    (hplace : ({ K with held := K.held.erase l, stack := st } : Cpu).Place)
    (hst : K.locks = l.slot.or ({ K with stack := st } : Cpu).locks)
    (hor : l.slot = none ∨ ({ K with stack := st } : Cpu).locks = none) :
    ({ K with held := K.held.erase l, stack := st } : Cpu).Ok := by
  refine ⟨hplace, fun r => ?_⟩
  show _ ∈ _ ↔ ({ K with stack := st } : Cpu).locks = some r
  rw [hn.mem_erase_iff, h.locks, hst]
  cases l with
  | proc q => simp [hor.resolve_left (by rintro ⟨⟩), Lock.slot, eq_comm]
  | spin n => simp [Lock.slot]

end Ok

end Cpu

def Resumable (context : List Frame) : Prop :=
  ∃ g rest, context = g :: rest ∧ g.resumes = true ∧ Stacked .code context

structure Inv (s : State) : Prop where
  lock : ∀ l c, s.lock l = some c ↔ l ∈ (s.cpu c).held
  nodup : ∀ c, (s.cpu c).held.Nodup
  cpu : ∀ c, (s.cpu c).Ok
  context : ∀ p, (s.proc p).saved = true → Resumable (s.proc p).context
  unique : ∀ c d p, (s.cpu c).proc = some p → (s.cpu d).proc = some p → c = d
  saved : ∀ p, (s.proc p).saved = false ↔ ∃ c, (s.cpu c).on = some p
  state : ∀ c p, (s.cpu c).proc = some p → ((s.proc p).state = .running ↔ (s.cpu c).leaving = false)
  runs : ∀ p, (s.proc p).state = .running → ∃ c, (s.cpu c).proc = some p

variable {s t : State} {c d p q : Nat} {K : Cpu} {x : Proc} {l : Lock}

/-! ## Locks -/

structure Locks (s t : State) (c : Nat) (held : List Lock) : Prop where
  mine : ∀ l, t.lock l = some c ↔ l ∈ held
  others : ∀ l d, d ≠ c → (t.lock l = some d ↔ s.lock l = some d)
  nodup : held.Nodup

namespace Inv

theorem locks_same (h : Inv s) (hlock : t.lock = s.lock) : Locks s t c (s.cpu c).held :=
  ⟨fun l => by rw [hlock, h.lock], fun l d _ => by rw [hlock], h.nodup c⟩

theorem locks_acquire (h : Inv s) (hl : s.lock l = none) (hlock : t.lock = Function.update s.lock l (some c)) :
    Locks s t c (l :: (s.cpu c).held) := by
  refine ⟨fun l' => ?_, fun l' d hd => ?_, ?_⟩
  · rw [hlock, List.mem_cons, ← h.lock, Function.update_apply]
    split_ifs with hl' <;> simp [hl']
  · rw [hlock, Function.update_apply]
    split_ifs with hl'
    · simp [hl', hl, Ne.symm hd]
    · rfl
  · refine List.nodup_cons.mpr ⟨?_, h.nodup c⟩
    rw [← h.lock, hl]
    simp

theorem locks_release (h : Inv s) (hl : s.lock l = some c) (hlock : t.lock = Function.update s.lock l none) :
    Locks s t c ((s.cpu c).held.erase l) := by
  refine ⟨fun l' => ?_, fun l' d hd => ?_, (h.nodup c).erase l⟩
  · rw [hlock, (h.nodup c).mem_erase_iff, ← h.lock, Function.update_apply]
    split_ifs with hl' <;> simp [hl']
  · rw [hlock, Function.update_apply]
    split_ifs with hl'
    · simp [hl', hl, Ne.symm hd]
    · rfl

theorem lock_of_locks (h : Inv s) (hl : (s.cpu c).locks = some q) : s.lock (.proc q) = some c :=
  (h.lock _ c).mpr (((h.cpu c).locks q).mpr hl)

theorem update (h : Inv s) (hcpu : t.cpu = Function.update s.cpu c K) (hproc : t.proc = Function.update s.proc p x)
    (hlocks : Locks s t c K.held) (hok : K.Ok) (hctx : x.saved = true → Resumable x.context)
    (hunique : ∀ q, K.proc = some q → ∀ d ≠ c, (s.cpu d).proc ≠ some q)
    (hsaved : ∀ q, (t.proc q).saved = false ↔ K.on = some q ∨ ∃ d ≠ c, (s.cpu d).on = some q)
    (hstate : ∀ q, K.proc = some q → ((t.proc q).state = .running ↔ K.leaving = false))
    (hother : ∀ d ≠ c, (s.cpu d).proc = some p → (x.state = .running ↔ (s.proc p).state = .running))
    (hruns : ∀ q, (t.proc q).state = .running → K.proc = some q ∨ ∃ d ≠ c, (s.cpu d).proc = some q) : Inv t := by
  have hsome : ∀ (P : Cpu → Prop), (∃ d, P (t.cpu d)) ↔ P K ∨ ∃ d ≠ c, P (s.cpu d) := by
    intro P
    rw [hcpu]
    exact Function.exists_update_iff s.cpu fun _ K => P K
  have hall : ∀ (P : Nat → Cpu → Prop), P c K → (∀ d ≠ c, P d (s.cpu d)) → ∀ d, P d (t.cpu d) := by
    intro P hK hd
    rw [hcpu]
    exact (Function.forall_update_iff s.cpu P).mpr ⟨hK, hd⟩
  refine ⟨fun l => ?_, ?_, ?_, ?_, ?_, fun q => ?_, ?_, fun q hq => ?_⟩
  · exact hall (fun d K => t.lock l = some d ↔ l ∈ K.held) (hlocks.mine l) fun d hd =>
      (hlocks.others l d hd).trans (h.lock l d)
  · exact hall (fun _ K => K.held.Nodup) hlocks.nodup fun d _ => h.nodup d
  · exact hall (fun _ K => K.Ok) hok fun d _ => h.cpu d
  · rw [hproc]
    exact (Function.forall_update_iff s.proc fun _ x => x.saved = true → Resumable x.context).mpr
      ⟨hctx, fun q _ => h.context q⟩
  · intro d e q
    rw [hcpu, Function.update_apply, Function.update_apply]
    split_ifs with hd he he
    · rw [hd, he]
      exact fun _ _ => rfl
    · exact fun hK hq => absurd hq (hunique q hK e he)
    · exact fun hq hK => absurd hq (hunique q hK d hd)
    · exact h.unique d e q
  · rw [hsaved q, hsome fun K => K.on = some q]
  · refine hall (fun _ K => ∀ q, K.proc = some q → ((t.proc q).state = .running ↔ K.leaving = false)) hstate
      fun d hd q hq => ?_
    rw [← h.state d q hq, hproc, Function.update_apply]
    split_ifs with hqp
    · subst hqp
      exact hother d hd hq
    · rfl
  · rw [hsome fun K => K.proc = some q]
    exact hruns q hq

theorem runs_elsewhere (h : Inv s) (hq : (s.proc q).state = .running) (hc : (s.cpu c).proc ≠ some q) :
    ∃ d ≠ c, (s.cpu d).proc = some q := by
  obtain ⟨d, hd⟩ := h.runs q hq
  exact ⟨d, fun he => hc (he ▸ hd), hd⟩

theorem saved_elsewhere (h : Inv s) (hc : (s.cpu c).on ≠ some q) :
    (s.proc q).saved = false ↔ ∃ d ≠ c, (s.cpu d).on = some q := by
  rw [h.saved q]
  constructor
  · rintro ⟨d, hd⟩
    exact ⟨d, fun he => hc (he ▸ hd), hd⟩
  · rintro ⟨d, _, hd⟩
    exact ⟨d, hd⟩

theorem hand (h : Inv s) (hcpu : t.cpu = Function.update s.cpu c K) (hproc : t.proc = Function.update s.proc p x)
    (hlocks : Locks s t c K.held) (hok : K.Ok) (hctx : x.saved = true → Resumable x.context)
    (hold : ∀ q, (s.cpu c).proc = some q → q = p) (hnew : ∀ q, K.proc = some q → q = p)
    (halone : ∀ d ≠ c, (s.cpu d).proc ≠ some p) (hsaved : x.saved = false ↔ K.on = some p)
    (hstate : x.state = .running ↔ K.proc = some p ∧ K.leaving = false) : Inv t := by
  refine h.update hcpu hproc hlocks hok hctx ?_ (fun q => ?_) ?_ ?_ (fun q => ?_)
  · intro q hq
    rw [hnew q hq]
    exact halone
  · rw [hproc, Function.update_apply]
    split_ifs with hqp
    · rw [hqp, hsaved]
      refine (or_iff_left ?_).symm
      rintro ⟨d, hd, hon⟩
      exact halone d hd ((h.cpu d).place.proc_of_on hon)
    · rw [h.saved_elsewhere fun hon => hqp (hold q ((h.cpu c).place.proc_of_on hon))]
      exact (or_iff_right fun hon => hqp (hnew q (hok.place.proc_of_on hon))).symm
  · intro q hq
    rw [hnew q hq, hproc, Function.update_self, hstate, ← hnew q hq]
    exact and_iff_right hq
  · exact fun d hd hp => absurd hp (halone d hd)
  · rw [hproc, Function.update_apply]
    split_ifs with hqp
    · rw [hqp]
      exact fun hr => .inl (hstate.mp hr).1
    · exact fun hr => .inr (h.runs_elsewhere hr fun hc => hqp (hold q hc))

theorem change (h : Inv s) (hcpu : t.cpu = Function.update s.cpu c K) (hproc : t.proc = Function.update s.proc p x)
    (hlocks : Locks s t c K.held) (hok : K.Ok) (hsame : K.proc = (s.cpu c).proc ∧ K.on = (s.cpu c).on)
    (hctx : x.saved = true → Resumable x.context) (hsaved : x.saved = (s.proc p).saved)
    (hstate : ∀ q, K.proc = some q → ((t.proc q).state = .running ↔ K.leaving = false))
    (hother : K.proc ≠ some p → (x.state = .running ↔ (s.proc p).state = .running))
    (hruns : x.state = .running → (s.proc p).state = .running) : Inv t := by
  have hsplit : ∀ (P : Cpu → Prop), (∃ d, P (s.cpu d)) ↔ P (s.cpu c) ∨ ∃ d ≠ c, P (s.cpu d) := by
    intro P
    have := Function.exists_update_iff s.cpu (a := c) (b := s.cpu c) fun _ K => P K
    rwa [Function.update_eq_self] at this
  refine h.update hcpu hproc hlocks hok hctx ?_ (fun q => ?_) hstate ?_ (fun q hq => ?_)
  · intro q hq d hdc hd
    exact hdc (h.unique d c q hd (by rw [← hsame.1, hq]))
  · rw [hsame.2, ← hsplit fun K => K.on = some q, ← h.saved q, hproc, Function.update_apply]
    split_ifs with hqp
    · rw [hqp, hsaved]
    · rfl
  · intro d hdc hd
    refine hother fun hc => hdc ?_
    exact h.unique d c p hd (by rw [← hsame.1, hc])
  · rw [hsame.1, ← hsplit fun K => K.proc = some q]
    refine h.runs q ?_
    rw [hproc, Function.update_apply] at hq
    split_ifs at hq with hqp
    · rw [hqp]
      exact hruns hq
    · exact hq

theorem turn (h : Inv s) (hcpu : t.cpu = Function.update s.cpu c K) (hproc : t.proc = s.proc)
    (hlocks : Locks s t c K.held) (hok : K.Ok) (hsame : K.proc = (s.cpu c).proc ∧ K.on = (s.cpu c).on)
    (hleaving : K.leaving = (s.cpu c).leaving) : Inv t := by
  refine h.change (p := 0) (x := s.proc 0) hcpu (hproc.trans (Function.update_eq_self 0 s.proc).symm) hlocks hok hsame
    (h.context 0) rfl (fun q hq => ?_) (fun _ => Iff.rfl) id
  rw [hproc, hleaving]
  exact h.state c q (by rw [← hsame.1, hq])

end Inv

/-! ## Steps of the locks -/

theorem ends_acquire {Q : Unit → State → Prop} :
    Ends (acquire c l) s Q (fun _ => True) ↔ (s.lock l = none → Q () (s.acquired c l)) := by
  simp only [acquire, ends_bind, ends_gets, ends_ite, ends_stop, ends_update, implies_true, true_and,
    and_true]
  refine ⟨fun h hl => h (by rw [hl]; simp) hl, fun h _ => h⟩

theorem ends_release {Q : Unit → State → Prop} :
    Ends (release c l) s Q (fun _ => True) ↔ (s.lock l = some c → Q () (s.released c l)) := by
  simp only [release, ends_bind, ends_gets, ends_ite, ends_stop, ends_update, implies_true, and_true]

theorem ends_myproc {Q : Nat → State → Prop} :
    Ends (myproc c) s Q (fun _ => True) ↔ ∀ p, (s.cpu c).proc = some p → Q p s := by
  simp only [myproc, ends_bind, ends_gets]
  cases (s.cpu c).proc with
  | none => simp
  | some p => simp

theorem ends_goto {Q : Unit → State → Prop} {E : String → Prop} {st : List Frame} :
    Ends (goto c st) s Q E ↔ Q () (s.goto c st) := Iff.rfl

namespace State

variable {st : List Frame}

theorem cpu_acquired_goto : ((s.acquired c l).goto c st).cpu =
    Function.update s.cpu c { s.cpu c with held := l :: (s.cpu c).held, stack := st } := by
  simp [acquired, goto, setCpu, setLock]

theorem cpu_released_goto : ((s.released c l).goto c st).cpu =
    Function.update s.cpu c { s.cpu c with held := (s.cpu c).held.erase l, stack := st } := by
  simp [released, goto, setCpu, setLock]

end State

namespace Inv

variable {st : List Frame}

theorem acquire_goto (h : Inv s) (hl : s.lock l = none)
    (hok : ({ s.cpu c with held := l :: (s.cpu c).held, stack := st } : Cpu).Ok)
    (hleaving : ({ s.cpu c with stack := st } : Cpu).leaving = (s.cpu c).leaving) :
    Inv ((s.acquired c l).goto c st) :=
  h.turn State.cpu_acquired_goto rfl (h.locks_acquire hl rfl) hok ⟨rfl, rfl⟩ hleaving

theorem release_goto (h : Inv s) (hl : s.lock l = some c)
    (hok : ({ s.cpu c with held := (s.cpu c).held.erase l, stack := st } : Cpu).Ok)
    (hleaving : ({ s.cpu c with stack := st } : Cpu).leaving = (s.cpu c).leaving) :
    Inv ((s.released c l).goto c st) :=
  h.turn State.cpu_released_goto rfl (h.locks_release hl rfl) hok ⟨rfl, rfl⟩ hleaving

theorem goto (h : Inv s) (hok : ({ s.cpu c with stack := st } : Cpu).Ok)
    (hleaving : ({ s.cpu c with stack := st } : Cpu).leaving = (s.cpu c).leaving) : Inv (s.goto c st) :=
  h.turn rfl rfl (h.locks_same rfl) hok ⟨rfl, rfl⟩ hleaving

/-! ### Frames that run for a process -/

structure Own (s : State) (c p : Nat) (f : Frame) (rest : List Frame) : Prop where
  stack : (s.cpu c).stack = f :: rest
  proc : (s.cpu c).proc = some p
  routine : f.routine = true

def Next (rest st : List Frame) : Prop := st = rest ∨ ∃ f : Frame, f.routine = true ∧ st = f :: rest

namespace Own

variable {f' : Frame} {st : List Frame}

theorem outer (h : Own s c p f rest) : f ≠ .code ∧ f ≠ .top := by
  constructor <;> rintro rfl <;> cases h.routine

theorem place (h : Own s c p f rest) (hs : Inv s) (hst : Next rest st) (held : List Lock) :
    ({ s.cpu c with stack := st, held := held } : Cpu).Place := by
  obtain rfl | ⟨f', hf', rfl⟩ := hst
  · exact (hs.cpu c).place.pop h.stack (Frame.routine_inner h.routine) h.outer
  · refine (hs.cpu c).place.replace h.stack (Frame.routine_inner h.routine) h.outer (fun g hg => ?_) fun _ =>
      Frame.routine_own h.routine
    rw [Frame.above_routine hf', ← Frame.above_routine h.routine, hg]

theorem below (h : Own s c p f rest) (hs : Inv s) : ∃ tail, rest = .code :: tail := by
  obtain ⟨g, tail, hrest, hover⟩ := (hs.cpu c).place.below h.stack (Frame.routine_inner h.routine) h.outer
  rw [Frame.above_routine h.routine] at hover
  exact ⟨tail, by rw [hrest, of_decide_eq_true hover]⟩

theorem locks (h : Own s c p f rest) : (s.cpu c).locks = f.locks (some p) := by
  rw [Cpu.locks_eq h.stack, h.proc]

theorem locks_next (h : Own s c p f rest) :
    ({ s.cpu c with stack := st } : Cpu).locks = st.head?.bind (Frame.locks (some p)) := by
  rw [← h.proc]
  rfl

theorem leaving (h : Own s c p f rest) (hs : Inv s) (hst : Next rest st) :
    ({ s.cpu c with stack := st } : Cpu).leaving = (s.cpu c).leaving := by
  rw [Cpu.leaving_eq h.stack, Frame.routine_leaves h.routine]
  obtain rfl | ⟨f', hf', rfl⟩ := hst
  · obtain ⟨tail, rfl⟩ := h.below hs
    rfl
  · exact Frame.routine_leaves hf'

theorem acquire (h : Own s c p f rest) (hs : Inv s) (hst : Next rest st)
    (hlocks : st.head?.bind (Frame.locks (some p)) = l.slot.or (f.locks (some p)))
    (hor : l.slot = none ∨ f.locks (some p) = none) :
    Ends (do acquire c l; Switch.goto c st) s (fun _ t => Inv t) (fun _ => True) := by
  rw [ends_bind, ends_acquire]
  rw [← h.locks, ← h.locks_next] at hlocks
  rw [← h.locks] at hor
  exact fun hl => hs.acquire_goto hl ((hs.cpu c).acquire (h.place hs hst _) hlocks hor) (h.leaving hs hst)

theorem release (h : Own s c p f rest) (hs : Inv s) (hst : Next rest st)
    (hlocks : f.locks (some p) = l.slot.or (st.head?.bind (Frame.locks (some p))))
    (hor : l.slot = none ∨ st.head?.bind (Frame.locks (some p)) = none) :
    Ends (do release c l; Switch.goto c st) s (fun _ t => Inv t) (fun _ => True) := by
  rw [ends_bind, ends_release]
  rw [← h.locks_next] at hlocks hor
  rw [← h.locks] at hlocks
  exact fun hl => hs.release_goto hl ((hs.cpu c).release (hs.nodup c) (h.place hs hst _) hlocks hor) (h.leaving hs hst)

theorem take (h : Own s c p f rest) (hs : Inv s) (hf' : f'.routine = true) (hnone : f.locks (some p) = none)
    (hown : f'.locks (some p) = some p) :
    Ends (do Switch.acquire c (.proc p); Switch.goto c (f' :: rest)) s (fun _ t => Inv t) (fun _ => True) :=
  h.acquire hs (.inr ⟨f', hf', rfl⟩) (by rw [hnone]; exact hown) (.inr hnone)

theorem dropReturn (h : Own s c p f rest) (hs : Inv s) (hown : f.locks (some p) = some p) :
    Ends (do Switch.release c (.proc p); Switch.goto c rest) s (fun _ t => Inv t) (fun _ => True) := by
  obtain ⟨tail, rfl⟩ := h.below hs
  exact h.release hs (.inl rfl) hown (.inr rfl)

theorem placeSched (h : Own s c p f rest) (hs : Inv s) {b : Frame} (hb : b.routine = true ∧ b.resumes = true)
    (held : List Lock) : ({ s.cpu c with stack := .sched :: b :: rest, held := held } : Cpu).Place := by
  refine (h.place hs (.inr ⟨b, hb.1, rfl⟩) held).push (K := { s.cpu c with stack := b :: rest, held := held }) rfl
    (Frame.routine_inner hb.1) hb.2 fun _ => ?_
  rw [h.proc]
  simp

theorem leave (h : Own s c p f rest) (hs : Inv s) {b : Frame} (hb : b.routine = true ∧ b.resumes = true) (hown : f.locks (some p) = some p) {x : Proc} (hx : x.state ≠ .running)
    (hsaved : x.saved = (s.proc p).saved) (hctx : x.context = (s.proc p).context) {held : List Lock}
    (hcpu : t.cpu = Function.update s.cpu c { s.cpu c with stack := .sched :: b :: rest, held := held })
    (hproc : t.proc = Function.update s.proc p x) (hlocks : Locks s t c held)
    (hheld : ∀ q, .proc q ∈ held ↔ .proc q ∈ (s.cpu c).held) : Inv t := by
  refine hs.change hcpu hproc hlocks ⟨h.placeSched hs hb held, fun q => ?_⟩ ⟨rfl, rfl⟩ ?_ hsaved ?_ ?_
    (fun hr => absurd hr hx)
  · show _ ↔ ({ s.cpu c with stack := .sched :: b :: rest } : Cpu).locks = some q
    rw [h.locks_next, ← h.locks.trans hown]
    exact (hheld q).trans ((hs.cpu c).locks q)
  · rw [hsaved, hctx]
    exact hs.context p
  · intro q hq
    obtain rfl : p = q := Option.some.inj (h.proc.symm.trans hq)
    rw [hproc, Function.update_self]
    exact iff_of_false hx (by rintro ⟨⟩)
  · intro hne
    exact absurd h.proc hne

end Own

theorem edit (h : Inv s) (hsaved : x.saved = (s.proc p).saved)
    (hctx : x.context = (s.proc p).context ∨ x.context = [.forkret, .code])
    (hrun : x.state = .running ↔ (s.proc p).state = .running) : Inv (s.setProc p x) := by
  refine h.change (c := 0) (K := s.cpu 0) (Function.update_eq_self ..).symm rfl (h.locks_same rfl) (h.cpu 0) ⟨rfl, rfl⟩ ?_
    hsaved ?_ (fun _ => hrun) hrun.mp
  · intro hx
    obtain hctx | hctx := hctx
    · rw [hctx]
      exact h.context p (hsaved ▸ hx)
    · rw [hctx]
      exact ⟨.forkret, [.code], rfl, rfl, rfl, rfl⟩
  · intro q hq
    rw [← h.state 0 q hq]
    show (Function.update s.proc p x q).state = _ ↔ _
    rw [Function.update_apply]
    split_ifs with hqp
    · rw [hqp]
      exact hrun
    · rfl

end Inv

namespace Visit

variable (v : Visit) (x : Proc)

theorem edit_saved : (v.edit x).saved = x.saved := by
  cases v <;> simp only [edit] <;> split <;> rfl

theorem edit_context : (v.edit x).context = x.context ∨ (v.edit x).context = [.forkret, .code] := by
  cases v <;> simp only [edit] <;> split <;> first | exact .inl rfl | exact .inr rfl

theorem edit_running : (v.edit x).state = .running ↔ x.state = .running := by
  cases v with
  | kkill pid =>
    simp only [edit]
    split
    · show (if _ then _ else _) = _ ↔ _
      split
      · rw [‹x.state = .sleeping›]
        exact ⟨(by simp), (by simp)⟩
      · rfl
    · rfl
  | wakeup chan =>
    simp only [edit]
    split
    · rename_i hw
      rw [hw.1]
      exact ⟨(by simp), (by simp)⟩
    · rfl
  | allocproc _ | ready | freeproc =>
    simp only [edit]
    split
    · rw [‹x.state = _›]
      exact ⟨(by simp), (by simp)⟩
    · rfl

end Visit

namespace Inv

/-! ### Loops over the table -/

theorem visit (h : Inv s) {v : Visit} {b : Bool} (hst : (s.cpu c).stack = .visit v q b :: rest) :
    Ends (step c (.visit v q b) rest) s (fun _ t => Inv t) (fun _ => True) := by
  have hplace := (h.cpu c).place
  obtain ⟨g, tail, rfl, hover⟩ := hplace.below hst rfl ⟨(by simp), (by simp)⟩
  have hidle : g.idle = true := Frame.above_idle hover (by simp)
  have hleaving := Cpu.leaving_eq hst
  have hlocks := Cpu.locks_eq hst
  have hpop : ∀ held, ({ s.cpu c with stack := g :: tail, held := held } : Cpu).Place :=
    fun _ => hplace.pop hst rfl ⟨(by simp), (by simp)⟩
  have hnext : ∀ q' b' held, ({ s.cpu c with stack := .visit v q' b' :: g :: tail, held := held } : Cpu).Place :=
    fun _ _ _ => hplace.replace hst rfl ⟨(by simp), (by simp)⟩ (fun _ h => h) id
  cases b with
  | false =>
    simp only [step, ends_bind, ends_gets, ends_ite, ends_acquire, ends_goto]
    refine ⟨fun _ => ?_, fun _ => ⟨fun _ => ?_, fun _ hl => ?_⟩⟩
    · exact h.goto ((h.cpu c).keep (hpop _) ((Frame.idle_locks hidle).trans hlocks.symm))
        ((Frame.idle_leaves hidle).trans hleaving.symm)
    · exact h.goto ((h.cpu c).keep (hnext _ _ _) hlocks.symm) hleaving.symm
    · refine h.acquire_goto hl ((h.cpu c).acquire (hnext _ _ _) ?_ (.inr hlocks)) hleaving.symm
      rw [hlocks]
      rfl
  | true =>
    simp only [step, proc, setProc, ends_bind, ends_gets, ends_update, ends_release, ends_goto]
    intro hl
    have hs := h.edit (p := q) (v.edit_saved (s.proc q)) (v.edit_context _) (v.edit_running _)
    split
    · have hnone : g.locks (s.cpu c).proc = none := Frame.idle_locks hidle
      refine hs.release_goto hl ((h.cpu c).release (h.nodup c) (hpop _) ?_ (.inr hnone))
        ((Frame.idle_leaves hidle).trans hleaving.symm)
      exact hlocks.trans (congrArg (some q).or hnone).symm
    · exact hs.release_goto hl ((h.cpu c).release (h.nodup c) (hnext _ _ _) hlocks (.inr rfl)) hleaving.symm

/-! ### Across `swtch` -/

theorem proc_of_on (h : Inv s) (hon : (s.cpu c).on = some p) : (s.cpu c).proc = some p :=
  (h.cpu c).place.proc_of_on hon

theorem proc_of_own (h : Inv s) (hst : (s.cpu c).stack = f :: rest) (hf : f.own = true) :
    ∃ p, (s.cpu c).proc = some p := by
  cases (h.cpu c).place with
  | thread q on proc => exact ⟨q, proc⟩
  | handler on proc stack own =>
    rw [own f (by rw [hst]; exact List.mem_cons_self)] at hf
    cases hf
  | look i b on proc stack =>
    obtain ⟨rfl, -⟩ := List.cons.inj (hst.symm.trans stack)
    cases hf
  | switch i on proc => exact ⟨i, proc⟩
  | back i on proc => exact ⟨i, proc⟩

theorem place_of_outer (h : Inv s) (hst : (s.cpu c).stack = f :: rest) (hf : f.inner = false) :
    rest = [] ∧ (s.cpu c).on = none ∧
      ((∃ i b, f = .look i b ∧ (s.cpu c).proc = none) ∨ ∃ i, (f = .switch i ∨ f = .back i) ∧ (s.cpu c).proc = some i) := by
  have hbottom : ∀ bottom, bottom.inner = true → ¬ Stacked bottom (f :: rest) := by
    intro bottom hb hs
    have hne : f ≠ bottom := by
      rintro rfl
      rw [hf] at hb
      cases hb
    obtain ⟨g, _, -, hover, -⟩ := hs.below hne
    cases f <;> first | exact absurd hover Bool.false_ne_true | cases hf
  cases (h.cpu c).place with
  | thread p on proc context stack => exact absurd (hst ▸ stack) (hbottom .code rfl)
  | handler on proc stack => exact absurd (hst ▸ stack) (hbottom .top rfl)
  | look i b on proc stack =>
    obtain ⟨rfl, rfl⟩ := List.cons.inj (hst.symm.trans stack)
    exact ⟨rfl, on, .inl ⟨i, b, rfl, proc⟩⟩
  | switch i on proc stack =>
    obtain ⟨rfl, rfl⟩ := List.cons.inj (hst.symm.trans stack)
    exact ⟨rfl, on, .inr ⟨i, .inl rfl, proc⟩⟩
  | back i on proc stack =>
    obtain ⟨rfl, rfl⟩ := List.cons.inj (hst.symm.trans stack)
    exact ⟨rfl, on, .inr ⟨i, .inr rfl, proc⟩⟩

theorem place_look (h : Inv s) {i : Nat} {b : Bool} (hst : (s.cpu c).stack = .look i b :: rest) :
    rest = [] ∧ (s.cpu c).on = none ∧ (s.cpu c).proc = none := by
  obtain ⟨hrest, hon, ⟨_, _, -, hp⟩ | ⟨_, he | he, -⟩⟩ := h.place_of_outer hst rfl
  · exact ⟨hrest, hon, hp⟩
  · cases he
  · cases he

theorem place_turn (h : Inv s) {i : Nat} (hst : (s.cpu c).stack = f :: rest) (hf : f = .switch i ∨ f = .back i) :
    rest = [] ∧ (s.cpu c).on = none ∧ (s.cpu c).proc = some i := by
  obtain ⟨hrest, hon, ⟨_, _, rfl, -⟩ | ⟨j, he, hp⟩⟩ := h.place_of_outer hst (by rcases hf with rfl | rfl <;> rfl)
  · simp at hf
  · obtain rfl : i = j := by
      rcases he with rfl | rfl <;> simpa [eq_comm] using hf
    exact ⟨hrest, hon, hp⟩

theorem locks_of_leaving (h : Inv s) (hp : (s.cpu c).proc = some p) (hl : (s.cpu c).leaving = true) :
    (s.cpu c).locks = some p := by
  cases hst : (s.cpu c).stack with
  | nil =>
    rw [Cpu.leaving, hst] at hl
    cases hl
  | cons f rest =>
    rw [Cpu.leaving_eq hst] at hl
    rw [Cpu.locks_eq hst, hp]
    cases f with
    | sched => rfl
    | back i =>
      rw [(h.place_turn hst (.inr rfl)).2.2] at hp
      exact hp
    | _ => cases hl

theorem nobody (h : Inv s) (hl : s.lock (.proc p) = some c) (hst : (s.cpu c).proc ≠ some p)
    (hstate : (s.proc p).state ≠ .running) (d : Nat) : (s.cpu d).proc ≠ some p := by
  intro hd
  have hleave : (s.cpu d).leaving = true := by
    by_contra hno
    exact hstate ((h.state d p hd).mpr (by simpa using hno))
  have hld := h.lock_of_locks (h.locks_of_leaving hd hleave)
  obtain rfl : c = d := Option.some.inj (hl.symm.trans hld)
  exact hst hd

theorem sched (h : Inv s) (hst : (s.cpu c).stack = .sched :: rest) :
    Ends (Switch.sched c rest) s (fun _ t => Inv t) (fun _ => True) := by
  simp only [Switch.sched, ends_bind, ends_myproc, ends_gets, ends_ite, ends_stop, ends_update, id]
  refine fun p hp => ⟨fun _ => trivial, fun _ => ⟨fun _ => trivial, fun _ => ⟨fun _ => trivial, fun hstate => ?_⟩⟩⟩
  obtain ⟨-, hctx, hstack⟩ := (h.cpu c).place.on_of_own hst rfl hp
  obtain ⟨g, tail, rfl, hover, hrest⟩ := hstack.below (by simp)
  refine h.hand (K := { s.cpu c with stack := [.back p], on := none }) (by rw [← hctx]; rfl) rfl (h.locks_same rfl)
    ⟨.back p rfl hp rfl, fun q => ?_⟩ (fun _ => ⟨g, tail, rfl, hover, hrest⟩) (fun q hq => ?_) (fun q hq => ?_)
    (fun d hd hdp => hd (h.unique d c p hdp hp)) (iff_of_false (by simp) (by simp))
      (iff_of_false hstate fun hl => by cases hl.2)
  · rw [show _ ∈ _ ↔ _ from (h.cpu c).locks q, Cpu.locks_eq hst, hp]
    rfl
  · exact Option.some.inj (hq.symm.trans hp)
  · exact Option.some.inj (hq.symm.trans hp)

theorem place_top (h : Inv s) (hst : (s.cpu c).stack = .top :: rest) :
    rest = [] ∧ (s.cpu c).on = none ∧ (s.cpu c).proc = none := by
  cases (h.cpu c).place with
  | thread p on proc context stack =>
    rw [hst] at stack
    obtain ⟨g, _, -, hover, -⟩ := stack.below (by simp)
    cases hover
  | handler on proc stack =>
    rw [hst] at stack
    cases rest with
    | nil => exact ⟨rfl, on, proc⟩
    | cons g tail => cases stack.1
  | look i b on proc stack | switch i on proc stack | back i on proc stack =>
    rw [hst] at stack
    cases stack

theorem saved_of_off (h : Inv s) (hoff : ∀ d, (s.cpu d).on ≠ some p) : (s.proc p).saved = true := by
  by_contra hno
  obtain ⟨d, hd⟩ := (h.saved p).mp (by simpa using hno)
  exact hoff d hd

theorem off_of_switch (h : Inv s) {i : Nat} (hst : (s.cpu c).stack = f :: rest) (hf : f = .switch i ∨ f = .back i)
    (d : Nat) : (s.cpu d).on ≠ some i := by
  intro hd
  obtain ⟨-, hon, hp⟩ := h.place_turn hst hf
  obtain rfl := h.unique d c i (h.proc_of_on hd) hp
  rw [hon] at hd
  cases hd

theorem enter (h : Inv s) {i : Nat} (hst : (s.cpu c).stack = .switch i :: rest) : Inv (s.enter c i rest) := by
  obtain ⟨rfl, hon, hp⟩ := h.place_turn hst (.inl rfl)
  obtain ⟨g, tail, hctx, hres, hstack⟩ := h.context i (h.saved_of_off (h.off_of_switch hst (.inl rfl)))
  have hrun : (s.proc i).state = .running := (h.state c i hp).mpr (Cpu.leaving_eq hst)
  have hg : g.locks (some i) = some i ∧ g.leaves = false := by
    cases g <;> first | exact ⟨rfl, rfl⟩ | cases hres
  refine h.hand (K := { s.cpu c with context := [.back i], stack := (s.proc i).context, on := some i }) rfl rfl
    (h.locks_same rfl) ⟨.thread i rfl hp rfl hstack, fun q => ?_⟩ (by simp) (fun q hq => ?_) (fun q hq => ?_)
    (fun d hd hdp => hd (h.unique d c i hdp hp)) (iff_of_true rfl rfl) (iff_of_true hrun ⟨hp, ?_⟩)
  · rw [show _ ∈ _ ↔ _ from (h.cpu c).locks q, Cpu.locks_eq hst, Cpu.locks_eq (show _ = g :: tail from hctx)]
    show _ ↔ g.locks (s.cpu c).proc = some q
    rw [hp, hg.1]
    rfl
  · exact Option.some.inj (hq.symm.trans hp)
  · exact Option.some.inj (hq.symm.trans hp)
  · exact (Cpu.leaving_eq (show _ = g :: tail from hctx)).trans hg.2

/-! ### The scheduler -/

theorem scan (h : Inv s) (hon : (s.cpu c).on = none) (hp : (s.cpu c).proc = none) (hleaving : (s.cpu c).leaving = false)
    {st : List Frame} {held : List Lock} (hcpu : t.cpu = Function.update s.cpu c { s.cpu c with held := held, stack := st })
    (hproc : t.proc = s.proc) (hlocks : Locks s t c held)
    (hst : (∃ i b, st = [.look i b]) ∨ st = [.top]) 
    (hheld : ∀ q, .proc q ∈ held ↔ ({ s.cpu c with stack := st } : Cpu).locks = some q) : Inv t := by
  refine h.turn hcpu hproc hlocks ⟨?_, hheld⟩ ⟨rfl, rfl⟩ ?_
  · obtain ⟨i, b, rfl⟩ | rfl := hst
    · exact .look i b hon hp rfl
    · exact .handler hon hp rfl (by simp [Frame.own])
  · rw [hleaving]
    obtain ⟨i, b, rfl⟩ | rfl := hst
    · rfl
    · rfl

theorem look (h : Inv s) {i : Nat} (hst : (s.cpu c).stack = .look i false :: rest) :
    Ends (step c (.look i false) rest) s (fun _ t => Inv t) (fun _ => True) := by
  obtain ⟨rfl, hon, hp⟩ := h.place_look hst
  have hnone : (s.cpu c).locks = none := Cpu.locks_eq hst
  simp only [step, ends_bind, ends_ite, ends_acquire, ends_goto]
  refine ⟨fun _ => ?_, fun _ hl => ?_⟩
  · refine h.scan hon hp (Cpu.leaving_eq hst) rfl rfl (h.locks_same rfl) (.inr rfl) fun q => ?_
    rw [(h.cpu c).locks, hnone]
    rfl
  · refine h.scan hon hp (Cpu.leaving_eq hst) State.cpu_acquired_goto rfl (h.locks_acquire hl rfl) (.inl ⟨i, true, rfl⟩)
      fun q => ?_
    rw [List.mem_cons, (h.cpu c).locks, hnone]
    show _ ↔ some i = some q
    simp [eq_comm]

theorem look_held (h : Inv s) {i : Nat} (hst : (s.cpu c).stack = .look i true :: rest) :
    Ends (step c (.look i true) rest) s (fun _ t => Inv t) (fun _ => True) := by
  obtain ⟨rfl, hon, hp⟩ := h.place_look hst
  have hlocks : (s.cpu c).locks = some i := Cpu.locks_eq hst
  simp only [step, proc, setProc, ends_bind, ends_gets, ends_ite, ends_update, ends_release, ends_goto]
  refine ⟨fun hrun => ?_, fun _ hl => ?_⟩
  · have hnobody := h.nobody (h.lock_of_locks hlocks) (by rw [hp]; simp) (by rw [hrun]; simp)
    refine h.hand (K := { s.cpu c with proc := some i, stack := [.switch i] }) ?_ rfl (h.locks_same rfl)
      ⟨.switch i hon rfl rfl, fun q => ?_⟩ (h.context i) (fun q hq => ?_) (fun q hq => (Option.some.inj hq).symm)
      (fun d _ => hnobody d) (iff_of_false ?_ ?_) (iff_of_true rfl ⟨rfl, rfl⟩)
    · simp [State.goto, State.setCpu, State.setProc]
    · rw [show _ ∈ _ ↔ _ from (h.cpu c).locks q, hlocks]
      rfl
    · rw [hp] at hq
      cases hq
    · rw [h.saved_of_off fun d hd => hnobody d (h.proc_of_on hd)]
      simp
    · rw [show _ = _ from hon]
      simp
  · refine h.scan hon hp (Cpu.leaving_eq hst) State.cpu_released_goto rfl (h.locks_release hl rfl) (.inl ⟨_, _, rfl⟩)
      fun q => ?_
    rw [(h.nodup c).mem_erase_iff, (h.cpu c).locks, hlocks]
    show _ ↔ none = some q
    simp [eq_comm]

theorem back (h : Inv s) {i : Nat} (hst : (s.cpu c).stack = .back i :: rest) :
    Ends (step c (.back i) rest) s (fun _ t => Inv t) (fun _ => True) := by
  obtain ⟨rfl, hon, hp⟩ := h.place_turn hst (.inr rfl)
  have hstate : (s.proc i).state ≠ .running := by
    rw [ne_eq, h.state c i hp, Cpu.leaving_eq hst]
    rintro ⟨⟩
  simp only [step, ends_bind, ends_update, ends_release, ends_goto]
  intro hl
  refine h.hand (p := i) (x := s.proc i)
    (K := { s.cpu c with proc := none, held := (s.cpu c).held.erase (.proc i), stack := [.look (i + 1) false] })
    ?_ (Function.update_eq_self ..).symm (h.locks_release hl rfl) ⟨.look _ _ hon rfl rfl, fun q => ?_⟩ (h.context i)
    (fun q hq => Option.some.inj (hq.symm.trans hp)) (by simp) (fun d hd hdp => hd (h.unique d c i hdp hp))
    (iff_of_false ?_ ?_) (iff_of_false hstate (by simp))
  · simp [State.goto, State.released, State.setCpu, State.setLock]
  · rw [show _ ∈ _ ↔ _ from (h.nodup c).mem_erase_iff, (h.cpu c).locks, Cpu.locks_eq hst]
    show Lock.proc q ≠ .proc i ∧ some i = some q ↔ none = some q
    simp [eq_comm]
  · rw [h.saved_of_off (h.off_of_switch hst (.inr rfl))]
    simp
  · rw [show _ = _ from hon]
    simp

/-! ## Every step -/

theorem step (h : Inv s) (hst : (s.cpu c).stack = f :: rest) :
    Ends (step c f rest) s (fun _ t => Inv t) (fun _ => True) := by
  cases f with
  | code => exact trivial
  | visit v q b => exact h.visit hst
  | yield =>
    rw [Switch.step, ends_bind, ends_myproc]
    intro p hp
    exact Own.take ⟨hst, hp, rfl⟩ h rfl rfl rfl
  | yieldSet =>
    simp only [Switch.step, proc, setProc, ends_bind, ends_myproc, ends_gets, ends_update, ends_goto]
    intro p hp
    exact Own.leave (x := { s.proc p with state := .runnable }) ⟨hst, hp, rfl⟩ h ⟨rfl, rfl⟩ rfl (by simp) rfl rfl rfl
      rfl (h.locks_same rfl) fun _ => Iff.rfl
  | yieldBack =>
    rw [Switch.step, ends_bind, ends_myproc]
    intro p hp
    exact Own.dropReturn ⟨hst, hp, rfl⟩ h rfl
  | sleep chan lk =>
    rw [Switch.step, ends_bind, ends_myproc]
    intro p hp
    exact Own.take ⟨hst, hp, rfl⟩ h rfl rfl rfl
  | sleepLocked chan lk =>
    obtain ⟨p, hp⟩ := h.proc_of_own hst rfl
    exact Own.release ⟨hst, hp, rfl⟩ h (.inr ⟨_, rfl, rfl⟩) rfl (.inl rfl)
  | sleepFree chan lk =>
    simp only [Switch.step, proc, setProc, ends_bind, ends_myproc, ends_gets, ends_update, ends_goto]
    intro p hp
    exact Own.leave (x := { s.proc p with chan := some chan, state := .sleeping })
      ⟨hst, hp, rfl⟩ h ⟨rfl, rfl⟩ rfl (by simp) rfl rfl rfl rfl (h.locks_same rfl) fun _ => Iff.rfl
  | sleepBack lk =>
    simp only [Switch.step, ends_bind, ends_myproc]
    intro p hp
    rw [proc, ends_gets, setProc, ends_update]
    have hs : Inv (s.setProc p { s.proc p with chan := none }) := h.edit rfl (.inl rfl) Iff.rfl
    have hown : Own (s.setProc p { s.proc p with chan := none }) c p (.sleepBack lk) rest :=
      ⟨hst, hp, rfl⟩
    rw [← ends_bind]
    exact hown.release hs (.inr ⟨_, rfl, rfl⟩) rfl (.inr rfl)
  | sleepRelock lk =>
    obtain ⟨p, hp⟩ := h.proc_of_own hst rfl
    have hown : Own s c p (.sleepRelock lk) rest := ⟨hst, hp, rfl⟩
    obtain ⟨tail, rfl⟩ := hown.below h
    exact hown.acquire h (.inl rfl) rfl (.inl rfl)
  | kexit =>
    obtain ⟨p, hp⟩ := h.proc_of_own hst rfl
    exact Own.acquire ⟨hst, hp, rfl⟩ h (.inr ⟨_, rfl, rfl⟩) rfl (.inl rfl)
  | kexitWake =>
    obtain ⟨p, hp⟩ := h.proc_of_own hst rfl
    have hown : Own s c p .kexitWake rest := ⟨hst, hp, rfl⟩
    have hnext : Next rest (.kexitLock :: rest) := .inr ⟨_, rfl, rfl⟩
    exact h.goto ((h.cpu c).keep (hown.place h hnext _) (Cpu.locks_eq hst).symm) (hown.leaving h hnext)
  | kexitLock =>
    rw [Switch.step, ends_bind, ends_myproc]
    intro p hp
    exact Own.take ⟨hst, hp, rfl⟩ h rfl rfl rfl
  | kexitSet =>
    simp only [Switch.step, proc, setProc, ends_bind, ends_myproc, ends_gets, ends_update, ends_release,
      ends_goto]
    intro p hp hl
    refine Own.leave (x := { s.proc p with state := .zombie }) ⟨hst, hp, rfl⟩ h ⟨rfl, rfl⟩ rfl (by simp) rfl rfl
      State.cpu_released_goto rfl (h.locks_release hl rfl) fun q => ?_
    exact List.mem_erase_of_ne (by simp)
  | kexitBack => exact trivial
  | sched => exact h.sched hst
  | forkret =>
    rw [Switch.step, ends_bind, ends_myproc]
    intro p hp
    exact Own.dropReturn ⟨hst, hp, rfl⟩ h rfl
  | top =>
    obtain ⟨rfl, hon, hp⟩ := h.place_top hst
    refine h.scan hon hp (Cpu.leaving_eq hst) rfl rfl (h.locks_same rfl) (.inl ⟨0, false, rfl⟩) fun q => ?_
    rw [(h.cpu c).locks, Cpu.locks_eq hst]
    rfl
  | look i b =>
    cases b with
    | false => exact h.look hst
    | true => exact h.look_held hst
  | switch i => exact h.enter hst
  | back i => exact h.back hst

theorem push (h : Inv s) (hst : (s.cpu c).stack = f :: rest) (hf : f.inner = true ∧ f.idle = true)
    (hover : g.above f = true) (hown : g.own = true → (s.cpu c).proc ≠ none) (hlocks : ∀ me, g.locks me = none)
    (hleaves : g.leaves = false) : Inv (s.goto c (g :: f :: rest)) := by
  refine h.goto ((h.cpu c).keep ((h.cpu c).place.push hst hf.1 hover hown) ?_) ?_
  · rw [Cpu.locks_eq hst, Frame.idle_locks hf.2]
    exact hlocks _
  · rw [Cpu.leaving_eq hst, Frame.idle_leaves hf.2]
    exact hleaves

theorem call (h : Inv s) (hst : (s.cpu c).stack = .code :: rest) (f : Call) :
    Ends (call c rest f) s (fun _ t => Inv t) (fun _ => True) := by
  have hplace : ∀ held, ({ s.cpu c with stack := .code :: rest, held := held } : Cpu).Place := by
    intro held
    refine (h.cpu c).place.restack hst rfl (fun _ _ hs => hs) fun _ hf hrest g hg => ?_
    obtain rfl | hg := List.mem_cons.mp hg
    · exact hf
    · exact hrest g hg
  have hlocks : ({ s.cpu c with stack := .code :: rest } : Cpu).locks = (s.cpu c).locks := (Cpu.locks_eq hst).symm
  have hleaving : ({ s.cpu c with stack := .code :: rest } : Cpu).leaving = (s.cpu c).leaving := (Cpu.leaving_eq hst).symm
  cases f with
  | acquire lk =>
    rw [Switch.call, ends_bind, ends_acquire]
    intro hl
    exact h.acquire_goto hl ((h.cpu c).acquire (hplace _) hlocks (.inl rfl)) hleaving
  | release lk =>
    rw [Switch.call, ends_bind, ends_release]
    intro hl
    exact h.release_goto hl ((h.cpu c).release (h.nodup c) (hplace _) hlocks.symm (.inl rfl)) hleaving
  | yield =>
    simp only [Switch.call, ends_bind, ends_myproc, ends_goto]
    intro p hp
    exact h.push hst ⟨rfl, rfl⟩ rfl (fun _ => by rw [hp]; simp) (fun _ => rfl) rfl
  | sleep chan lk =>
    simp only [Switch.call, setProc, ends_bind, ends_myproc, ends_gets, ends_ite, ends_update, ends_stop,
      ends_goto, id]
    intro p hp
    refine ⟨fun _ => ?_, fun _ => trivial⟩
    have hs : Inv (s.setProc p { s.proc p with calls := (chan, lk) :: (s.proc p).calls }) :=
      h.edit rfl (.inl rfl) Iff.rfl
    exact hs.push hst ⟨rfl, rfl⟩ rfl (fun _ => ne_of_eq_of_ne hp (by simp)) (fun _ => rfl) rfl
  | wakeup chan => exact h.push hst ⟨rfl, rfl⟩ rfl (by rintro ⟨⟩) (fun _ => rfl) rfl
  | kkill pid => exact h.push hst ⟨rfl, rfl⟩ rfl (by rintro ⟨⟩) (fun _ => rfl) rfl
  | kexit =>
    simp only [Switch.call, ends_bind, ends_myproc, ends_goto]
    intro p hp
    exact h.push hst ⟨rfl, rfl⟩ rfl (fun _ => by rw [hp]; simp) (fun _ => rfl) rfl
  | allocproc pid => exact h.push hst ⟨rfl, rfl⟩ rfl (by rintro ⟨⟩) (fun _ => rfl) rfl
  | ready np => exact h.push hst ⟨rfl, rfl⟩ rfl (by rintro ⟨⟩) (fun _ => rfl) rfl
  | freeproc pp => exact h.push hst ⟨rfl, rfl⟩ rfl (by rintro ⟨⟩) (fun _ => rfl) rfl

theorem idle_of_free (h : Inv s) (hst : (s.cpu c).stack = f :: rest) (hheld : (s.cpu c).held = [])
    (hf : f.interruptible = true) : f.idle = true := by
  have hnone : f.locks (s.cpu c).proc = none := by
    rw [← Cpu.locks_eq hst, Option.eq_none_iff_forall_ne_some]
    intro q hq
    have := ((h.cpu c).locks q).mpr hq
    rw [hheld] at this
    cases this
  have hown : f.own = true → f.locks (s.cpu c).proc ≠ (s.cpu c).proc := by
    intro hf
    obtain ⟨p, hp⟩ := h.proc_of_own hst hf
    rw [hnone, hp]
    simp
  cases f with
  | visit v q b =>
    cases b
    · rfl
    · cases hnone
  | look | switch | back | sleep => cases hf
  | _ => first | rfl | exact absurd rfl (hown rfl)

theorem run (h : Inv s) (a : Act) : Ends (run a) s (fun _ t => Inv t) (fun _ => True) := by
  cases a with
  | step c =>
    simp only [Switch.run, ends_bind, ends_gets]
    split
    · exact h.step ‹_›
    · exact trivial
  | call c f =>
    simp only [Switch.run, ends_bind, ends_gets]
    split
    · exact h.call ‹_› f
    · exact trivial
  | exitWakeup c chan =>
    simp only [Switch.run, ends_bind, ends_gets]
    split
    · exact h.push ‹_› ⟨rfl, rfl⟩ rfl (by rintro ⟨⟩) (fun _ => rfl) rfl
    · exact trivial
  | interrupt c =>
    simp only [Switch.run, ends_bind, ends_gets]
    split
    · rename_i f rest hst
      rw [ends_ite]
      refine ⟨fun hoff => ?_, fun _ => trivial⟩
      have hidle : f.idle = true := h.idle_of_free hst hoff.1 hoff.2
      exact h.push hst ⟨Frame.idle_inner hidle, hidle⟩ hidle (by rintro ⟨⟩) (fun _ => rfl) rfl
    · exact trivial
  | interruptReturn c =>
    simp only [Switch.run, ends_bind, ends_gets]
    split
    · rename_i g rest hst
      rw [ends_ite]
      refine ⟨fun _ => ?_, fun _ => trivial⟩
      have hidle : g.idle = true := (h.cpu c).place.above_second rfl hst
      refine h.goto ((h.cpu c).keep ?_ ?_) ?_
      · exact (h.cpu c).place.restack hst rfl (fun _ _ hs => hs.2) fun _ _ hrest => hrest
      · rw [Cpu.locks_eq hst]
        exact Frame.idle_locks hidle
      · rw [Cpu.leaving_eq hst]
        exact Frame.idle_leaves hidle
    · exact trivial

end Inv

theorem start_inv (pids : Nat → Option Int) : Inv (start pids) := by
  refine ⟨?_, ?_, ?_, ?_, (by intros; contradiction), ?_, (by intros; contradiction), ?_⟩
  · intro l c
    exact ⟨(by rintro ⟨⟩), (by rintro ⟨⟩)⟩
  · exact fun _ => List.nodup_nil
  · intro c
    exact ⟨.handler rfl rfl rfl (by simp [start, Frame.own]), fun q => ⟨(by rintro ⟨⟩), (by rintro ⟨⟩)⟩⟩
  · exact fun p _ => ⟨.forkret, [.code], rfl, rfl, rfl, rfl⟩
  · intro p
    exact iff_of_false (by rintro ⟨⟩) (by rintro ⟨c, ⟨⟩⟩)
  · intro p hp
    have hne : (if (pids p).isSome then Procstate.runnable else .unused) ≠ .running := by
      split <;> simp
    exact absurd hp hne

theorem inv_of_path {pids : Nat → Option Int} (h : Path run (fun _ _ => True) (start pids) s) : Inv s :=
  h.invariant (start_inv pids) fun a _ _ hs _ hrun => (hs.run a).of_ok hrun

/-- A process runs on one processor. `on` is the process on whose stack a processor runs; a processor at `switch p` is
about to go over to the stack of `p`, one at `look p true` holds `p->lock` and looks at the state. -/
theorem one_cpu {pids : Nat → Option Int} (h : Path run (fun _ _ => True) (start pids) s) :
    (∀ p, s.lock (.proc p) = none → ((s.proc p).state = .running ↔ ∃! c, (s.cpu c).proc = some p)) ∧
      (∀ p c d, (s.cpu c).on = some p ∨ (s.cpu c).stack = [.switch p] →
        (s.cpu d).on = some p ∨ (s.cpu d).stack = [.switch p] → c = d) ∧
      ∀ p c, (s.cpu c).stack = [.switch p] ∨ (s.cpu c).stack = [.look p true] ∧ (s.proc p).state ≠ .running →
        (s.proc p).saved = true ∧ ∀ d, (s.cpu d).on ≠ some p := by
  have hs := inv_of_path h
  have hproc : ∀ p c, (s.cpu c).on = some p ∨ (s.cpu c).stack = [.switch p] → (s.cpu c).proc = some p := by
    rintro p c (hon | hst)
    · exact hs.proc_of_on hon
    · exact (hs.place_turn hst (.inl rfl)).2.2
  refine ⟨fun p hfree => ⟨fun hrun => ?_, ?_⟩, fun p c d hc hd => ?_, fun p c hc => ?_⟩
  · obtain ⟨c, hc⟩ := hs.runs p hrun
    exact ⟨c, hc, fun d hd => hs.unique d c p hd hc⟩
  · rintro ⟨c, hc, -⟩
    by_contra hno
    have hleave : (s.cpu c).leaving = true := by
      by_contra hl
      exact hno ((hs.state c p hc).mpr (by simpa using hl))
    have := hs.lock_of_locks (hs.locks_of_leaving hc hleave)
    rw [hfree] at this
    cases this
  · exact hs.unique c d p (hproc p c hc) (hproc p d hd)
  · have hoff : ∀ d, (s.cpu d).on ≠ some p := by
      rcases hc with hst | ⟨hst, hstate⟩
      · exact hs.off_of_switch hst (.inl rfl)
      · intro d hd
        have hl := hs.lock_of_locks (q := p) (Cpu.locks_eq hst)
        have hne : (s.cpu c).proc ≠ some p := by
          rw [(hs.place_look hst).2.2]
          simp
        exact hs.nobody hl hne hstate d (hs.proc_of_on hd)
    exact ⟨hs.saved_of_off hoff, hoff⟩

def migrate : List Act :=
  List.replicate 5 (.step 0) ++ [.interrupt 0, .call 0 .yield] ++ List.replicate 4 (.step 0) ++
    List.replicate 5 (.step 1)

theorem one_cpu_migrate : ∃ s, Path run (fun _ _ => True) (start fun p => if p = 0 then some 1 else none) s ∧
    ((s.cpu 1).on = some 0 ∧ (s.cpu 1).stack = [.code, .code] ∧ (s.cpu 0).proc = none) ∧
    (∀ p, s.lock (.proc p) = none → ((s.proc p).state = .running ↔ ∃! c, (s.cpu c).proc = some p)) ∧
      (∀ p c d, (s.cpu c).on = some p ∨ (s.cpu c).stack = [.switch p] →
        (s.cpu d).on = some p ∨ (s.cpu d).stack = [.switch p] → c = d) ∧
      ∀ p c, (s.cpu c).stack = [.switch p] ∨ (s.cpu c).stack = [.look p true] ∧ (s.proc p).state ≠ .running →
        (s.proc p).saved = true ∧ ∀ d, (s.cpu d).on ≠ some p := by
  obtain ⟨s, hrun, hs⟩ := Path.exists_of_follow run (C := fun _ _ => True) migrate
    (start fun p => if p = 0 then some 1 else none)
    (fun s => decide ((s.cpu 1).on = some 0 ∧ (s.cpu 1).stack = [.code, .code] ∧ (s.cpu 0).proc = none))
    (by decide +kernel)
  exact ⟨s, hrun, of_decide_eq_true hs, one_cpu hrun⟩

end Xv6.Switch
