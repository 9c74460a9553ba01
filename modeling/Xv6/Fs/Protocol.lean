import Xv6.Fs.Journal
import Mathlib.Data.Finset.Card

/-!
# The protocol of the log

What `begin_op`, `log_write`, `end_op` and `commit` do to the log and to the processes, with the buffers left out.
-/

open Xv6.Lib Op

namespace Xv6.Fs

structure Proto where
  log : Log
  boot : Option Boot
  phase : Nat → Phase
  nextop : Nat
  logged : List (Nat × Nat)
  copied : List Nat
  commits : List Commit
  -- The blocks of each durable transaction.
  durable : List (List Nat)

def Sys.proto (y : Sys) : Proto :=
  ⟨y.fs.log, y.boot, y.phase, y.nextop, y.logged, y.copied, y.commits, y.durable.map (·.map Prod.fst)⟩

namespace Proto

def setPhase (q : Proto) (p : Nat) (ph : Phase) : Proto := { q with phase := Function.update q.phase p ph }

/-- The stages of `commit()` that only move on, with `n` blocks in the log. -/
inductive Next (n : Nat) : Stage → Stage → Prop
  | enter (h : 0 < n) : Next n .enter (.write_log 0)
  | nothing (h : n = 0) : Next n .enter .leave
  | copied (tail : Nat) (h : n ≤ tail) : Next n (.write_log tail) .write_head
  | install (tail : Nat) (h : tail < n) : Next n (.install tail) (.install (tail + 1))
  | clear : Next n .clear .leave

inductive Step (q : Proto) : Option (Nat × Nat) → Proto → Prop
  | quiet : Step q none q
  | begin_op (p : Nat) (hboot : q.boot = none) (hp : q.phase p = .outside) (hc : q.log.committing = false)
      (hroom : (q.log.lh.length : Int) + (q.log.outstanding + 1) * MAXOPBLOCKS ≤ LOGBLOCKS) :
      Step q none { q.setPhase p (.inOp q.nextop) with
        log := { q.log with outstanding := q.log.outstanding + 1 }, nextop := q.nextop + 1 }
  | absorb (p op b : Nat) (hp : q.phase p = .inOp op) (hb : b ∈ q.log.lh) :
      Step q (some (p, b)) { q with logged := q.logged ++ [(op, b)] }
  | log_write (p op b : Nat) (hp : q.phase p = .inOp op) (hb : b ∉ q.log.lh) (hn : q.log.lh.length < LOGBLOCKS) :
      Step q (some (p, b)) { q with log := { q.log with lh := q.log.lh ++ [b] }, logged := q.logged ++ [(op, b)] }
  | end_op (p op : Nat) (hp : q.phase p = .inOp op) (hc : q.log.committing = false)
      (ho : q.log.outstanding - 1 ≠ 0) :
      Step q none { q.setPhase p .outside with log := { q.log with outstanding := q.log.outstanding - 1 } }
  | end_last (p op : Nat) (hp : q.phase p = .inOp op) (hc : q.log.committing = false)
      (ho : q.log.outstanding - 1 = 0) :
      Step q none { q.setPhase p (.committing .enter) with
        log := { q.log with outstanding := q.log.outstanding - 1, committing := true } }
  | stage (p : Nat) (st st' : Stage) (hp : q.phase p = .committing st) (hn : Next q.log.lh.length st st') :
      Step q none (q.setPhase p (.committing st'))
  | copy (p tail : Nat) (hp : q.phase p = .committing (.write_log tail)) (ht : tail < q.log.lh.length) :
      Step q none { q.setPhase p (.committing (.write_log (tail + 1))) with
        copied := q.copied ++ [q.log.lh.getD tail 0] }
  | head (p : Nat) (hp : q.phase p = .committing .write_head) :
      Step q none { q.setPhase p (.committing (.install 0)) with durable := q.durable ++ [q.log.lh] }
  | forget (p tail : Nat) (hp : q.phase p = .committing (.install tail)) (ht : q.log.lh.length ≤ tail) :
      Step q none { q.setPhase p (.committing .clear) with log := { q.log with lh := [] } }
  | leave (p : Nat) (hp : q.phase p = .committing .leave) :
      Step q none { q.setPhase p .outside with
        log := { q.log with committing := false }
        commits := ⟨q.logged, q.copied⟩ :: q.commits, logged := [], copied := [] }
  | recover (b : Boot) (lh : List Nat) (hboot : q.boot ≠ none) (hb : b = .clear → lh = []) :
      Step q none { q with boot := some b, log := { q.log with lh } }
  | up (hboot : q.boot = some .clear) : Step q none { q with boot := none }
  | crash (log : Log) (hlog : log = { start := q.log.start, dev := ROOTDEV }) :
      Step q none ⟨log, some .read_head, fun _ => .outside, q.nextop, [], [], q.commits, q.durable⟩

end Proto

def Action.logs (a : Action) (y : Sys) : Option (Nat × Nat) :=
  match a with
  | .log_write p i => some (p, (y.fs.buf i).blockno)
  | _ => none

/-! ## Buffers leave the log alone -/

theorem lift_ok {α : Type} {x : F α} {y y' : Sys} {a : α} :
    lift x y = .ok (a, y') ↔ ∃ s, x y.fs = .ok (a, s) ∧ y' = { y with fs := s } := by
  unfold lift
  cases hx : x y.fs with
  | error e => simp
  | ok r =>
    obtain ⟨b, s⟩ := r
    simp only [Except.ok.injEq, Prod.mk.injEq]
    constructor
    · rintro ⟨rfl, rfl⟩; exact ⟨s, ⟨rfl, rfl⟩, rfl⟩
    · rintro ⟨t, ⟨rfl, rfl⟩, rfl⟩; exact ⟨rfl, rfl⟩

theorem require_ok {c : Sys → Bool} {u : Unit} {y y' : Sys} :
    require c y = .ok (u, y') ↔ c y = true ∧ y' = y := by
  unfold require
  split
  · rename_i h; simp only [Except.ok.injEq, Prod.mk.injEq, true_and, h]; exact eq_comm
  · rename_i h; simp [h]

def SameLog (s s' : Store) : Prop := s'.log = s.log

instance : IsPreorder Store SameLog where
  refl _ := rfl
  trans _ _ _ h h' := h'.trans h

section samelog
variable (p dev b i : Nat)

theorem bget_ref_log : Keeps SameLog (bget_ref dev b) := by
  intro s j s' h
  obtain ⟨-, rfl⟩ | ⟨-, -, rfl⟩ := bget_ref_ok.mp h <;> rfl

theorem acquiresleep_log : Keeps SameLog (acquiresleep p i) := by
  intro s j s' h
  rw [(acquiresleep_ok.mp h).2]
  rfl

theorem bread_disk_log : Keeps SameLog (bread_disk i) := .update fun _ => rfl

theorem bread_log : Keeps SameLog (bread p dev b) := by
  unfold bread bget
  refine .bind (.bind (bget_ref_log dev b) fun i => .bind (acquiresleep_log p i) fun _ => .pure i) ?_
  intro i
  exact .bind (bread_disk_log i) fun _ => .pure i

theorem bwrite_log : Keeps SameLog (bwrite p i) := by
  intro s j s' h
  rw [(bwrite_ok.mp h).2]
  rfl

theorem brelse_log : Keeps SameLog (brelse p i) := by
  intro s j s' h
  obtain ⟨-, lru, -, rfl⟩ := brelse_ok h
  rfl

theorem copy_data_log (j : Nat) : Keeps SameLog (copy_data i j) := by
  unfold copy_data
  exact .bind (.gets _) fun _ => .update fun _ => rfl

theorem write_head_log : Keeps SameLog (write_head p) := by
  unfold write_head
  refine .bind (.gets _) fun log => .bind (bread_log p _ _) fun b => .bind (.gets _) fun s => ?_
  exact .bind (.update fun _ => rfl) fun _ => .bind (bwrite_log p b) fun _ => brelse_log p b

theorem write_log_body_log (tail : Nat) : Keeps SameLog (write_log_body p tail) := by
  unfold write_log_body
  refine .bind (.gets _) fun log => .bind (bread_log p _ _) fun dst => .bind (bread_log p _ _) fun src => ?_
  refine .bind (copy_data_log dst src) fun _ => .bind (bwrite_log p dst) fun _ => ?_
  exact .bind (brelse_log p src) fun _ => brelse_log p dst

theorem install_trans_body_log (recovering : Bool) (tail : Nat) :
    Keeps SameLog (install_trans_body p recovering tail) := by
  unfold install_trans_body
  refine .bind (.gets _) fun log => .bind (bread_log p _ _) fun lbuf => .bind (bread_log p _ _) fun dbuf => ?_
  refine .bind (copy_data_log dbuf lbuf) fun _ => .bind (bwrite_log p dbuf) fun _ => ?_
  have hrel : Keeps SameLog (do brelse p lbuf; brelse p dbuf) :=
    .bind (brelse_log p lbuf) fun _ => brelse_log p dbuf
  exact .ite hrel (.bind (.update fun _ => rfl) fun _ => hrel)

end samelog

theorem read_head_ok {p : Nat} {u : Unit} {s s' : Store} (h : read_head p s = .ok (u, s')) :
    ∃ lh, s'.log = { s.log with lh } := by
  unfold read_head getLog setLog at h
  simp only [bind_ok, gets_ok, update_ok, id] at h
  obtain ⟨_, _, ⟨rfl, rfl⟩, b, t, hread, _, v, ⟨rfl, rfl⟩, _, _, rfl, hrel⟩ := h
  refine ⟨header_blocks (v.buf b).data, ?_⟩
  have hlog : v.log = _ := bread_log _ _ _ _ _ _ hread
  have hlog' : s'.log = _ := brelse_log _ _ _ _ _ hrel
  rw [hlog', Store.setLog_log, hlog]

/-! ## The functions of the log -/

section log
variable {s s' : Store} {r : Bool} {u : Unit} {i : Nat}

theorem begin_op_round_ok (h : begin_op_round s = .ok (r, s')) :
    (r = false ∧ s' = s) ∨ (r = true ∧ s.log.committing = false ∧
      (s.log.lh.length : Int) + (s.log.outstanding + 1) * MAXOPBLOCKS ≤ LOGBLOCKS ∧
      s' = s.setLog fun log => { log with outstanding := log.outstanding + 1 }) := by
  unfold begin_op_round getLog setLog at h
  simp only [bind_ok, gets_ok] at h
  obtain ⟨_, t, ⟨rfl, rfl⟩, h⟩ := h
  split at h
  · exact .inl (by simpa using h)
  · rename_i hc
    split at h
    · exact .inl (by simpa using h)
    · rename_i hroom
      simp only [bind_ok, update_ok, pure_ok] at h
      obtain ⟨_, _, rfl, rfl, rfl⟩ := h
      exact .inr ⟨rfl, by simpa using hc, by omega, rfl⟩

theorem end_op_first_ok (h : end_op_first s = .ok (r, s')) : s.log.committing = false ∧
    ((r = true ∧ s.log.outstanding - 1 = 0 ∧
        s' = s.setLog fun log => { log with outstanding := log.outstanding - 1, committing := true }) ∨
      (r = false ∧ s.log.outstanding - 1 ≠ 0 ∧
        s' = s.setLog fun log => { log with outstanding := log.outstanding - 1 })) := by
  unfold end_op_first getLog setLog at h
  simp only [bind_ok, gets_ok, update_ok] at h
  obtain ⟨_, t, rfl, _, _, ⟨rfl, rfl⟩, h⟩ := h
  split at h
  · simp [panic] at h
  · rename_i hc
    refine ⟨by simpa using hc, ?_⟩
    split at h
    · rename_i ho
      simp only [bind_ok, update_ok, pure_ok] at h
      obtain ⟨_, _, rfl, rfl, rfl⟩ := h
      exact .inl ⟨rfl, ho, rfl⟩
    · rename_i ho
      rw [pure_ok] at h
      obtain ⟨rfl, rfl⟩ := h
      exact .inr ⟨rfl, ho, rfl⟩

theorem log_write_ok (h : log_write i s = .ok (u, s')) :
    s.log.lh.length < LOGBLOCKS ∧ 1 ≤ s.log.outstanding ∧
    (((s.buf i).blockno ∈ s.log.lh ∧ s' = s) ∨ ((s.buf i).blockno ∉ s.log.lh ∧
      s' = (s.setBuf i fun b => { b with refcnt := b.refcnt + 1 }).setLog
        fun log => { log with lh := log.lh ++ [(s.buf i).blockno] })) := by
  unfold log_write getLog setLog bpin at h
  simp only [bind_ok, gets_ok, id] at h
  obtain ⟨_, t, ⟨rfl, rfl⟩, _, t, ⟨rfl, rfl⟩, h⟩ := h
  split at h
  · simp [panic] at h
  · rename_i hn
    split at h
    · simp [panic] at h
    · rename_i ho
      refine ⟨by omega, by omega, ?_⟩
      split at h
      · rename_i hb
        exact .inl ⟨hb, by simpa using h⟩
      · rename_i hb
        simp only [bind_ok, update_ok] at h
        obtain ⟨_, _, rfl, rfl⟩ := h
        exact .inr ⟨hb, rfl⟩

end log

/-! ## Every step is a step of the protocol -/

section refinement
variable {y y' : Sys} {u : Unit} {p i b : Nat}

def SameProto (y y' : Sys) : Prop := y'.proto = y.proto

instance : IsPreorder Sys SameProto where
  refl _ := rfl
  trans _ _ _ h h' := h'.trans h

theorem lift_proto {α : Type} {x : F α} (hx : Keeps SameLog x) : Keeps SameProto (lift x) := by
  intro y a y' h
  obtain ⟨s, hrun, rfl⟩ := lift_ok.mp h
  have hlog : s.log = _ := hx _ _ _ hrun
  simp only [SameProto, Sys.proto, hlog]

theorem require_proto (c : Sys → Bool) : Keeps SameProto (require c) := by
  intro y a y' h
  rw [(require_ok.mp h).2]
  rfl

theorem note_proto (b : Nat) : Keeps SameProto (note b) := .update fun _ => rfl

theorem setChanged_proto (i : Nat) (c : Bool) : Keeps SameProto (setChanged i c) := .update fun _ => rfl

theorem append_proto (lh : List Nat) (last : Nat → Data) :
    Sys.proto { y with durable := y.durable ++ [lh.map fun b => (b, last b)] } =
      { y.proto with durable := y.proto.durable ++ [lh] } := by
  simp [Sys.proto, Function.comp_def]

theorem setPhase_proto {ph : Phase} (h : setPhase p ph y = .ok (u, y')) : y'.proto = y.proto.setPhase p ph := by
  unfold setPhase at h
  rw [update_ok] at h
  rw [h]
  rfl

theorem setBoot_proto {o : Option Boot} (h : setBoot o y = .ok (u, y')) :
    y'.proto = { y.proto with boot := o } := by
  unfold setBoot at h
  rw [update_ok] at h
  rw [h]
  rfl

theorem commit_step_proto {st : Stage} (hp : y.phase p = .committing st)
    (h : commit_step p st y = .ok (u, y')) : Proto.Step y.proto none y'.proto := by
  cases st with
  | enter =>
    simp only [commit_step, bind_ok, gets_ok, id] at h
    obtain ⟨_, t, ⟨rfl, rfl⟩, h⟩ := h
    split at h
    · rename_i hn
      rw [setPhase_proto h]
      exact .stage p _ _ hp (.enter hn)
    · rename_i hn
      rw [setPhase_proto h]
      exact .stage p _ _ hp (.nothing (by simp only [Sys.proto]; omega))
  | write_log tail =>
    simp only [commit_step, bind_ok, gets_ok, id] at h
    obtain ⟨_, t, ⟨rfl, rfl⟩, h⟩ := h
    split at h
    · rename_i ht
      simp only [bind_ok, update_ok] at h
      obtain ⟨_, t₁, hbody, _, t₂, hnote, _, _, rfl, h⟩ := h
      have hproto : t₂.proto = t.proto :=
        (note_proto _ _ _ _ hnote).trans (lift_proto (write_log_body_log p tail) _ _ _ hbody)
      have hlog : t₂.fs.log = t.fs.log := congrArg Proto.log hproto
      have hstep := Proto.Step.copy (q := t.proto) p tail hp ht
      rw [setPhase_proto h]
      rw [← hproto] at hstep ⊢
      rw [← hlog]
      exact hstep
    · rename_i ht
      rw [setPhase_proto h]
      exact .stage p _ _ hp (.copied tail (by simp only [Sys.proto]; omega))
  | write_head =>
    simp only [commit_step, bind_ok, gets_ok, id, update_ok] at h
    obtain ⟨_, t, ⟨rfl, rfl⟩, _, t₁, hbody, _, t₂, hnote, _, _, rfl, h⟩ := h
    have hproto : t₂.proto = t.proto := (note_proto _ _ _ _ hnote).trans (lift_proto (write_head_log p) _ _ _ hbody)
    have hstep := Proto.Step.head (q := t.proto) p hp
    have hlog : t₂.fs.log = t.fs.log := congrArg Proto.log hproto
    rw [setPhase_proto h, append_proto]
    rw [← hproto] at hstep ⊢
    rw [← hlog]
    exact hstep
  | install tail =>
    simp only [commit_step, bind_ok, gets_ok, id] at h
    obtain ⟨_, t, ⟨rfl, rfl⟩, h⟩ := h
    split at h
    · rename_i ht
      rw [bind_ok] at h
      obtain ⟨_, t₁, hbody, h⟩ := h
      have hproto : t₁.proto = t.proto := lift_proto (install_trans_body_log p false tail) _ _ _ hbody
      rw [setPhase_proto h, hproto]
      exact .stage p _ _ hp (.install tail ht)
    · rename_i ht
      simp only [bind_ok, clear_lh, setLog, lift_ok, update_ok] at h
      obtain ⟨_, t₁, ⟨_, rfl, rfl⟩, h⟩ := h
      rw [setPhase_proto h]
      exact .forget p tail hp (by simp only [Sys.proto]; omega)
  | clear =>
    simp only [commit_step, bind_ok, gets_ok, id] at h
    obtain ⟨_, t, ⟨rfl, rfl⟩, _, t₁, hbody, _, t₂, hnote, h⟩ := h
    have hproto : t₂.proto = t.proto := (note_proto _ _ _ _ hnote).trans (lift_proto (write_head_log p) _ _ _ hbody)
    rw [setPhase_proto h, hproto]
    exact .stage p _ _ hp .clear
  | leave =>
    simp only [commit_step, bind_ok, end_op_last, setLog, lift_ok, update_ok] at h
    obtain ⟨_, t₁, ⟨_, rfl, rfl⟩, _, _, rfl, h⟩ := h
    rw [setPhase_proto h]
    exact .leave p hp

theorem recover_step_proto {st : Boot} (hb : y.boot = some st)
    (h : recover_step p st y = .ok (u, y')) : Proto.Step y.proto none y'.proto := by
  have hboot : y.proto.boot ≠ none := by
    rw [Sys.proto, hb]
    simp
  cases st with
  | read_head =>
    simp only [recover_step, bind_ok, lift_ok] at h
    obtain ⟨_, t, ⟨s, hread, rfl⟩, h⟩ := h
    obtain ⟨lh, hlog⟩ := read_head_ok hread
    have hstep := Proto.Step.recover (q := y.proto) (.install 0) lh hboot (by simp)
    rw [setBoot_proto h]
    simp only [Sys.proto, hlog] at hstep ⊢
    exact hstep
  | install tail =>
    simp only [recover_step, bind_ok, gets_ok, id] at h
    obtain ⟨_, t, ⟨rfl, rfl⟩, h⟩ := h
    split at h
    · simp only [bind_ok] at h
      obtain ⟨_, t₁, hbody, _, t₂, hnote, h⟩ := h
      have hproto : t₂.proto = t.proto :=
        (note_proto _ _ _ _ hnote).trans (lift_proto (install_trans_body_log p true tail) _ _ _ hbody)
      rw [setBoot_proto h, hproto]
      exact .recover (.install (tail + 1)) t.fs.log.lh hboot (by simp)
    · simp only [bind_ok, clear_lh, setLog, lift_ok, update_ok] at h
      obtain ⟨_, t₁, ⟨_, rfl, rfl⟩, h⟩ := h
      rw [setBoot_proto h]
      exact .recover .clear [] hboot fun _ => rfl
  | clear =>
    simp only [recover_step, bind_ok, gets_ok, id] at h
    obtain ⟨_, t, ⟨rfl, rfl⟩, _, t₁, hbody, _, t₂, hnote, h⟩ := h
    have hproto : t₂.proto = t.proto := (note_proto _ _ _ _ hnote).trans (lift_proto (write_head_log p) _ _ _ hbody)
    rw [setBoot_proto h, hproto]
    exact .up hb

theorem SameProto.step (h : SameProto y y') : Proto.Step y.proto none y'.proto := by
  rw [h]
  exact .quiet

theorem perform_proto {a : Action} (h : perform a y = .ok (u, y')) : Proto.Step y.proto (a.logs y) y'.proto := by
  cases a with
  | begin_op p =>
    simp only [perform, bind_ok, require_ok, lift_ok] at h
    obtain ⟨_, _, ⟨hguard, rfl⟩, r, t, ⟨s, hround, rfl⟩, h⟩ := h
    simp only [Bool.and_eq_true, Option.isNone_iff_eq_none, beq_iff_eq] at hguard
    obtain ⟨rfl, rfl⟩ | ⟨rfl, hc, hroom, rfl⟩ := begin_op_round_ok hround
    · simp only [Bool.false_eq_true, if_false, pure_ok, true_and] at h
      rw [h]
      exact .quiet
    · simp only [if_true, update_ok] at h
      rw [h]
      exact .begin_op p hguard.1 hguard.2 hc hroom
  | log_write p i =>
    simp only [perform, bind_ok, require_ok, gets_ok, id] at h
    obtain ⟨_, _, ⟨hguard, rfl⟩, _, t, ⟨rfl, rfl⟩, h⟩ := h
    cases hp : t.phase p with
    | inOp op =>
      simp only [hp, bind_ok, lift_ok, setChanged, update_ok] at h
      obtain ⟨_, _, ⟨s, hlog, rfl⟩, _, _, rfl, rfl⟩ := h
      obtain ⟨hn, -, hcase⟩ := log_write_ok hlog
      obtain ⟨hb, rfl⟩ | ⟨hb, rfl⟩ := hcase
      · exact .absorb p op _ hp hb
      · exact .log_write p op _ hp hb hn
    | outside => simp [hp, require_ok] at h
    | committing st => simp [hp, require_ok] at h
  | end_op p =>
    simp only [perform, bind_ok, gets_ok, id] at h
    obtain ⟨_, t, ⟨rfl, rfl⟩, h⟩ := h
    cases hp : t.phase p with
    | inOp op =>
      simp only [hp, bind_ok, lift_ok] at h
      obtain ⟨r, _, ⟨s, hfirst, rfl⟩, h⟩ := h
      rw [setPhase_proto h]
      obtain ⟨hc, ⟨rfl, ho, rfl⟩ | ⟨rfl, ho, rfl⟩⟩ := end_op_first_ok hfirst
      · exact .end_last p op hp hc ho
      · exact .end_op p op hp hc ho
    | outside => simp [hp, require_ok] at h
    | committing st => simp [hp, require_ok] at h
  | commit p =>
    simp only [perform, bind_ok, gets_ok, id] at h
    obtain ⟨_, t, ⟨rfl, rfl⟩, h⟩ := h
    cases hp : t.phase p with
    | committing st =>
      simp only [hp] at h
      exact commit_step_proto hp h
    | outside => simp [hp, require_ok] at h
    | inOp op => simp [hp, require_ok] at h
  | bget p b =>
    have hkeep : Keeps SameProto (perform (.bget p b)) :=
      .bind (require_proto _) fun _ => .bind (lift_proto (bget_ref_log ROOTDEV b)) fun _ => .update fun _ => rfl
    exact (hkeep _ _ _ h).step
  | lock p i =>
    have hkeep : Keeps SameProto (perform (.lock p i)) :=
      .bind (require_proto _) fun _ => .bind (lift_proto (acquiresleep_log p i)) fun _ =>
        .bind (lift_proto (bread_disk_log i)) fun _ => .update fun _ => rfl
    exact (hkeep _ _ _ h).step
  | change p i d =>
    have hkeep : Keeps SameProto (perform (.change p i d)) :=
      .bind (require_proto _) fun _ => .bind (lift_proto (.update fun _ => rfl)) fun _ => setChanged_proto i true
    exact (hkeep _ _ _ h).step
  | bwrite p i =>
    have hkeep : Keeps SameProto (perform (.bwrite p i)) :=
      .bind (require_proto _) fun _ => .bind (lift_proto (bwrite_log p i)) fun _ => setChanged_proto i false
    exact (hkeep _ _ _ h).step
  | brelse p i =>
    have hkeep : Keeps SameProto (perform (.brelse p i)) :=
      .bind (require_proto _) fun _ => .bind (.gets _) fun _ => .bind (note_proto _) fun _ =>
        lift_proto (brelse_log p i)
    exact (hkeep _ _ _ h).step
  | bpin p i =>
    have hkeep : Keeps SameProto (perform (.bpin p i)) :=
      .bind (require_proto _) fun _ => .bind (lift_proto (.update fun _ => rfl)) fun _ => .update fun _ => rfl
    exact (hkeep _ _ _ h).step
  | bunpin i =>
    have hkeep : Keeps SameProto (perform (.bunpin i)) :=
      .bind (require_proto _) fun _ => .bind (lift_proto (.update fun _ => rfl)) fun _ => .update fun _ => rfl
    exact (hkeep _ _ _ h).step
  | recover =>
    simp only [perform, bind_ok, gets_ok, id] at h
    obtain ⟨_, t, ⟨rfl, rfl⟩, h⟩ := h
    cases hb : t.boot with
    | some st =>
      simp only [hb] at h
      exact recover_step_proto hb h
    | none => simp [hb, require_ok] at h
  | crash =>
    rw [perform, update_ok] at h
    rw [h]
    exact .crash _ rfl

end refinement

end Xv6.Fs
