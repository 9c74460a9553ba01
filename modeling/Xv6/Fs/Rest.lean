import Xv6.Fs.Sound

/-!
# The log at rest

An idle log is empty. When no buffer is held either, the disk alone has the contents of every block.
-/

open Xv6.Lib Op

namespace Xv6.Fs

/-- Without a running operation and without a commit nothing is in the log. -/
def Proto.Rests (q : Proto) : Prop :=
  q.boot = none → q.log.outstanding = 0 → q.log.committing = false → q.log.lh = []

theorem Proto.Rests.step {q q' : Proto} {l : Option (Nat × Nat)} (h : Rests q) (ht : Turns q)
    (hleave : ∀ p, q.phase p = .committing .leave → q.log.lh = []) (hclear : q.boot = some .clear → q.log.lh = [])
    (hstep : Step q l q') : Rests q' := by
  intro hboot hout hc
  obtain ⟨F, hF, hcard⟩ := ht.counted
  have hnoOp : ∀ {p op}, q.phase p = .inOp op → q.log.outstanding ≠ 0 := by
    intro p op hp
    have hpos : 0 < F.card := Finset.card_pos.mpr ⟨p, (hF p).mpr ⟨op, hp⟩⟩
    omega
  have hnoCommit : ∀ {p st}, q.phase p = .committing st → q.log.committing ≠ false := by
    intro p st hp
    simp [(ht.alone p st hp).1]
  cases hstep with
  | quiet => exact h hboot hout hc
  | begin_op p =>
    dsimp only at hout
    omega
  | absorb p op b hp => exact absurd hout (hnoOp hp)
  | log_write p op b hp => exact absurd hout (hnoOp hp)
  | end_op p op hp _ ho => exact absurd hout ho
  | end_last p op hp => cases hc
  | stage p st st' hp => exact absurd hc (hnoCommit hp)
  | head p hp => exact absurd hc (hnoCommit hp)
  | copy p tail hp => exact absurd hc (hnoCommit hp)
  | forget p tail hp => rfl
  | leave p hp => exact hleave p hp
  | recover b lh => cases hboot
  | up hb => exact hclear hb
  | crash log hlog => cases hboot

variable {disk : Nat → Data} {start : Nat} {y : Sys}

theorem reach_rests (hfits : start + LOGBLOCKS < 2 ^ 32) (hheader : Loggable start (header_blocks (disk start)))
    (h : Path perform (Careful start) (bootSys disk start) y) : y.proto.Rests := by
  induction h with
  | refl => rintro ⟨⟩
  | step hpath _ hrun ih =>
    have ht := reach_turns hpath
    obtain ⟨pos, hs⟩ := reach_sound hfits hheader hpath
    refine ih.step ht (fun p hp => hs.emptied ?_) (fun hb => hs.emptied ?_) (perform_proto hrun)
    · rw [hs.place.eq_stage ht hp]
      rfl
    · rw [hs.place.eq_boot hb]
      rfl

/-- When no operation runs and nothing is committed, the log is empty and admits an operation. If no process uses a buffer
either, none has a reference, and every block has on disk what was last left in it: a crash loses nothing. -/
theorem rest_is_durable (hfits : start + LOGBLOCKS < 2 ^ 32) (hheader : Loggable start (header_blocks (disk start)))
    (h : Path perform (Careful start) (bootSys disk start) y) (hboot : y.boot = none)
    (hidle : y.fs.log.outstanding = 0 ∧ y.fs.log.committing = false) :
    y.fs.log.lh = [] ∧
    (∀ p, ∃ y', perform (.begin_op p) y = .ok ((), y') ∧ y'.phase p = .inOp y.nextop) ∧
    (y.users.waits = [] → y.users.pins = [] → (∀ i < NBUF, (y.fs.buf i).lock = none) →
      (∀ i < NBUF, (y.fs.buf i).refcnt = 0) ∧ ∀ b, y.fs.disk b = y.last b) := by
  obtain ⟨hout, hc⟩ := hidle
  have hlh : y.fs.log.lh = [] := reach_rests hfits hheader h hboot hout hc
  have ht := reach_turns h
  obtain ⟨pos, hs⟩ := reach_sound hfits hheader h
  refine ⟨hlh, fun p => ?_, fun hwaits hpins hlock => ?_⟩
  · have hp : y.phase p = .outside := by
      cases hp : y.phase p with
      | outside => rfl
      | inOp op =>
        have := ht.outstanding_pos hp
        omega
      | committing st => exact absurd hp (ht.not_committing hc)
    obtain ⟨s, hround⟩ : ∃ s, begin_op_round y.fs = .ok (true, s) := by
      unfold begin_op_round getLog
      rw [run_bind (run_gets _), if_neg (by simp [hc]), if_neg (by rw [hlh, hout]; decide)]
      exact ⟨_, run_bind (run_update _)⟩
    refine ⟨{ y with fs := s, phase := Function.update y.phase p (.inOp y.nextop), nextop := y.nextop + 1 }, ?_,
      Function.update_self ..⟩
    rw [perform, run_bind ((require_ok (u := ())).mpr ⟨by simp [hboot, hp], rfl⟩),
      run_bind (lift_ok.mpr ⟨_, hround, rfl⟩)]
    rfl
  · have hfree : ∀ i, (y.fs.buf i).lock = none := fun i => by
      by_cases hi : i < NBUF
      · exact hlock i hi
      · exact hs.cache.spare i (by omega)
    have hP : pos.pins y.fs.log.lh = [] := List.eq_nil_iff_forall_not_mem.mpr fun b hb => by
      have := pins_mem _ hb
      rw [hlh] at this
      cases this
    refine ⟨fun i hi => ?_, fun b => ?_⟩
    · rw [hs.cache.refs i hi, references, hwaits, hpins, hP, if_pos (hfree i)]
      simp
    · rw [← hs.cache.left b fun i _ => hfree i]
      refine (hs.cache.clean b (by rw [hP]; simp) fun i _ => ?_).symm
      rw [← Bool.not_eq_true]
      exact fun hch => hs.cache.changed i hch (hfree i)

theorem rest_is_durable_committed : ∃ y, Path perform (Careful 2) (bootSys (fun _ _ => 0) 2) y ∧ y.boot = none ∧
    y.commits.length = 1 ∧ ∀ b, y.fs.disk b = y.last b := by
  obtain ⟨y, hpath, hy⟩ := Path.exists_of_follow perform (C := Careful 2) oneOperation (bootSys (fun _ _ => 0) 2)
    (fun y => y.boot.isNone && decide (y.fs.log.outstanding = 0 ∧ y.fs.log.committing = false) &&
      decide (y.users.waits = [] ∧ y.users.pins = [] ∧ ∀ i < NBUF, (y.fs.buf i).lock = none) &&
      decide (y.commits.length = 1)) (by decide +kernel)
  simp only [Bool.and_eq_true, decide_eq_true_eq, Option.isNone_iff_eq_none] at hy
  obtain ⟨⟨⟨hboot, hidle⟩, hwaits, hpins, hlock⟩, hlen⟩ := hy
  have hrest := (rest_is_durable (by decide) (by exact header_blocks_zero) hpath hboot hidle).2.2 hwaits hpins hlock
  exact ⟨y, hpath, hboot, hlen, hrest.2⟩

end Xv6.Fs
