import Xv6.Fs.Protocol
import Mathlib.Algebra.BigOperators.Group.Finset.Basic
import Mathlib.Algebra.Order.BigOperators.Group.Finset
import Mathlib.Algebra.Group.Action.Defs

/-!
# Operations and commits

A commit runs alone, and what one operation logs goes to disk in one commit. The log has room for
the blocks that the running operations may still log.
-/

open Xv6.Lib Op

namespace Xv6.Fs

namespace Proto

variable {q q' : Proto} {p r op b : Nat} {ph : Phase} {st st' : Stage} {l : Option (Nat × Nat)}

theorem setPhase_same : (q.setPhase p ph).phase p = ph := Function.update_self ..

theorem setPhase_other (h : r ≠ p) : (q.setPhase p ph).phase r = q.phase r := Function.update_of_ne h ..

/-! ## Who runs -/

/-- The processes between `begin_op` and `end_op` are counted, and a commit runs alone. -/
structure Turns (q : Proto) : Prop where
  counted : ∃ F : Finset Nat, (∀ p, p ∈ F ↔ ∃ op, q.phase p = .inOp op) ∧ q.log.outstanding = F.card
  alone : ∀ p st, q.phase p = .committing st → q.log.committing = true ∧ ∀ r, r ≠ p → q.phase r = .outside
  flag : q.log.committing = true → ∃ p st, q.phase p = .committing st
  booting : q.boot ≠ none → ∀ p, q.phase p = .outside

theorem Turns.not_committing (h : Turns q) (hc : q.log.committing = false) : q.phase p ≠ .committing st := by
  intro hp
  have := (h.alone p st hp).1
  simp [hc] at this

theorem Turns.not_inOp (h : Turns q) (hp : q.phase p = .committing st) : q.phase r ≠ .inOp op := by
  intro hr
  by_cases hrp : r = p
  · rw [hrp, hp] at hr
    cases hr
  · rw [(h.alone p st hp).2 r hrp] at hr
    cases hr

theorem Turns.committing_false (h : Turns q) (hp : q.phase p = .inOp op) : q.log.committing = false := by
  rw [← Bool.not_eq_true]
  intro hc
  obtain ⟨r, st, hr⟩ := h.flag hc
  exact h.not_inOp hr hp

theorem Turns.boot_none (h : Turns q) (hp : q.phase p ≠ .outside) : q.boot = none := by
  by_contra hb
  exact hp (h.booting hb p)

theorem Turns.move (h : Turns q) (hp : q.phase p = .committing st) (hph : q'.phase = (q.setPhase p (.committing st')).phase)
    (hout : q'.log.outstanding = q.log.outstanding) (hc : q'.log.committing = q.log.committing)
    (hboot : q'.boot = q.boot) : Turns q' := by
  have hothers := (h.alone p st hp).2
  obtain ⟨F, hF, hcard⟩ := h.counted
  refine ⟨⟨F, ?_, hout.trans hcard⟩, ?_, ?_, ?_⟩
  · intro r
    rw [hF, hph]
    by_cases hr : r = p
    · rw [hr, setPhase_same, hp]
      simp
    · rw [setPhase_other hr]
  · intro r st'' hr
    rw [hph] at hr
    have hrp : r = p := by
      by_contra hne
      rw [setPhase_other hne, hothers r hne] at hr
      cases hr
    refine ⟨by rw [hc]; exact (h.alone p st hp).1, ?_⟩
    intro t ht
    rw [hrp] at ht
    rw [hph, setPhase_other ht]
    exact hothers t ht
  · intro _
    exact ⟨p, st', by rw [hph, setPhase_same]⟩
  · intro hb
    rw [hboot] at hb
    exact absurd (h.booting hb p) (by rw [hp]; simp)

theorem Turns.begin_op (h : Turns q) (hboot : q.boot = none) (hp : q.phase p = .outside)
    (hc : q.log.committing = false) :
    Turns { q.setPhase p (.inOp q.nextop) with
      log := { q.log with outstanding := q.log.outstanding + 1 }, nextop := q.nextop + 1 } := by
  obtain ⟨F, hF, hcard⟩ := h.counted
  have hpF : p ∉ F := by simp [hF, hp]
  refine ⟨⟨insert p F, ?_, ?_⟩, ?_, ?_, ?_⟩
  · intro r
    rw [Finset.mem_insert, hF]
    by_cases hr : r = p
    · subst hr
      simp only [true_or, true_iff]
      exact ⟨_, setPhase_same⟩
    · simp only [hr, false_or]
      rw [← setPhase_other (q := q) hr]
  · rw [Finset.card_insert_of_notMem hpF]
    simp only [hcard]
    push_cast
    rfl
  · intro r st hr
    by_cases hrp : r = p
    · rw [hrp] at hr
      exact absurd (setPhase_same.symm.trans hr) (by simp)
    · exact absurd ((setPhase_other hrp).symm.trans hr) (h.not_committing hc)
  · intro hcom
    exact absurd (hc.symm.trans hcom) (by simp)
  · intro hb
    exact absurd hboot hb

theorem Turns.end_op (h : Turns q) (hp : q.phase p = .inOp op) :
    Turns { q.setPhase p .outside with log := { q.log with outstanding := q.log.outstanding - 1 } } := by
  have hc := h.committing_false hp
  obtain ⟨F, hF, hcard⟩ := h.counted
  have hpF : p ∈ F := (hF p).mpr ⟨op, hp⟩
  refine ⟨⟨F.erase p, ?_, ?_⟩, ?_, ?_, ?_⟩
  · intro r
    rw [Finset.mem_erase, hF]
    by_cases hr : r = p
    · subst hr
      simp only [ne_eq, not_true_eq_false, false_and, false_iff, not_exists]
      intro o ho
      exact absurd (setPhase_same.symm.trans ho) (by simp)
    · simp only [ne_eq, hr, not_false_eq_true, true_and]
      rw [← setPhase_other (q := q) hr]
  · have hpos : 0 < F.card := Finset.card_pos.mpr ⟨p, hpF⟩
    rw [Finset.card_erase_of_mem hpF]
    simp only [hcard]
    omega
  · intro r st hr
    by_cases hrp : r = p
    · rw [hrp] at hr
      exact absurd (setPhase_same.symm.trans hr) (by simp)
    · exact absurd ((setPhase_other hrp).symm.trans hr) (h.not_committing hc)
  · intro hcom
    exact absurd (hc.symm.trans hcom) (by simp)
  · intro hb
    exact absurd (h.boot_none (by rw [hp]; simp)) hb

theorem Turns.end_last (h : Turns q) (hp : q.phase p = .inOp op) (ho : q.log.outstanding - 1 = 0) :
    Turns { q.setPhase p (.committing .enter) with
      log := { q.log with outstanding := q.log.outstanding - 1, committing := true } } := by
  have hc := h.committing_false hp
  obtain ⟨F, hF, hcard⟩ := h.counted
  have hpF : p ∈ F := (hF p).mpr ⟨op, hp⟩
  have hone : F.card = 1 := by omega
  have hothers : ∀ r, r ≠ p → q.phase r = .outside := by
    intro r hr
    cases hph : q.phase r with
    | outside => rfl
    | inOp o =>
      have hrF : r ∈ F := (hF r).mpr ⟨o, hph⟩
      exact absurd (Finset.card_le_one.mp hone.le r hrF p hpF) hr
    | committing st => exact absurd hph (h.not_committing hc)
  refine ⟨⟨∅, ?_, by simpa using ho⟩, ?_, fun _ => ⟨p, _, setPhase_same⟩, ?_⟩
  · intro r
    simp only [Finset.notMem_empty, false_iff, not_exists]
    intro o hr
    by_cases hrp : r = p
    · rw [hrp] at hr
      exact absurd (setPhase_same.symm.trans hr) (by simp)
    · exact absurd ((hothers r hrp).symm.trans ((setPhase_other hrp).symm.trans hr)) (by simp)
  · intro r st hr
    have hrp : r = p := by
      by_contra hne
      exact absurd ((hothers r hne).symm.trans ((setPhase_other hne).symm.trans hr)) (by simp)
    refine ⟨rfl, fun t ht => ?_⟩
    rw [hrp] at ht
    exact (setPhase_other ht).trans (hothers t ht)
  · intro hb
    exact absurd (h.boot_none (by rw [hp]; simp)) hb

theorem Turns.leave (h : Turns q) (hp : q.phase p = .committing st) (hph : q'.phase = (q.setPhase p .outside).phase)
    (hout : q'.log.outstanding = q.log.outstanding) (hc : q'.log.committing = false) : Turns q' := by
  have hall : ∀ r, q'.phase r = .outside := by
    intro r
    rw [hph]
    by_cases hr : r = p
    · rw [hr, setPhase_same]
    · rw [setPhase_other hr]
      exact (h.alone p st hp).2 r hr
  obtain ⟨F, hF, hcard⟩ := h.counted
  have hempty : F = ∅ := by
    rw [Finset.eq_empty_iff_forall_notMem]
    intro r hr
    obtain ⟨o, ho⟩ := (hF r).mp hr
    exact h.not_inOp hp ho
  rw [hempty] at hcard
  exact ⟨⟨∅, by simp [hall], hout.trans hcard⟩, by simp [hall], by simp [hc], fun _ => hall⟩

theorem Turns.step (h : Turns q) (hstep : Step q l q') : Turns q' := by
  cases hstep with
  | quiet => exact h
  | begin_op p hboot hp hc hroom => exact h.begin_op hboot hp hc
  | absorb p op b hp hb => exact ⟨h.counted, h.alone, h.flag, h.booting⟩
  | log_write p op b hp hb hn => exact ⟨h.counted, h.alone, h.flag, h.booting⟩
  | end_op p op hp hc ho => exact h.end_op hp
  | end_last p op hp hc ho => exact h.end_last hp ho
  | stage p st st' hp hn => exact h.move hp rfl rfl rfl rfl
  | head p hp => exact h.move hp rfl rfl rfl rfl
  | copy p tail hp ht => exact h.move hp rfl rfl rfl rfl
  | forget p tail hp ht => exact h.move hp rfl rfl rfl rfl
  | leave p hp => exact h.leave hp rfl rfl rfl
  | recover b lh hboot hb => exact ⟨h.counted, h.alone, h.flag, fun _ => h.booting hboot⟩
  | up hboot => exact ⟨h.counted, h.alone, h.flag, fun _ => h.booting (by rw [hboot]; simp)⟩
  | crash log hlog =>
    subst hlog
    exact ⟨⟨∅, by simp, rfl⟩, by simp, by simp, by simp⟩

/-! ## What is logged together is committed together -/

/-- Operations have numbers of their own, and no operation has blocks in two commits. -/
structure Records (q : Proto) : Prop where
  numbered : ∀ p op, q.phase p = .inOp op → op < q.nextop
  distinct : ∀ p r op, q.phase p = .inOp op → q.phase r = .inOp op → p = r
  known : ∀ e ∈ q.logged, e.1 < q.nextop
  settled : ∀ c ∈ q.commits, ∀ e ∈ c.logged,
    e.1 < q.nextop ∧ (∀ p, q.phase p ≠ .inOp e.1) ∧ ∀ e' ∈ q.logged, e'.1 ≠ e.1
  apart : q.commits.Pairwise fun c c' => ∀ e ∈ c.logged, ∀ e' ∈ c'.logged, e.1 ≠ e'.1

theorem Records.shrink (h : Records q) (hph : ∀ r op, q'.phase r = .inOp op → q.phase r = .inOp op)
    (hnext : q'.nextop = q.nextop) (hlog : ∀ e ∈ q'.logged, e ∈ q.logged) (hcom : q'.commits = q.commits) :
    Records q' := by
  refine ⟨?_, ?_, ?_, ?_, by rw [hcom]; exact h.apart⟩
  · intro p op hp
    rw [hnext]
    exact h.numbered p op (hph p op hp)
  · intro p r op hp hr
    exact h.distinct p r op (hph p op hp) (hph r op hr)
  · intro e he
    rw [hnext]
    exact h.known e (hlog e he)
  · intro c hc e he
    rw [hcom] at hc
    rw [hnext]
    obtain ⟨hlt, hno, hne⟩ := h.settled c hc e he
    exact ⟨hlt, fun p hp => hno p (hph p _ hp), fun e' he' => hne e' (hlog e' he')⟩

theorem Records.append (h : Records q) (hp : q.phase p = .inOp op) (hph : q'.phase = q.phase)
    (hnext : q'.nextop = q.nextop) (hlog : q'.logged = q.logged ++ [(op, b)]) (hcom : q'.commits = q.commits) :
    Records q' := by
  refine ⟨?_, ?_, ?_, ?_, by rw [hcom]; exact h.apart⟩
  · rw [hph, hnext]
    exact h.numbered
  · rw [hph]
    exact h.distinct
  · intro e he
    rw [hlog, List.mem_append, List.mem_singleton] at he
    rw [hnext]
    obtain he | rfl := he
    · exact h.known e he
    · exact h.numbered p op hp
  · intro c hc e he
    rw [hcom] at hc
    rw [hnext, hph, hlog]
    obtain ⟨hlt, hno, hne⟩ := h.settled c hc e he
    refine ⟨hlt, hno, ?_⟩
    intro e' he'
    rw [List.mem_append, List.mem_singleton] at he'
    obtain he' | rfl := he'
    · exact hne e' he'
    · intro heq
      rw [← heq] at hno
      exact hno p hp

theorem Records.begin_op (h : Records q) (hphase : q'.phase = (q.setPhase p (.inOp q.nextop)).phase)
    (hnext : q'.nextop = q.nextop + 1) (hlog : q'.logged = q.logged) (hcom : q'.commits = q.commits) :
    Records q' := by
  have hold : ∀ r o, q'.phase r = .inOp o → (r = p ∧ o = q.nextop) ∨ q.phase r = .inOp o := by
    intro r o hr
    rw [hphase] at hr
    by_cases hrp : r = p
    · rw [hrp, setPhase_same] at hr
      exact .inl ⟨hrp, (Phase.inOp.inj hr).symm⟩
    · rw [setPhase_other hrp] at hr
      exact .inr hr
  refine ⟨?_, ?_, ?_, ?_, by rw [hcom]; exact h.apart⟩
  · intro r o hr
    obtain ⟨-, rfl⟩ | hr := hold r o hr
    · omega
    · have := h.numbered r o hr
      omega
  · intro r t o hr ht
    obtain ⟨rfl, rfl⟩ | hr := hold r o hr <;> obtain ⟨rfl, ho⟩ | ht := hold t _ ht
    · rfl
    · exact absurd (h.numbered t _ ht) (by omega)
    · rw [ho] at hr
      exact absurd (h.numbered r _ hr) (by omega)
    · exact h.distinct r t o hr ht
  · intro e he
    rw [hlog] at he
    have := h.known e he
    omega
  · intro c hc e he
    rw [hcom] at hc
    rw [hlog]
    obtain ⟨hlt, hno, hne⟩ := h.settled c hc e he
    refine ⟨by omega, ?_, hne⟩
    intro r hr
    obtain ⟨-, ho⟩ | hr := hold r _ hr
    · omega
    · exact hno r hr

theorem Records.leave (h : Records q) (ht : Turns q) (hp : q.phase p = .committing st)
    (hphase : q'.phase = (q.setPhase p .outside).phase) (hnext : q'.nextop = q.nextop)
    (hlog : q'.logged = []) (hcom : q'.commits = ⟨q.logged, q.copied⟩ :: q.commits) : Records q' := by
  have hnone : ∀ r o, q'.phase r ≠ .inOp o := by
    intro r o hr
    rw [hphase] at hr
    by_cases hrp : r = p
    · rw [hrp, setPhase_same] at hr
      cases hr
    · rw [setPhase_other hrp] at hr
      exact ht.not_inOp hp hr
  refine ⟨fun r o hr => absurd hr (hnone r o), fun r _ o hr => absurd hr (hnone r o), by simp [hlog], ?_, ?_⟩
  · intro c hc e he
    rw [hcom, List.mem_cons] at hc
    rw [hnext, hlog]
    refine ⟨?_, fun r => hnone r _, by simp⟩
    obtain rfl | hc := hc
    · exact h.known e he
    · exact (h.settled c hc e he).1
  · rw [hcom, List.pairwise_cons]
    refine ⟨?_, h.apart⟩
    intro c hc e he e' he'
    exact (h.settled c hc e' he').2.2 e he

theorem Records.step (h : Records q) (ht : Turns q) (hstep : Step q l q') : Records q' := by
  have hout : ∀ {p : Nat} {ph : Phase}, (∀ o, ph ≠ .inOp o) →
      ∀ r op, (q.setPhase p ph).phase r = .inOp op → q.phase r = .inOp op := by
    intro p ph hph r op hr
    by_cases hrp : r = p
    · rw [hrp, setPhase_same] at hr
      exact absurd hr (hph op)
    · rwa [setPhase_other hrp] at hr
  cases hstep with
  | quiet => exact h
  | begin_op p hboot hp hc hroom => exact h.begin_op rfl rfl rfl rfl
  | absorb p op b hp hb => exact h.append hp rfl rfl rfl rfl
  | log_write p op b hp hb hn => exact h.append hp rfl rfl rfl rfl
  | end_op p op hp hc ho => exact h.shrink (hout (by simp)) rfl (fun _ => id) rfl
  | end_last p op hp hc ho => exact h.shrink (hout (by simp)) rfl (fun _ => id) rfl
  | stage p st st' hp hn => exact h.shrink (hout (by simp)) rfl (fun _ => id) rfl
  | head p hp => exact h.shrink (hout (by simp)) rfl (fun _ => id) rfl
  | copy p tail hp ht => exact h.shrink (hout (by simp)) rfl (fun _ => id) rfl
  | forget p tail hp ht => exact h.shrink (hout (by simp)) rfl (fun _ => id) rfl
  | leave p hp => exact h.leave ht hp rfl rfl rfl rfl
  | recover b lh hboot hb => exact h.shrink (fun _ _ => id) rfl (fun _ => id) rfl
  | up hboot => exact h.shrink (fun _ _ => id) rfl (fun _ => id) rfl
  | crash log hlog => exact h.shrink (by simp) rfl (by simp) rfl

/-- The blocks of a commit that copied any are those of a durable transaction. -/
def Saved (q : Proto) (copied : List Nat) : Prop := copied = [] ∨ copied ∈ q.durable

def Progress (q : Proto) : Stage → Prop
  | .enter => q.copied = [] ∧ ∀ e ∈ q.logged, e.2 ∈ q.log.lh
  | .write_log tail => q.copied = q.log.lh.take tail ∧ ∀ e ∈ q.logged, e.2 ∈ q.log.lh
  | .write_head => q.copied = q.log.lh ∧ ∀ e ∈ q.logged, e.2 ∈ q.log.lh
  | .install _ => (q.copied = q.log.lh ∧ ∀ e ∈ q.logged, e.2 ∈ q.log.lh) ∧ Saved q q.copied
  | .clear | .leave => (∀ e ∈ q.logged, e.2 ∈ q.copied) ∧ Saved q q.copied

structure Tracked (q : Proto) : Prop where
  idle : (∀ p st, q.phase p ≠ .committing st) → q.copied = [] ∧ ∀ e ∈ q.logged, e.2 ∈ q.log.lh
  busy : ∀ p st, q.phase p = .committing st → Progress q st
  booting : q.boot ≠ none → q.logged = []
  whole : ∀ c ∈ q.commits, (∀ e ∈ c.logged, e.2 ∈ c.copied) ∧ Saved q c.copied

theorem Tracked.whole_congr (h : Tracked q) (hcom : q'.commits = q.commits ∧ q'.durable = q.durable) :
    ∀ c ∈ q'.commits, (∀ e ∈ c.logged, e.2 ∈ c.copied) ∧ Saved q' c.copied := by
  simp only [Saved, hcom.1, hcom.2]
  exact h.whole

theorem Tracked.move (h : Tracked q) (ht : Turns q) (hp : q.phase p = .committing st)
    (hphase : q'.phase = (q.setPhase p (.committing st')).phase) (hboot : q'.boot = q.boot)
    (hcom : q'.commits = q.commits) (hdur : ∀ l ∈ q.durable, l ∈ q'.durable) (hnew : Progress q' st') : Tracked q' := by
  refine ⟨?_, ?_, ?_, fun c hc => (h.whole c (hcom ▸ hc)).imp_right (Or.imp_right (hdur _))⟩
  · intro hno
    exact absurd (by rw [hphase, setPhase_same]) (hno p st')
  · intro r st'' hr
    rw [hphase] at hr
    by_cases hrp : r = p
    · rw [hrp, setPhase_same] at hr
      rw [← Phase.committing.inj hr]
      exact hnew
    · rw [setPhase_other hrp, (ht.alone p st hp).2 r hrp] at hr
      cases hr
  · intro hb
    rw [hboot] at hb
    exact absurd (ht.booting hb p) (by rw [hp]; simp)

theorem Tracked.stage (h : Tracked q) (ht : Turns q) (hp : q.phase p = .committing st)
    (hn : Next q.log.lh.length st st') : Tracked (q.setPhase p (.committing st')) := by
  have hnow := h.busy p st hp
  apply h.move ht hp rfl rfl rfl fun _ => id
  cases hn with
  | enter _ => exact hnow
  | nothing hzero =>
    have hnil : q.log.lh = [] := List.length_eq_zero_iff.mp hzero
    refine ⟨fun e he => ?_, .inl hnow.1⟩
    have := hnow.2 e he
    rw [hnil] at this
    cases this
  | copied tail htail => exact ⟨hnow.1.trans (List.take_of_length_le htail), hnow.2⟩
  | install tail htail => exact hnow
  | clear => exact hnow

theorem Tracked.running (h : Tracked q) (ht : Turns q) (hp : q.phase p = .inOp op) :
    q.copied = [] ∧ ∀ e ∈ q.logged, e.2 ∈ q.log.lh :=
  h.idle fun _ _ => ht.not_committing (ht.committing_false hp)

theorem Tracked.append (h : Tracked q) (ht : Turns q) (hp : q.phase p = .inOp op) (hph : q'.phase = q.phase)
    (hboot : q'.boot = q.boot) (hlog : q'.logged = q.logged ++ [(op, b)]) (hcopied : q'.copied = q.copied)
    (hcom : q'.commits = q.commits ∧ q'.durable = q.durable) (hlh : ∀ x ∈ q.log.lh, x ∈ q'.log.lh)
    (hb : b ∈ q'.log.lh) : Tracked q' := by
  obtain ⟨hnil, hin⟩ := h.running ht hp
  have hnone : ∀ r st, q'.phase r ≠ .committing st := by
    rw [hph]
    exact fun _ _ => ht.not_committing (ht.committing_false hp)
  refine ⟨fun _ => ⟨hcopied.trans hnil, ?_⟩, fun r st hr => absurd hr (hnone r st), ?_, h.whole_congr hcom⟩
  · intro e he
    rw [hlog, List.mem_append, List.mem_singleton] at he
    obtain he | rfl := he
    · exact hlh _ (hin e he)
    · exact hb
  · intro hbt
    rw [hboot] at hbt
    exact absurd (ht.booting hbt p) (by rw [hp]; simp)

theorem Tracked.between (h : Tracked q) (ht : Turns q) (hc : q.log.committing = false)
    (hph : ∀ r st, q'.phase r = .committing st → q.phase r = .committing st) (hboot : q'.boot = q.boot)
    (hlog : q'.logged = q.logged) (hcopied : q'.copied = q.copied)
    (hcom : q'.commits = q.commits ∧ q'.durable = q.durable) (hlh : q'.log.lh = q.log.lh) : Tracked q' := by
  have hidle := h.idle fun _ _ => ht.not_committing hc
  refine ⟨fun _ => ?_, fun r st hr => absurd (hph r st hr) (ht.not_committing hc), ?_,
    h.whole_congr hcom⟩
  · rw [hcopied, hlog, hlh]
    exact hidle
  · rw [hboot, hlog]
    exact h.booting

theorem Tracked.end_last (h : Tracked q) (ht : Turns q) (hp : q.phase p = .inOp op)
    (hphase : q'.phase = (q.setPhase p (.committing .enter)).phase) (hboot : q'.boot = q.boot)
    (hlog : q'.logged = q.logged) (hcopied : q'.copied = q.copied)
    (hcom : q'.commits = q.commits ∧ q'.durable = q.durable) (hlh : q'.log.lh = q.log.lh) : Tracked q' := by
  have hrun := h.running ht hp
  refine ⟨?_, ?_, ?_, h.whole_congr hcom⟩
  · intro hno
    exact absurd (by rw [hphase, setPhase_same]) (hno p .enter)
  · intro r st hr
    rw [hphase] at hr
    by_cases hrp : r = p
    · rw [hrp, setPhase_same] at hr
      rw [← Phase.committing.inj hr, Progress, hcopied, hlog, hlh]
      exact hrun
    · rw [setPhase_other hrp] at hr
      exact absurd hr (ht.not_committing (ht.committing_false hp))
  · intro hb
    rw [hboot] at hb
    exact absurd (ht.booting hb p) (by rw [hp]; simp)

theorem Tracked.leave (h : Tracked q) (ht : Turns q) (hp : q.phase p = .committing .leave)
    (hphase : q'.phase = (q.setPhase p .outside).phase) (hlog : q'.logged = []) (hcopied : q'.copied = [])
    (hcom : q'.commits = ⟨q.logged, q.copied⟩ :: q.commits) (hdur : q'.durable = q.durable) : Tracked q' := by
  refine ⟨fun _ => ⟨hcopied, by simp [hlog]⟩, ?_, fun _ => hlog, ?_⟩
  · intro r st hr
    rw [hphase] at hr
    by_cases hrp : r = p
    · rw [hrp, setPhase_same] at hr
      cases hr
    · rw [setPhase_other hrp, (ht.alone p _ hp).2 r hrp] at hr
      cases hr
  · intro c hc
    rw [hcom, List.mem_cons] at hc
    rw [Saved, hdur]
    obtain rfl | hc := hc
    · exact h.busy p .leave hp
    · exact h.whole c hc

theorem Tracked.step (h : Tracked q) (ht : Turns q) (hstep : Step q l q') : Tracked q' := by
  have hout : ∀ {p : Nat} {ph : Phase}, (∀ st, ph ≠ .committing st) →
      ∀ r st, (q.setPhase p ph).phase r = .committing st → q.phase r = .committing st := by
    intro p ph hph r st hr
    by_cases hrp : r = p
    · rw [hrp, setPhase_same] at hr
      exact absurd hr (hph st)
    · rwa [setPhase_other hrp] at hr
  cases hstep with
  | quiet => exact h
  | begin_op p hboot hp hc hroom => exact h.between ht hc (hout (by simp)) rfl rfl rfl ⟨rfl, rfl⟩ rfl
  | absorb p op b hp hb => exact h.append ht hp rfl rfl rfl rfl ⟨rfl, rfl⟩ (fun _ => id) hb
  | log_write p op b hp hb hn =>
    exact h.append ht hp rfl rfl rfl rfl ⟨rfl, rfl⟩ (fun _ => List.mem_append_left _) (by simp)
  | end_op p op hp hc ho => exact h.between ht hc (hout (by simp)) rfl rfl rfl ⟨rfl, rfl⟩ rfl
  | end_last p op hp hc ho => exact h.end_last ht hp rfl rfl rfl rfl ⟨rfl, rfl⟩ rfl
  | stage p st st' hp hn => exact h.stage ht hp hn
  | head p hp =>
    have hnow := h.busy p _ hp
    refine h.move ht hp rfl rfl rfl (fun _ => List.mem_append_left _) ⟨hnow, .inr ?_⟩
    exact List.mem_append_right _ (List.mem_singleton.mpr hnow.1)
  | copy p tail hp htail =>
    obtain ⟨hcopied, hin⟩ := h.busy p _ hp
    refine h.move ht hp rfl rfl rfl (fun _ => id) ⟨?_, hin⟩
    have hget : q.log.lh.getD tail 0 = q.log.lh[tail] := by simp [htail]
    simp only [setPhase, hcopied, hget, List.take_add_one, List.getElem?_eq_getElem htail, Option.toList_some]
  | forget p tail hp htail =>
    obtain ⟨⟨hcopied, hin⟩, hsaved⟩ := h.busy p _ hp
    exact h.move ht hp rfl rfl rfl (fun _ => id) ⟨fun e he => hcopied ▸ hin e he, hsaved⟩
  | leave p hp => exact h.leave ht hp rfl rfl rfl rfl rfl
  | recover b lh hboot hb =>
    have hnil := h.booting hboot
    have hnone : ∀ p st, q.phase p ≠ .committing st := fun p st hp => by
      rw [ht.booting hboot p] at hp
      cases hp
    exact ⟨fun _ => ⟨(h.idle hnone).1, by simp [hnil]⟩, fun p st hp => absurd hp (hnone p st), fun _ => hnil, h.whole⟩
  | up hboot => exact ⟨h.idle, h.busy, fun hb => absurd rfl hb, h.whole⟩
  | crash log hlog => exact ⟨fun _ => ⟨rfl, (by simp)⟩, (by simp), fun _ => rfl, h.whole⟩

end Proto

/-! ## The panics of the log -/

section panics
variable {s : Store} {y : Sys} {msg : String} {i p : Nat}

theorem lift_error {α : Type} {x : F α} : lift x y = .error msg ↔ x y.fs = .error msg := by
  unfold lift
  cases x y.fs with
  | error e => simp
  | ok r => simp

theorem require_error {c : Sys → Bool} : require c y = .error msg ↔ c y = false ∧ "not now" = msg := by
  unfold require
  split <;> simp_all

theorem log_write_error : log_write i s = .error msg ↔
    (LOGBLOCKS ≤ s.log.lh.length ∧ "too big a transaction" = msg) ∨
    (s.log.lh.length < LOGBLOCKS ∧ s.log.outstanding < 1 ∧ "log_write outside of trans" = msg) := by
  unfold log_write getLog setLog bpin panic
  simp only [bind_error, gets_error, false_or, gets_ok, id]
  constructor
  · rintro ⟨_, t, ⟨rfl, rfl⟩, _, t, ⟨rfl, rfl⟩, h⟩
    split at h
    · exact .inl ⟨‹_›, stop_error.mp h⟩
    · split at h
      · exact .inr ⟨by omega, ‹_›, stop_error.mp h⟩
      · split at h <;> simp [bind_error, update_error, pure_error] at h
  · rintro (⟨hn, hmsg⟩ | ⟨hn, ho, hmsg⟩)
    · exact ⟨_, s, ⟨rfl, rfl⟩, s, s, ⟨rfl, rfl⟩, by rw [if_pos hn]; exact stop_error.mpr hmsg⟩
    · refine ⟨_, s, ⟨rfl, rfl⟩, s, s, ⟨rfl, rfl⟩, ?_⟩
      rw [if_neg (by omega), if_pos ho]
      exact stop_error.mpr hmsg

theorem end_op_first_error (h : end_op_first s = .error msg) :
    s.log.committing = true ∧ "log.committing" = msg := by
  unfold end_op_first getLog setLog panic at h
  simp only [bind_error, gets_error, update_error, false_or, gets_ok, update_ok] at h
  obtain ⟨_, t, rfl, _, _, ⟨rfl, rfl⟩, h⟩ := h
  split at h
  · exact ⟨‹_›, stop_error.mp h⟩
  · split at h <;> simp only [bind_error, update_error, pure_error, and_false, exists_false, or_false] at h

/-- The two panics that guard the order of operations and commits. -/
def LogPanic (msg : String) : Prop := msg = "log.committing" ∨ msg = "log_write outside of trans"

theorem LogPanic.ne (h : LogPanic msg) {m : String} (h₁ : m ≠ "log.committing")
    (h₂ : m ≠ "log_write outside of trans") : m ≠ msg := by
  obtain rfl | rfl := h
  · exact h₁
  · exact h₂

theorem copy_data_avoids (i j : Nat) : Avoids msg (copy_data i j) := .bind (.gets _) fun _ => .update _

theorem lift_avoids {α : Type} {x : F α} (hx : Avoids msg x) : Avoids msg (lift x) :=
  fun y hy => hx y.fs (lift_error.mp hy)

theorem begin_op_round_avoids : Avoids msg begin_op_round :=
  .bind (.gets _) fun _ => .ite (.pure _) (.ite (.pure _) (.bind (.update _) fun _ => .pure _))

section buffers
variable (h : LogPanic msg) (dev b : Nat)
include h

theorem bget_ref_avoids : Avoids msg (bget_ref dev b) := by
  unfold bget_ref
  refine .bind (.gets _) fun s => ?_
  split
  · exact .bind (.update _) fun _ => .pure _
  · split
    · exact .bind (.update _) fun _ => .pure _
    · exact .stop (h.ne (by decide) (by decide))

theorem acquiresleep_avoids (p i : Nat) : Avoids msg (acquiresleep p i) :=
  .bind (.gets _) fun _ => .ite (.update _) (.stop (h.ne (by decide) (by decide)))

theorem bread_avoids (p : Nat) : Avoids msg (bread p dev b) := by
  unfold bread bget
  refine .bind (.bind (bget_ref_avoids h dev b) fun i => ?_) fun i => .bind (.update _) fun _ => .pure _
  exact .bind (acquiresleep_avoids h p i) fun _ => .pure _

theorem bwrite_avoids (p i : Nat) : Avoids msg (bwrite p i) :=
  .bind (.gets _) fun _ => .ite (.update _) (.stop (h.ne (by decide) (by decide)))

theorem brelse_avoids (p i : Nat) : Avoids msg (brelse p i) := by
  unfold brelse
  refine .bind (.gets _) fun _ => .ite (.bind (.update _) fun _ => .bind (.gets _) fun _ => ?_)
    (.stop (h.ne (by decide) (by decide)))
  exact .ite (.update _) (.pure _)

theorem write_head_avoids (p : Nat) : Avoids msg (write_head p) :=
  .bind (.gets _) fun _ => .bind (bread_avoids h _ _ p) fun b => .bind (.gets _) fun _ =>
    .bind (.update _) fun _ => .bind (bwrite_avoids h p b) fun _ => brelse_avoids h p b

theorem read_head_avoids (p : Nat) : Avoids msg (read_head p) :=
  .bind (.gets _) fun _ => .bind (bread_avoids h _ _ p) fun b => .bind (.gets _) fun _ =>
    .bind (.update _) fun _ => brelse_avoids h p b

theorem write_log_body_avoids (p tail : Nat) : Avoids msg (write_log_body p tail) :=
  .bind (.gets _) fun _ => .bind (bread_avoids h _ _ p) fun dst => .bind (bread_avoids h _ _ p) fun src =>
    .bind (copy_data_avoids dst src) fun _ => .bind (bwrite_avoids h p dst) fun _ =>
    .bind (brelse_avoids h p src) fun _ => brelse_avoids h p dst

theorem install_trans_body_avoids (p : Nat) (recovering : Bool) (tail : Nat) :
    Avoids msg (install_trans_body p recovering tail) := by
  refine .bind (.gets _) fun _ => .bind (bread_avoids h _ _ p) fun lbuf => .bind (bread_avoids h _ _ p) fun dbuf => ?_
  refine .bind (copy_data_avoids dbuf lbuf) fun _ => .bind (bwrite_avoids h p dbuf) fun _ => ?_
  have hrel : Avoids msg (do brelse p lbuf; brelse p dbuf) :=
    .bind (brelse_avoids h p lbuf) fun _ => brelse_avoids h p dbuf
  exact .ite hrel (.bind (.update _) fun _ => hrel)

theorem require_avoids (c : Sys → Bool) : Avoids msg (require c) :=
  fun _ hy => h.ne (by decide) (by decide) (require_error.mp hy).2

theorem commit_step_avoids (p : Nat) (st : Stage) : Avoids msg (commit_step p st) := by
  cases st with
  | enter => exact .bind (.gets _) fun _ => .ite (.update _) (.update _)
  | write_log tail =>
    refine .bind (.gets _) fun _ => .ite ?_ (.update _)
    exact .bind (lift_avoids (write_log_body_avoids h p tail)) fun _ => .bind (.update _) fun _ =>
      .bind (.update _) fun _ => .update _
  | write_head =>
    exact .bind (.gets _) fun _ => .bind (lift_avoids (write_head_avoids h p)) fun _ =>
      .bind (.update _) fun _ => .bind (.update _) fun _ => .update _
  | install tail =>
    refine .bind (.gets _) fun _ => .ite ?_ ?_
    · exact .bind (lift_avoids (install_trans_body_avoids h p false tail)) fun _ => .update _
    · exact .bind (lift_avoids (.update _)) fun _ => .update _
  | clear =>
    exact .bind (.gets _) fun _ => .bind (lift_avoids (write_head_avoids h p)) fun _ =>
      .bind (.update _) fun _ => .update _
  | leave => exact .bind (lift_avoids (.update _)) fun _ => .bind (.update _) fun _ => .update _

theorem recover_step_avoids (p : Nat) (st : Boot) : Avoids msg (recover_step p st) := by
  cases st with
  | read_head => exact .bind (lift_avoids (read_head_avoids h p)) fun _ => .update _
  | install tail =>
    refine .bind (.gets _) fun _ => .ite ?_ ?_
    · exact .bind (lift_avoids (install_trans_body_avoids h p true tail)) fun _ => .bind (.update _) fun _ =>
        .update _
    · exact .bind (lift_avoids (.update _)) fun _ => .update _
  | clear =>
    exact .bind (.gets _) fun _ => .bind (lift_avoids (write_head_avoids h p)) fun _ =>
      .bind (.update _) fun _ => .update _

end buffers

theorem Proto.Turns.outstanding_pos (ht : y.proto.Turns) {op : Nat} (hp : y.phase p = .inOp op) :
    1 ≤ y.fs.log.outstanding := by
  obtain ⟨F, hF, hcard⟩ := ht.counted
  have hpos : 0 < F.card := Finset.card_pos.mpr ⟨p, (hF p).mpr ⟨op, hp⟩⟩
  have hout : y.fs.log.outstanding = F.card := hcard
  omega

theorem perform_no_panic (ht : y.proto.Turns) (hmsg : LogPanic msg) (a : Action) : perform a y ≠ .error msg := by
  intro h
  cases a with
  | begin_op p =>
    refine Avoids.bind (require_avoids hmsg _) (fun _ => ?_) y h
    exact .bind (lift_avoids begin_op_round_avoids) fun _ => .ite (.update _) (.pure _)
  | log_write p i =>
    simp only [perform, bind_error, require_ok, gets_ok, gets_error, false_or, id] at h
    obtain h | ⟨_, _, ⟨hguard, rfl⟩, _, t, ⟨rfl, rfl⟩, h⟩ := h
    · exact require_avoids hmsg _ _ h
    · cases hp : t.phase p with
      | inOp op =>
        simp only [hp, bind_error, lift_error, setChanged, update_error, and_false, exists_false, or_false] at h
        obtain ⟨-, hbig⟩ | ⟨-, ho, -⟩ := log_write_error.mp h
        · exact hmsg.ne (by decide) (by decide) hbig
        · have := ht.outstanding_pos hp
          omega
      | outside => simp only [hp] at h; exact require_avoids hmsg _ _ h
      | committing st => simp only [hp] at h; exact require_avoids hmsg _ _ h
  | end_op p =>
    simp only [perform, bind_error, gets_ok, gets_error, false_or, id] at h
    obtain ⟨_, t, ⟨rfl, rfl⟩, h⟩ := h
    cases hp : t.phase p with
    | inOp op =>
      simp only [hp, bind_error, lift_error, setPhase, update_error, and_false, exists_false, or_false] at h
      have hc : t.fs.log.committing = false := ht.committing_false (p := p) hp
      exact absurd (hc.symm.trans (end_op_first_error h).1) (by simp)
    | outside => simp only [hp] at h; exact require_avoids hmsg _ _ h
    | committing st => simp only [hp] at h; exact require_avoids hmsg _ _ h
  | commit p =>
    refine Avoids.bind (.gets _) (fun t => ?_) y h
    split
    · exact commit_step_avoids hmsg p _
    · exact require_avoids hmsg _
  | bget p b =>
    refine Avoids.bind (require_avoids hmsg _) (fun _ => ?_) y h
    exact .bind (lift_avoids (bget_ref_avoids hmsg _ _)) fun _ => .update _
  | lock p i =>
    refine Avoids.bind (require_avoids hmsg _) (fun _ => ?_) y h
    exact .bind (lift_avoids (acquiresleep_avoids hmsg p i)) fun _ => .bind (lift_avoids (.update _))
      fun _ => .update _
  | change p i d =>
    refine Avoids.bind (require_avoids hmsg _) (fun _ => ?_) y h
    exact .bind (lift_avoids (.update _)) fun _ => .update _
  | bwrite p i =>
    refine Avoids.bind (require_avoids hmsg _) (fun _ => ?_) y h
    exact .bind (lift_avoids (bwrite_avoids hmsg p i)) fun _ => .update _
  | brelse p i =>
    refine Avoids.bind (require_avoids hmsg _) (fun _ => ?_) y h
    exact .bind (.gets _) fun _ => .bind (.update _) fun _ => lift_avoids (brelse_avoids hmsg p i)
  | bpin p i =>
    refine Avoids.bind (require_avoids hmsg _) (fun _ => ?_) y h
    exact .bind (lift_avoids (.update _)) fun _ => .update _
  | bunpin i =>
    refine Avoids.bind (require_avoids hmsg _) (fun _ => ?_) y h
    exact .bind (lift_avoids (.update _)) fun _ => .update _
  | recover =>
    refine Avoids.bind (.gets _) (fun t => ?_) y h
    split
    · exact recover_step_avoids hmsg 1 _
    · exact require_avoids hmsg _
  | crash =>
    rw [perform, update_error] at h
    exact h

end panics

/-! ## Every interleaving -/

section runs
variable {y y' : Sys} {disk : Nat → Data} {start : Nat} {C : Action → Sys → Prop}

theorem reach_turns (h : Path perform C (bootSys disk start) y) : y.proto.Turns := by
  induction h with
  | refl => exact ⟨⟨∅, by simp [Sys.proto, bootSys], rfl⟩, (by intros; contradiction), (by rintro ⟨⟩), fun _ _ => rfl⟩
  | step _ _ hrun ih => exact ih.step (perform_proto hrun)

theorem reach_records (h : Path perform C (bootSys disk start) y) : y.proto.Records := by
  induction h with
  | refl => exact ⟨(by intros; contradiction), (by intros; contradiction), (by intros; contradiction),
    (by intros; contradiction), List.Pairwise.nil⟩
  | step hpath _ hrun ih => exact ih.step (reach_turns hpath) (perform_proto hrun)

theorem reach_tracked (h : Path perform C (bootSys disk start) y) : y.proto.Tracked := by
  induction h with
  | refl => exact ⟨fun _ => ⟨rfl, (by intros; contradiction)⟩, (by intros; contradiction), fun _ => rfl,
    (by intros; contradiction)⟩
  | step hpath _ hrun ih => exact ih.step (reach_turns hpath) (perform_proto hrun)

def blocksOf (op : Nat) (logged : List (Nat × Nat)) : List Nat :=
  (logged.filter fun e => e.1 = op).map Prod.snd

theorem mem_blocksOf {op b : Nat} {logged : List (Nat × Nat)} : b ∈ blocksOf op logged ↔ (op, b) ∈ logged := by
  simp [blocksOf]

/-- In every interleaving: a commit runs only while no operation does, `begin_op` does not return
during a commit, there is one commit at a time, the two panics do not happen, and the blocks of an
operation are all copied by the same commit, to a transaction that is then durable. -/
theorem commits_whole_operations (h : Path perform (fun _ _ => True) (bootSys disk start) y) :
    (∀ p st, y.phase p = .committing st → ∀ q op, y.phase q ≠ .inOp op) ∧
    (∀ p st q y', y.phase p = .committing st → perform (.begin_op q) y = .ok ((), y') → ∀ op, y'.phase q ≠ .inOp op) ∧
    (∀ p q st st', y.phase p = .committing st → y.phase q = .committing st' → p = q) ∧
    (∀ a, perform a y ≠ .error "log.committing" ∧ perform a y ≠ .error "log_write outside of trans") ∧
    (∀ c ∈ y.commits, ∀ op, blocksOf op c.logged ⊆ c.copied) ∧
    (∀ op, y.commits.Pairwise fun c c' => blocksOf op c.logged = [] ∨ blocksOf op c'.logged = []) ∧
    (∀ c ∈ y.commits, ∀ op, blocksOf op c.logged ≠ [] → blocksOf op y.logged = [] ∧ ∀ p, y.phase p ≠ .inOp op) ∧
    (∀ c ∈ y.commits, c.copied = [] ∨ c.copied ∈ y.durable.map (·.map Prod.fst)) := by
  have ht := reach_turns h
  have hr := reach_records h
  have hnil : ∀ {op : Nat} {l : List (Nat × Nat)}, (∀ e ∈ l, e.1 ≠ op) → blocksOf op l = [] := by
    intro op l hl
    rw [List.eq_nil_iff_forall_not_mem]
    intro b hb
    exact hl _ (mem_blocksOf.mp hb) rfl
  refine ⟨?_, ?_, ?_, ?_, ?_, ?_, ?_, fun c hc => ((reach_tracked h).whole c hc).2⟩
  · intro p st hp q op
    exact ht.not_inOp hp
  · intro p st q y' hp hrun op hq
    simp only [perform, bind_ok, require_ok, lift_ok] at hrun
    obtain ⟨_, _, ⟨hguard, rfl⟩, r, t, ⟨s, hround, rfl⟩, hrun⟩ := hrun
    obtain ⟨rfl, rfl⟩ | ⟨-, hc, -⟩ := begin_op_round_ok hround
    · simp only [Bool.false_eq_true, if_false, pure_ok, true_and] at hrun
      rw [hrun] at hq
      exact ht.not_inOp hp hq
    · exact absurd hp (ht.not_committing hc)
  · intro p q st st' hp hq
    by_contra hne
    have := (ht.alone p st hp).2 q (Ne.symm hne)
    exact absurd (hq.symm.trans this) (by simp)
  · intro a
    exact ⟨perform_no_panic ht (.inl rfl) a, perform_no_panic ht (.inr rfl) a⟩
  · intro c hc op b hb
    exact ((reach_tracked h).whole c hc).1 _ (mem_blocksOf.mp hb)
  · intro op
    refine hr.apart.imp ?_
    intro c c' hcc
    by_cases hb : blocksOf op c.logged = []
    · exact .inl hb
    · right
      obtain ⟨b, hb⟩ := List.exists_mem_of_ne_nil _ hb
      exact hnil fun e he => (hcc _ (mem_blocksOf.mp hb) e he).symm
  · intro c hc op hne
    obtain ⟨b, hb⟩ := List.exists_mem_of_ne_nil _ hne
    obtain ⟨-, hno, hother⟩ := hr.settled c hc _ (mem_blocksOf.mp hb)
    exact ⟨hnil hother, hno⟩

def oneOperation : List Action :=
  List.replicate 3 .recover ++ [.begin_op 1, .bget 1 50, .lock 1 1, .log_write 1 1, .brelse 1 1, .end_op 1] ++
    List.replicate 8 (.commit 1)

/-- Processes 1 and 2 each log two blocks, in turn, and process 1 ends first. -/
def twoOperations : List Action :=
  List.replicate 3 .recover ++ [.begin_op 1, .begin_op 2] ++
    [(1, 50, 1), (2, 60, 2), (1, 51, 3), (2, 61, 4)].flatMap (fun e =>
      [.bget e.1 e.2.1, .lock e.1 e.2.2, .log_write e.1 e.2.2, .brelse e.1 e.2.2]) ++ [.end_op 1, .end_op 2] ++ List.replicate 14 (.commit 2)

theorem commits_whole_operations_two : ∃ y, Path perform (fun _ _ => True) (bootSys (fun _ _ => 0) 2) y ∧
    y.commits.map Commit.copied = [[50, 60, 51, 61]] ∧ y.commits.map (fun c => blocksOf 0 c.logged) = [[50, 51]] ∧
    (∀ c ∈ y.commits, ∀ op, blocksOf op c.logged ⊆ c.copied) := by
  obtain ⟨y, hpath, hy⟩ := Path.exists_of_follow perform (C := fun _ _ => True) twoOperations
    (bootSys (fun _ _ => 0) 2) (fun y => decide (y.commits.map Commit.copied = [[50, 60, 51, 61]] ∧
      y.commits.map (fun c => blocksOf 0 c.logged) = [[50, 51]])) (by decide +kernel)
  obtain ⟨hcopied, hlogged⟩ := of_decide_eq_true hy
  exact ⟨y, hpath, hcopied, hlogged, (commits_whole_operations hpath).2.2.2.2.1⟩

/-! ## Room in the log -/

namespace Proto

variable {q q' : Proto} {p r op b : Nat} {ph : Phase} {l : Option (Nat × Nat)}

def spent (q : Proto) (op : Nat) : Finset Nat := (blocksOf op q.logged).toFinset

def budget (q : Proto) (p : Nat) : Nat :=
  match q.phase p with
  | .inOp op => MAXOPBLOCKS - (q.spent op).card
  | _ => 0

def Reserved (q : Proto) : Prop :=
  q.boot = none → ∀ F : Finset Nat, (∀ p, p ∈ F ↔ ∃ op, q.phase p = .inOp op) →
    q.log.lh.length + ∑ p ∈ F, q.budget p ≤ LOGBLOCKS

theorem budget_le (q : Proto) (p : Nat) : q.budget p ≤ MAXOPBLOCKS := by
  unfold budget
  split
  · exact Nat.sub_le ..
  · exact Nat.zero_le _

theorem budget_congr (hph : q'.phase p = q.phase p) (hlog : q'.logged = q.logged) : q'.budget p = q.budget p := by
  simp only [budget, spent, hph, hlog]

theorem mem_spent : b ∈ q.spent op ↔ (op, b) ∈ q.logged := by
  simp [spent, mem_blocksOf]

theorem spent_append (hlog : q'.logged = q.logged ++ [(op, b)]) : q'.spent op = insert b (q.spent op) := by
  ext x
  simp only [mem_spent, hlog, List.mem_append, List.mem_singleton, Prod.mk.injEq, true_and, Finset.mem_insert]
  tauto

theorem spent_append_other (hlog : q'.logged = q.logged ++ [(op, b)]) (hne : r ≠ op) : q'.spent r = q.spent r := by
  ext x
  simp [mem_spent, hlog, hne]

theorem Reserved.of_none (hno : ∀ p op, q.phase p ≠ .inOp op) (hlen : q.log.lh.length ≤ LOGBLOCKS) : Reserved q := by
  intro _ F hF
  have hempty : F = ∅ := by
    rw [Finset.eq_empty_iff_forall_notMem]
    intro p hp
    obtain ⟨op, hop⟩ := (hF p).mp hp
    exact hno p op hop
  simpa [hempty] using hlen

theorem Reserved.length_le (h : Reserved q) (ht : Turns q) (hboot : q.boot = none) : q.log.lh.length ≤ LOGBLOCKS := by
  obtain ⟨F, hF, -⟩ := ht.counted
  exact le_trans (Nat.le_add_right _ _) (h hboot F hF)

theorem Reserved.append (h : Reserved q) (hr : Records q) (hp : q.phase p = .inOp op)
    (hph : q'.phase = q.phase) (hboot : q'.boot = q.boot) (hlog : q'.logged = q.logged ++ [(op, b)])
    (hlh : q'.log.lh.length + q'.budget p ≤ q.log.lh.length + q.budget p) : Reserved q' := by
  intro hb F hF
  rw [hboot] at hb
  rw [hph] at hF
  have hpF : p ∈ F := (hF p).mpr ⟨op, hp⟩
  have hold := h hb F hF
  have hrest : ∑ r ∈ F.erase p, q'.budget r = ∑ r ∈ F.erase p, q.budget r := by
    apply Finset.sum_congr rfl
    intro r hrF
    rw [Finset.mem_erase, hF] at hrF
    obtain ⟨hne, o, ho⟩ := hrF
    have hop : o ≠ op := by
      rintro rfl
      exact hne (hr.distinct r p o ho hp)
    simp only [budget, hph, ho, spent_append_other hlog hop]
  rw [← Finset.add_sum_erase _ _ hpF] at hold ⊢
  rw [hrest]
  omega

theorem Reserved.begin_op (ht : Turns q) (hp : q.phase p = .outside)
    (hroom : (q.log.lh.length : Int) + (q.log.outstanding + 1) * MAXOPBLOCKS ≤ LOGBLOCKS)
    (hphase : q'.phase = (q.setPhase p (.inOp q.nextop)).phase) (hlh : q'.log.lh = q.log.lh) : Reserved q' := by
  intro _ F' hF'
  obtain ⟨F, hF, hcard⟩ := ht.counted
  have hF'eq : F' = insert p F := by
    ext r
    rw [hF', Finset.mem_insert, hF, hphase]
    by_cases hr : r = p
    · simp [hr, setPhase_same]
    · simp [hr, setPhase_other hr]
  have hpF : p ∉ F := by simp [hF, hp]
  have hsum : ∑ r ∈ F', q'.budget r ≤ ∑ _r ∈ F', MAXOPBLOCKS := Finset.sum_le_sum fun r _ => q'.budget_le r
  rw [Finset.sum_const, smul_eq_mul, hF'eq, Finset.card_insert_of_notMem hpF] at hsum
  rw [hlh, hF'eq]
  rw [hcard] at hroom
  simp only [MAXOPBLOCKS, LOGBLOCKS] at *
  omega

theorem Reserved.end_op (h : Reserved q) (hp : q.phase p = .inOp op)
    (hphase : q'.phase = (q.setPhase p ph).phase) (hph : ∀ o, ph ≠ .inOp o) (hboot : q'.boot = q.boot) (hlog : q'.logged = q.logged)
    (hlh : q'.log.lh = q.log.lh) : Reserved q' := by
  intro hb F' hF'
  rw [hboot] at hb
  have hpF' : p ∉ F' := by
    rw [hF', hphase, setPhase_same]
    rintro ⟨o, ho⟩
    exact hph o ho
  have hold := h hb (insert p F') ?_
  · rw [Finset.sum_insert hpF'] at hold
    have hsum : ∑ r ∈ F', q'.budget r = ∑ r ∈ F', q.budget r := by
      apply Finset.sum_congr rfl
      intro r hr
      have hne : r ≠ p := by
        rintro rfl
        exact hpF' hr
      exact budget_congr (by rw [hphase, setPhase_other hne]) hlog
    rw [hlh, hsum]
    omega
  · intro r
    rw [Finset.mem_insert, hF', hphase]
    by_cases hr : r = p
    · simp [hr, hp]
    · simp [hr, setPhase_other hr]

theorem Reserved.absorb (h : Reserved q) (hr : Records q) (hp : q.phase p = .inOp op) :
    Reserved { q with logged := q.logged ++ [(op, b)] } := by
  refine h.append hr hp rfl rfl rfl ?_
  have hle : (q.spent op).card ≤ (insert b (q.spent op)).card := Finset.card_le_card (Finset.subset_insert _ _)
  have hspent : Proto.spent { q with logged := q.logged ++ [(op, b)] } op = insert b (q.spent op) := spent_append rfl
  simp only [budget, hp, hspent]
  omega

theorem Reserved.log_write (h : Reserved q) (hr : Records q) (hp : q.phase p = .inOp op)
    (hnew : b ∉ q.spent op) (hcard : (insert b (q.spent op)).card ≤ MAXOPBLOCKS) :
    Reserved { q with log := { q.log with lh := q.log.lh ++ [b] }, logged := q.logged ++ [(op, b)] } := by
  refine h.append hr hp rfl rfl rfl ?_
  rw [Finset.card_insert_of_notMem hnew] at hcard
  have hspent : Proto.spent { q with log := { q.log with lh := q.log.lh ++ [b] }, logged := q.logged ++ [(op, b)] } op =
      insert b (q.spent op) := spent_append rfl
  simp only [budget, hp, hspent, Finset.card_insert_of_notMem hnew, List.length_append, List.length_singleton]
  omega

theorem Reserved.committing (h : Reserved q) (ht : Turns q) (hp : q.phase p = .committing st)
    (hphase : q'.phase = (q.setPhase p ph).phase) (hph : ∀ o, ph ≠ .inOp o)
    (hlh : q'.log.lh.length ≤ q.log.lh.length) : Reserved q' := by
  have hboot : q.boot = none := ht.boot_none (by rw [hp]; simp)
  refine .of_none ?_ (hlh.trans (h.length_le ht hboot))
  intro r o hr
  rw [hphase] at hr
  by_cases hrp : r = p
  · rw [hrp, setPhase_same] at hr
    exact hph o hr
  · rw [setPhase_other hrp] at hr
    exact ht.not_inOp hp hr

theorem Reserved.step (h : Reserved q) (ht : Turns q) (hr : Records q) (hk : Tracked q)
    (hbt : q.boot = some .clear → q.log.lh = [])
    (hw : ∀ p b, l = some (p, b) → ∀ op, q.phase p = .inOp op → (insert b (q.spent op)).card ≤ MAXOPBLOCKS)
    (hstep : Step q l q') : Reserved q' := by
  cases hstep with
  | quiet => exact h
  | begin_op p hboot hp hc hroom => exact .begin_op ht hp hroom rfl rfl
  | absorb p op b hp hb => exact h.absorb hr hp
  | log_write p op b hp hb hn =>
    apply h.log_write hr hp _ (hw p b rfl op hp)
    intro hspent
    exact hb ((hk.running ht hp).2 _ (mem_spent.mp hspent))
  | end_op p op hp hc ho => exact h.end_op hp rfl (by simp) rfl rfl rfl
  | end_last p op hp hc ho => exact h.end_op hp rfl (by simp) rfl rfl rfl
  | stage p st st' hp hn => exact h.committing ht hp rfl (by simp) le_rfl
  | head p hp => exact h.committing ht hp rfl (by simp) le_rfl
  | copy p tail hp htail => exact h.committing ht hp rfl (by simp) le_rfl
  | forget p tail hp htail => exact h.committing ht hp rfl (by simp) (Nat.zero_le _)
  | leave p hp => exact h.committing ht hp rfl (by simp) le_rfl
  | recover b lh hboot hb => simp [Reserved]
  | up hboot =>
    refine .of_none ?_ (by rw [hbt hboot]; exact Nat.zero_le _)
    intro r o hr'
    have hout : q.phase r = .outside := ht.booting (by rw [hboot]; simp) r
    exact absurd (hout.symm.trans hr') (by simp)
  | crash log hlog => simp [Reserved]

theorem clear_empty_step (h : q.boot = some .clear → q.log.lh = []) (ht : Turns q) (hstep : Step q l q') :
    q'.boot = some .clear → q'.log.lh = [] := by
  have hbusy : ∀ {p : Nat}, q.phase p ≠ .outside → q.boot ≠ some .clear := by
    intro p hp hb
    rw [ht.boot_none hp] at hb
    cases hb
  cases hstep with
  | quiet => exact h
  | begin_op p hboot hp hc hroom => exact fun hb => absurd (hboot.symm.trans hb) (by simp)
  | absorb p op b hp hb => exact h
  | log_write p op b hp hb hn => exact fun hb' => absurd hb' (hbusy (p := p) (by rw [hp]; simp))
  | end_op p op hp hc ho => exact h
  | end_last p op hp hc ho => exact h
  | stage p st st' hp hn => exact h
  | head p hp => exact h
  | copy p tail hp htail => exact h
  | forget p tail hp htail => exact fun _ => rfl
  | leave p hp => exact h
  | recover b lh hboot hb => exact fun hb' => hb (Option.some.inj hb')
  | up hboot => simp
  | crash log hlog => simp

end Proto

/-- An operation logs at most `MAXOPBLOCKS` blocks. -/
def Within (a : Action) (y : Sys) : Prop :=
  match a with
  | .log_write p i => ∀ op, y.phase p = .inOp op →
      (insert (y.fs.buf i).blockno (y.proto.spent op)).card ≤ MAXOPBLOCKS
  | _ => True

instance : ∀ a y, Decidable (Within a y)
  | .log_write p i, y =>
    match h : y.phase p with
    | .inOp op =>
      decidable_of_iff ((insert (y.fs.buf i).blockno (y.proto.spent op)).card ≤ MAXOPBLOCKS) (by simp [Within, h])
    | .outside => .isTrue (by simp [Within, h])
    | .committing st => .isTrue (by simp [Within, h])
  | .begin_op _, _ | .end_op _, _ | .commit _, _ | .bget _ _, _ | .lock _ _, _ | .change _ _ _, _ | .bwrite _ _, _
  | .brelse _ _, _ | .bpin _ _, _ | .bunpin _, _ | .recover, _ | .crash, _ => .isTrue trivial

theorem reach_clear_empty (h : Path perform C (bootSys disk start) y) :
    y.boot = some .clear → y.fs.log.lh = [] := by
  induction h with
  | refl => simp [bootSys]
  | step hpath _ hrun ih => exact Proto.clear_empty_step ih (reach_turns hpath) (perform_proto hrun)

theorem reach_reserved (h : Path perform Within (bootSys disk start) y) : y.proto.Reserved := by
  induction h with
  | refl => simp [Proto.Reserved, Sys.proto, bootSys]
  | @step t t' a hpath hw hrun ih =>
    refine ih.step (reach_turns hpath) (reach_records hpath) (reach_tracked hpath) (reach_clear_empty hpath) ?_
      (perform_proto hrun)
    intro p b hl op hp
    cases a <;> simp only [Action.logs, reduceCtorEq] at hl
    cases hl
    exact hw op hp

/-- If each operation logs at most `MAXOPBLOCKS` blocks, `log.lh.n` stays within `LOGBLOCKS`, and a `log_write` panics with
"too big a transaction" exactly when the log is full. The block is then in the log already. -/
theorem log_write_panics_iff_full (h : Path perform Within (bootSys disk start) y) (hup : y.boot = none) :
    y.fs.log.lh.length ≤ LOGBLOCKS ∧
    ∀ p i op, y.holds p i = true → y.phase p = .inOp op → Within (.log_write p i) y →
      ((perform (.log_write p i) y ≠ .error "too big a transaction" ↔ y.fs.log.lh.length < LOGBLOCKS) ∧
        (¬ y.fs.log.lh.length < LOGBLOCKS → (y.fs.buf i).blockno ∈ y.fs.log.lh)) := by
  have ht := reach_turns h
  have hr := reach_reserved h
  have hle : y.fs.log.lh.length ≤ LOGBLOCKS := hr.length_le ht hup
  refine ⟨hle, ?_⟩
  intro p i op hhold hp hw
  constructor
  · rw [← not_iff_not, not_not]
    have herr : perform (.log_write p i) y = .error "too big a transaction" ↔
        log_write i y.fs = .error "too big a transaction" := by
      simp only [perform, bind_error, require_error, require_ok, hhold, gets_ok, gets_error, false_or, id,
        reduceCtorEq, false_and, true_and]
      constructor
      · rintro ⟨_, t, rfl, _, t, ⟨rfl, rfl⟩, herr⟩
        simpa only [hp, bind_error, lift_error, setChanged, update_error, and_false, exists_false, or_false]
          using herr
      · intro herr
        refine ⟨(), y, rfl, y, y, ⟨rfl, rfl⟩, ?_⟩
        simp only [hp, bind_error, lift_error]
        exact .inl herr
    rw [herr, log_write_error]
    simp
  · intro hfull
    by_contra hb
    have hspent : (y.fs.buf i).blockno ∉ y.proto.spent op := fun hmem =>
      hb ((reach_tracked h).running ht hp |>.2 _ (Proto.mem_spent.mp hmem))
    have hcard := hw op hp
    rw [Finset.card_insert_of_notMem hspent] at hcard
    obtain ⟨F, hF, -⟩ := ht.counted
    have hroom := hr hup F hF
    have hpF : p ∈ F := (hF p).mpr ⟨op, hp⟩
    have hone : y.proto.budget p ≤ ∑ r ∈ F, y.proto.budget r := Finset.single_le_sum (fun _ _ => Nat.zero_le _) hpF
    have hbudget : y.proto.budget p = MAXOPBLOCKS - (y.proto.spent op).card := by
      have hph : y.proto.phase p = .inOp op := hp
      simp only [Proto.budget, hph]
    have hlen : y.proto.log.lh.length = y.fs.log.lh.length := rfl
    omega

def fullLog : List Action :=
  List.replicate 3 .recover ++ [.begin_op 1, .begin_op 2, .begin_op 3] ++
    (List.range 30).flatMap (fun k =>
      [.bget (k / 10 + 1) (100 + k), .lock (k / 10 + 1) ((k + 1) % 30), .log_write (k / 10 + 1) ((k + 1) % 30),
        .brelse (k / 10 + 1) ((k + 1) % 30)]) ++ [.bget 1 100, .lock 1 1]

/-- The last block that fits. -/
theorem log_write_panics_iff_full_last : ∃ y, Path perform Within (bootSys (fun _ _ => 0) 2) y ∧ y.boot = none ∧
    y.holds 3 0 = true ∧ y.phase 3 = .inOp 2 ∧ Within (.log_write 3 0) y ∧ y.fs.log.lh.length = 29 ∧
    perform (.log_write 3 0) y ≠ .error "too big a transaction" := by
  obtain ⟨y, hpath, hy⟩ := Path.exists_of_follow perform (C := Within) (fullLog.take 124) (bootSys (fun _ _ => 0) 2)
    (fun y => y.boot.isNone && y.holds 3 0 && decide (y.phase 3 = .inOp 2) && decide (Within (.log_write 3 0) y) &&
      decide (y.fs.log.lh.length = 29))
    (by decide +kernel)
  simp only [Bool.and_eq_true, decide_eq_true_eq, Option.isNone_iff_eq_none] at hy
  obtain ⟨⟨⟨⟨hboot, hhold⟩, hp⟩, hw⟩, hlen⟩ := hy
  refine ⟨y, hpath, hboot, hhold, hp, hw, hlen, ((log_write_panics_iff_full hpath hboot).2 3 0 2 hhold hp hw).1.mpr ?_⟩
  rw [hlen]
  decide

def isError (msg : String) : Except String (Unit × Sys) → Bool
  | .error e => e == msg
  | .ok _ => false

theorem relog_panics : ∃ y, Path perform Within (bootSys (fun _ _ => 0) 2) y ∧ y.boot = none ∧
    y.holds 1 1 = true ∧ Within (.log_write 1 1) y ∧ (y.fs.buf 1).blockno ∈ y.fs.log.lh ∧
    perform (.log_write 1 1) y = .error "too big a transaction" := by
  obtain ⟨y, hpath, hy⟩ := Path.exists_of_follow perform (C := Within) fullLog (bootSys (fun _ _ => 0) 2)
    (fun y => y.boot.isNone && y.holds 1 1 && decide (Within (.log_write 1 1) y) &&
      decide ((y.fs.buf 1).blockno ∈ y.fs.log.lh) && isError "too big a transaction" (perform (.log_write 1 1) y))
    (by decide +kernel)
  simp only [Bool.and_eq_true, decide_eq_true_eq, Option.isNone_iff_eq_none] at hy
  obtain ⟨⟨⟨⟨hboot, hhold⟩, hw⟩, hmem⟩, herr⟩ := hy
  refine ⟨y, hpath, hboot, hhold, hw, hmem, ?_⟩
  cases hrun : perform (.log_write 1 1) y with
  | error e =>
    rw [hrun, isError, beq_iff_eq] at herr
    rw [herr]
  | ok r =>
    rw [hrun] at herr
    cases herr

end runs

end Xv6.Fs
