import Xv6.Fs.Sound
import Xv6.Lib.Redo

/-!
# Crashes

The machine may stop between any two writes of a block. The recovery leaves the transactions whose header has reached
the disk.
-/

open Xv6.Lib Op

namespace Xv6.Fs

open Store

def logDisk (start : Nat) (disk : Nat → Data) : Redo.Disk Nat Data :=
  ⟨disk, fun i => disk (start + i + 1), header_blocks (disk start)⟩

section disk
variable {start b tail : Nat} {disk disk' : Nat → Data} {d : Data} {lh : List Nat}

theorem logDisk_home (hb : Home start b) (hdisk : ∀ x, disk' x = if x = b then d else disk x) :
    (logDisk start disk').header = (logDisk start disk).header ∧
      ∀ i < LOGBLOCKS, (logDisk start disk').slot i = (logDisk start disk).slot i := by
  unfold Home at hb
  unfold logDisk
  constructor
  · simp only
    rw [hdisk, if_neg (by omega)]
  · intro i hi
    simp only
    rw [hdisk, if_neg (by omega)]

theorem header_get (ht : tail < lh.length) : lh[tail]? = some (lh.getD tail 0) := by
  rw [List.getD_eq_getElem?_getD, List.getElem?_eq_getElem ht, Option.getD_some]

theorem logDisk_install (hl : Loggable start (header_blocks (disk start))) (hlh : header_blocks (disk start) = lh)
    (ht : tail < lh.length) (hdisk : ∀ x, disk' x = if x = lh.getD tail 0 then disk (start + tail + 1) else disk x) :
    (logDisk start disk').header = lh ∧
    (∀ b, (logDisk start disk').recovered b = (logDisk start disk).recovered b) ∧
    ((logDisk start disk).Installed tail → (logDisk start disk').Installed (tail + 1)) := by
  rw [hlh] at hl
  have hlen := hl.length
  have hmem := Loggable.getD_mem ht
  obtain ⟨hheader, hslot⟩ := logDisk_home (hl.home _ hmem) hdisk
  have hlh' : (logDisk start disk).header = lh := hlh
  have hslot' : ∀ i < (logDisk start disk).header.length, (logDisk start disk').slot i = (logDisk start disk).slot i := by
    intro i hi
    rw [hlh'] at hi
    exact hslot i (by omega)
  refine ⟨hheader.trans hlh', ?_, ?_⟩
  · intro b
    refine Redo.recovered_congr hheader hslot' ?_
    by_cases hb : b = lh.getD tail 0
    · rw [hb, hlh']
      exact .inl hmem
    · exact .inr ((hdisk b).trans (if_neg hb))
  · intro h
    refine h.succ (by rw [hlh']; exact hl.nodup) (by rw [hlh']; exact header_get ht) hheader hslot' ?_ ?_
    · exact (hdisk _).trans (if_pos rfl)
    · exact fun j hj => (hdisk j).trans (if_neg hj)

theorem logDisk_clear (hdone : (logDisk start disk).Installed (logDisk start disk).header.length)
    (hdisk : ∀ x, disk' x = if x = start then header_fill [] d else disk x) :
    (logDisk start disk').header = [] ∧
    ∀ b, Home start b → (logDisk start disk').recovered b = (logDisk start disk).recovered b := by
  have hheader : (logDisk start disk').header = [] := by
    unfold logDisk
    simp only
    rw [hdisk, if_pos rfl, header_blocks_fill (by decide) (by simp)]
  refine ⟨hheader, fun b hb => Redo.recovered_clear hdone hheader ?_⟩
  refine (hdisk b).trans (if_neg ?_)
  unfold Home at hb
  omega

end disk

/-! ## The disk of a running system -/

/-- The blocks of `H` are written through the log, and the log area is left alone. -/
def Journaled (start : Nat) (H : Set Nat) : Action → Sys → Prop
  | .change _ i _, y => Home start (y.fs.buf i).blockno
  | .log_write _ i, y => (y.fs.buf i).blockno ∈ H
  | .bwrite _ i, y => (y.fs.buf i).blockno ∉ H ∧ Home start (y.fs.buf i).blockno
  | _, _ => True

instance (start : Nat) (H : Set Nat) [DecidablePred (· ∈ H)] : ∀ a y, Decidable (Journaled start H a y)
  | .change _ i _, y => inferInstanceAs (Decidable (Home start (y.fs.buf i).blockno))
  | .log_write _ i, y => inferInstanceAs (Decidable ((y.fs.buf i).blockno ∈ H))
  | .bwrite _ i, y => inferInstanceAs (Decidable ((y.fs.buf i).blockno ∉ H ∧ Home start (y.fs.buf i).blockno))
  | .begin_op _, _ | .end_op _, _ | .commit _, _ | .bget _ _, _ | .lock _ _, _ | .brelse _ _, _ | .bpin _ _, _
  | .bunpin _, _ | .recover, _ | .crash, _ => .isTrue trivial

def DiskAt (d : Redo.Disk Nat Data) (lh : List Nat) : Span → Prop
  | .unread => True
  | .empty => d.header = []
  | .installing tail => d.header = lh ∧ d.Installed tail
  | .installed => d.Installed d.header.length

structure Durable (start : Nat) (H : Set Nat) (origin : Nat → Data) (y : Sys) (x : Span) : Prop where
  header : ∀ b ∈ (logDisk start y.fs.disk).header, b ∈ H
  lh : ∀ b ∈ y.fs.log.lh, b ∈ H
  disk : ∀ b ∈ H, (logDisk start y.fs.disk).recovered b = Redo.replay origin y.durable b
  stage : DiskAt (logDisk start y.fs.disk) y.fs.log.lh x

section durable
variable {start : Nat} {H : Set Nat} {origin : Nat → Data} {y y' : Sys} {x x' : Span} {a : Action}

theorem Durable.careful (h : Durable start H origin y x) (hH : ∀ b ∈ H, Home start b) (hc : Journaled start H a y) :
    Careful start a y := by
  cases a with
  | change p i d => exact hc
  | log_write p i => exact hH _ hc
  | bwrite p i => exact fun hmem => hc.1 (h.lh _ hmem)
  | _ => trivial

theorem Durable.same_disk (h : Durable start H origin y x) (hdisk : y'.fs.disk = y.fs.disk)
    (hdurable : y'.durable = y.durable) (hlh : ∀ b ∈ y'.fs.log.lh, b ∈ H)
    (hstage : DiskAt (logDisk start y.fs.disk) y'.fs.log.lh x') : Durable start H origin y' x' := by
  refine ⟨by rw [hdisk]; exact h.header, hlh, ?_, by rw [hdisk]; exact hstage⟩
  rw [hdisk, hdurable]
  exact h.disk

theorem Durable.direct {b : Nat} {d : Data} (h : Durable start H origin y x) (hheader : Loggable start (header_blocks (y.fs.disk start)))
    (hbH : b ∉ H) (hb : Home start b) (hdisk : ∀ n, y'.fs.disk n = if n = b then d else y.fs.disk n)
    (hlh : y'.fs.log.lh = y.fs.log.lh) (hdurable : y'.durable = y.durable) : Durable start H origin y' x := by
  obtain ⟨hhead, hslot⟩ := logDisk_home hb hdisk
  have hslot' : ∀ i < (logDisk start y.fs.disk).header.length,
      (logDisk start y'.fs.disk).slot i = (logDisk start y.fs.disk).slot i :=
    fun i hi => hslot i (hi.trans_le hheader.length)
  have hsame : ∀ k ∈ H, (logDisk start y'.fs.disk).home k = (logDisk start y.fs.disk).home k := by
    intro k hk
    refine (hdisk k).trans (if_neg ?_)
    rintro rfl
    exact hbH hk
  have hinst : ∀ {n : Nat}, (logDisk start y.fs.disk).Installed n → (logDisk start y'.fs.disk).Installed n :=
    fun hn => hn.congr hhead hslot' fun k hk => hsame k (h.header k hk)
  refine ⟨?_, by rw [hlh]; exact h.lh, ?_, ?_⟩
  · intro k hk
    exact h.header k (hhead ▸ hk)
  · intro k hk
    rw [hdurable, Redo.recovered_congr hhead hslot' (.inr (hsame k hk))]
    exact h.disk k hk
  · have hstage := h.stage
    cases x with
    | unread => trivial
    | empty => exact hhead.trans hstage
    | installing tail => exact ⟨by rw [hhead, hlh]; exact hstage.1, hinst hstage.2⟩
    | installed =>
      unfold DiskAt
      rw [hhead]
      exact hinst hstage

theorem Durable.slot {tail : Nat} {d : Data} (h : Durable start H origin y .empty) (hH : ∀ b ∈ H, Home start b)
    (hlen : y.fs.log.lh.length ≤ LOGBLOCKS) (ht : tail < y.fs.log.lh.length)
    (hdisk : ∀ b, y'.fs.disk b = if b = start + tail + 1 then d else y.fs.disk b)
    (hlh : y'.fs.log.lh = y.fs.log.lh) (hdurable : y'.durable = y.durable) : Durable start H origin y' .empty := by
  have hnil : (logDisk start y.fs.disk).header = [] := h.stage
  have hhead : (logDisk start y'.fs.disk).header = (logDisk start y.fs.disk).header := by
    unfold logDisk
    simp only
    rw [hdisk, if_neg (by omega)]
  refine ⟨?_, by rw [hlh]; exact h.lh, ?_, hhead.trans hnil⟩
  · intro k hk
    exact h.header k (hhead ▸ hk)
  · intro k hk
    rw [hdurable, ← h.disk k hk, Redo.recovered_of_nil hnil, Redo.recovered_of_nil (hhead.trans hnil)]
    refine (hdisk k).trans (if_neg ?_)
    have hhome := hH k hk
    unfold Home at hhome
    omega

theorem Durable.head {d : Data} (h : Durable start H origin y .empty) (hH : ∀ b ∈ H, Home start b)
    (hl : Loggable start y.fs.log.lh)
    (hslots : ∀ j < y.fs.log.lh.length, y.fs.disk (start + j + 1) = y.last (y.fs.log.lh.getD j 0))
    (hdisk : ∀ b, y'.fs.disk b = if b = start then header_fill y.fs.log.lh d else y.fs.disk b)
    (hlh : y'.fs.log.lh = y.fs.log.lh)
    (hdurable : y'.durable = y.durable ++ [y.fs.log.lh.map fun b => (b, y.last b)]) :
    Durable start H origin y' (.installing 0) := by
  have hnil : (logDisk start y.fs.disk).header = [] := h.stage
  have hhead : (logDisk start y'.fs.disk).header = y.fs.log.lh := by
    unfold logDisk
    simp only
    rw [hdisk, if_pos rfl, header_blocks_fill hl.length hl.small]
  have hrec : ∀ k ∈ H, (logDisk start y'.fs.disk).recovered k =
      Redo.write (y.fs.log.lh.map fun b => (b, y.last b)) (logDisk start y.fs.disk).recovered k := by
    intro k hk
    refine Redo.recovered_commit hnil hhead ?_ ?_
    · intro i b hb
      obtain ⟨hi, hget⟩ := List.getElem?_eq_some_iff.mp hb
      rw [header_get hi, Option.some.injEq] at hb
      have hslot : (logDisk start y'.fs.disk).slot i = y.fs.disk (start + i + 1) := (hdisk _).trans (if_neg (by omega))
      rw [hslot, hslots i hi, hb]
    · intro _
      refine (hdisk k).trans (if_neg ?_)
      have hhome := hH k hk
      unfold Home at hhome
      omega
  refine ⟨?_, by rw [hlh]; exact h.lh, ?_, ⟨hhead.trans hlh.symm, by simp [Redo.Disk.Installed]⟩⟩
  · intro k hk
    exact h.lh k (hhead ▸ hk)
  · intro k hk
    rw [hrec k hk, hdurable, Redo.replay_append]
    unfold Redo.write
    rw [h.disk k hk]

theorem Durable.step (h : Durable start H origin y x) (hH : ∀ b ∈ H, Home start b) (hc : Journaled start H a y)
    (hheader : Loggable start (header_blocks (y.fs.disk start))) (hl : Loggable start y.fs.log.lh)
    (heffect : Effect start y a y' x x') : Durable start H origin y' x' := by
  cases heffect with
  | quiet _ hdisk hlh hdurable =>
    exact h.same_disk hdisk hdurable (by rw [hlh]; exact h.lh) (by rw [hlh]; exact h.stage)
  | logged p i ha hdisk hlh hdurable =>
    subst ha
    refine h.same_disk hdisk hdurable ?_ h.stage
    intro b hb
    rw [hlh, List.mem_append, List.mem_singleton] at hb
    obtain hb | rfl := hb
    · exact h.lh b hb
    · exact hc
  | direct _ p i ha hdisk hlh hdurable =>
    subst ha
    exact h.direct hheader hc.1 hc.2 hdisk hlh hdurable
  | slot tail d ht hdisk hlh hdurable => exact h.slot hH hl.length ht hdisk hlh hdurable
  | head d hslots hdisk hlh hdurable => exact h.head hH hl hslots hdisk hlh hdurable
  | home tail ht hdisk hlh hdurable =>
    obtain ⟨hsame, hinst⟩ := h.stage
    obtain ⟨hhead, hrec, hnext⟩ := logDisk_install hheader hsame ht hdisk
    refine ⟨?_, by rw [hlh]; exact h.lh, ?_, ⟨hhead.trans hlh.symm, hnext hinst⟩⟩
    · intro b hb
      exact h.lh b (hhead ▸ hb)
    · intro b hb
      rw [hrec, hdurable]
      exact h.disk b hb
  | forget tail ht hdisk hlh hdurable =>
    obtain ⟨hsame, hinst⟩ := h.stage
    refine h.same_disk hdisk hdurable (by rw [hlh]; simp) ?_
    intro i b hi hb
    rw [hsame] at hi
    exact hinst i b (by omega) hb
  | clear d hdisk hlh hdurable =>
    obtain ⟨hhead, hrec⟩ := logDisk_clear h.stage hdisk
    refine ⟨?_, by rw [hlh]; exact h.lh, ?_, hhead⟩
    · intro b hb
      rw [hhead] at hb
      cases hb
    · intro b hb
      rw [hrec b (hH b hb), hdurable]
      exact h.disk b hb
  | read hdisk hlh hdurable =>
    exact h.same_disk hdisk hdurable (by rw [hlh]; exact h.header) ⟨hlh.symm, by simp [Redo.Disk.Installed]⟩
  | crash _ hdisk hlh hdurable => exact h.same_disk hdisk hdurable (by rw [hlh]; simp) trivial

theorem reach_durable {disk : Nat → Data} (hfits : start + LOGBLOCKS < 2 ^ 32) (hH : ∀ b ∈ H, Home start b)
    (hheader : Loggable start (header_blocks (disk start))) (hdisk : ∀ b ∈ header_blocks (disk start), b ∈ H)
    (h : Path perform (Journaled start H) (bootSys disk start) y) :
    ∃ pos, Sound start y pos ∧ Durable start H (logDisk start disk).recovered y pos.span := by
  induction h with
  | refl => exact ⟨_, bootSys_sound hfits hheader, ⟨hdisk, (by intros; contradiction), fun _ _ => rfl, trivial⟩⟩
  | step hpath hc hrun ih =>
    obtain ⟨pos, hs, hd⟩ := ih
    obtain ⟨pos', hs', heffect, -⟩ := perform_sound hs (reach_turns hpath) (hd.careful hH hc) hrun
    refine ⟨pos', hs', hd.step hH hc ?_ hs.lh heffect⟩
    rw [hs.disk_area hs.header_block]
    exact hs.header

end durable

/-! ## Recovery -/

section recovery
variable {s s' : Store} {last : Nat → Data} {p a b tail m : Nat}

theorem recover_body_runs (h : Coherent s {} [] last) (hfree : ∀ i, (s.buf i).lock = none) (hdev : s.log.dev = ROOTDEV)
    (ha : a = s.log.start + tail + 1) (hb : b = s.log.lh.getD tail 0) (ha32 : a < 2 ^ 32) (hb32 : b < 2 ^ 32)
    (hab : a ≠ b) : Runs (install_trans_body p true tail) s := by
  unfold install_trans_body getLog
  refine (Runs.gets _ _).bind fun log t hlog => ?_
  obtain ⟨rfl, rfl⟩ := (gets_ok _).mp hlog
  rw [hdev, ← ha, ← hb]
  refine (bread_runs h p (fun i _ => hfree i) (.inr ⟨0, by decide, no_references h (hfree 0) (by decide)⟩)).bind
    fun k t₁ hread₁ => ?_
  obtain ⟨hc₁, -, hl₁, hb₁, -, -, hkeep₁⟩ := h.bread ha32 hread₁
  have hfree₁ : ∀ j, j ≠ k → (t₁.buf j).lock = none := fun j hj => by rw [hkeep₁ j hj, hfree j]
  have hroom : ∃ i < NBUF, (t₁.buf i).refcnt = 0 := by
    by_cases hk : k = 0
    · exact ⟨1, by decide, no_references hc₁ (hfree₁ 1 (by omega)) (by decide)⟩
    · exact ⟨0, by decide, no_references hc₁ (hfree₁ 0 (Ne.symm hk)) (by decide)⟩
  refine (bread_runs hc₁ p (fun i hi => hfree₁ i ?_) (.inr hroom)).bind fun l t₂ hread₂ => ?_
  · rintro rfl
    exact hab (hb₁.symm.trans hi.2.2)
  obtain ⟨-, -, hl₂, -, -, hfree₂, hkeep₂⟩ := hc₁.bread hb32 hread₂
  have hne : k ≠ l := by
    rintro rfl
    rw [hl₁] at hfree₂
    cases hfree₂
  refine (Runs.of_ok (Coherent.copy_data_ok.mpr (run_update _))).bind fun _ t₃ ht₃ => ?_
  have ht₃' := Coherent.copy_data_ok.mp ht₃
  unfold set_data at ht₃'
  rw [update_ok] at ht₃'
  have hl₃ : (t₃.buf l).lock = some p := by rw [ht₃', setBuf_buf]; exact hl₂
  have hk₃ : (t₃.buf k).lock = some p := by rw [ht₃', setBuf_buf_of_ne _ _ _ _ hne, hkeep₂ k hne]; exact hl₁
  refine (bwrite_runs hl₃).bind fun _ t₄ ht₄ => ?_
  have hbuf₄ : t₄.buf = t₃.buf := by rw [(bwrite_ok.mp ht₄).2]; rfl
  simp only [if_true]
  refine (brelse_runs (by rw [hbuf₄]; exact hk₃)).bind fun _ t₅ ht₅ => ?_
  exact brelse_runs (by rw [Coherent.brelse_buf ht₅ hne.symm, hbuf₄]; exact hl₃)

theorem read_head_runs (h : Coherent s {} [] last) (hfree : ∀ i, (s.buf i).lock = none) (hdev : s.log.dev = ROOTDEV)
    (hstart : s.log.start < 2 ^ 32) : Runs (read_head p) s := by
  unfold read_head getLog
  refine (Runs.gets _ _).bind fun log t hlog => ?_
  obtain ⟨rfl, rfl⟩ := (gets_ok _).mp hlog
  rw [hdev]
  refine (bread_runs h p (fun i _ => hfree i) (.inr ⟨0, by decide, no_references h (hfree 0) (by decide)⟩)).bind
    fun k t₁ hread => ?_
  obtain ⟨-, -, hl, -⟩ := h.bread hstart hread
  refine (Runs.gets _ _).bind fun _ t₂ ht₂ => ?_
  obtain ⟨rfl, rfl⟩ := (gets_ok _).mp ht₂
  refine (Runs.update _ _).bind fun _ t₃ ht₃ => ?_
  rw [update_ok] at ht₃
  exact brelse_runs (by rw [ht₃]; exact hl)

theorem recover_loop (hlh : header_blocks (s.disk s.log.start) = s.log.lh) (hlog : Loggable s.log.start s.log.lh)
    (hdev : s.log.dev = ROOTDEV) (hstart : s.log.start + LOGBLOCKS < 2 ^ 32) (h : Coherent s {} [] last)
    (hfree : ∀ i, (s.buf i).lock = none) (hinst : (logDisk s.log.start s.disk).Installed tail)
    (hm : tail + m = s.log.lh.length) :
    ∃ s' last', for_tail (install_trans_body p true) m tail s = .ok ((), s') ∧ Coherent s' {} [] last' ∧
      (∀ i, (s'.buf i).lock = none) ∧ s'.log = s.log ∧ (logDisk s.log.start s'.disk).header = s.log.lh ∧
      (logDisk s.log.start s'.disk).Installed s.log.lh.length ∧
      ∀ b, (logDisk s.log.start s'.disk).recovered b = (logDisk s.log.start s.disk).recovered b := by
  induction m generalizing s last tail with
  | zero =>
    rw [Nat.add_zero] at hm
    rw [hm] at hinst
    exact ⟨s, last, rfl, h, hfree, rfl, hlh, hinst, fun _ => rfl⟩
  | succ m ih =>
    have ht : tail < s.log.lh.length := by omega
    have hlen := hlog.length
    have hmem := Loggable.getD_mem ht
    have hsmall := hlog.small _ hmem
    have hne : s.log.start + tail + 1 ≠ s.log.lh.getD tail 0 := hlog.ne hmem (tail + 1) (by omega)
    obtain ⟨_, s₁, hrun⟩ := recover_body_runs (p := p) h hfree hdev rfl rfl (by omega) hsmall hne
    obtain ⟨hc, hputs, hleaves⟩ := h.recover_body hdev rfl (by omega) hsmall rfl hne hrun
    -- The log block has on disk what was left there.
    have hslot : last (s.log.start + tail + 1) = s.disk (s.log.start + tail + 1) := by
      rw [← h.left _ fun i _ => hfree i]
      exact h.clean _ (by simp) fun i _ => rfl
    have hdisk := hputs.disk
    rw [hslot] at hdisk
    obtain ⟨hhead, hrec, hnext⟩ := logDisk_install (by rw [hlh]; exact hlog) hlh ht hdisk
    have hfree₁ : ∀ i, (s₁.buf i).lock = none := fun i => (hleaves.lock i).trans (hfree i)
    have hsame := hputs.log
    rw [← hsame] at hlog hdev hstart hm hhead hnext hrec hinst ⊢
    obtain ⟨s', last', hloop, hc', hfree', hlog', hhead', hinst', hrec'⟩ :=
      ih hhead hlog hdev hstart hc hfree₁ (hnext hinst) (by omega)
    refine ⟨s', last', ?_, hc', hfree', hlog', hhead', hinst', fun b => (hrec' b).trans (hrec b)⟩
    rw [for_tail, run_bind hrun]
    exact hloop

theorem recover_from_log_runs {start : Nat} {disk : Nat → Data} (hfits : start + LOGBLOCKS < 2 ^ 32)
    (hheader : Loggable start (header_blocks (disk start))) (p : Nat) :
    ∃ s, recover_from_log p (binit disk { start, dev := ROOTDEV }) = .ok ((), s) ∧
      ∀ b, Home start b → s.disk b = (logDisk start disk).recovered b := by
  have hc := binit_coherent disk { start, dev := ROOTDEV }
  generalize hs : binit disk { start, dev := ROOTDEV } = s at hc
  have hdisk : s.disk = disk := by rw [← hs]; rfl
  have hlog : s.log = { start, dev := ROOTDEV } := by rw [← hs]; rfl
  have hfree : ∀ i, (s.buf i).lock = none := fun i => by rw [← hs]; rfl
  have hstart : s.log.start = start := by rw [hlog]
  have hdev : s.log.dev = ROOTDEV := by rw [hlog]
  obtain ⟨_, s₁, hread⟩ := read_head_runs (p := p) hc hfree hdev (by omega)
  obtain ⟨hc₁, hdisk₁, -, hlog₁, hleaves₁⟩ := hc.read_head hdev (by omega) hread
  rw [hstart] at hlog₁
  have hstart₁ : s₁.log.start = start := by rw [hlog₁, ← hstart]
  have hdev₁ : s₁.log.dev = ROOTDEV := by rw [hlog₁, ← hdev]
  have hlh₁ : header_blocks (s₁.disk s₁.log.start) = s₁.log.lh := by rw [hstart₁, hdisk₁, hdisk, hlog₁]
  have hfree₁ : ∀ i, (s₁.buf i).lock = none := fun i => (hleaves₁.lock i).trans (hfree i)
  obtain ⟨s₂, last₂, hloop, hc₂, hfree₂, hlog₂, hhead₂, hinst₂, hrec₂⟩ := recover_loop (p := p) hlh₁
    (by rw [← hlh₁, hstart₁, hdisk₁, hdisk]; exact hheader) hdev₁ (by omega) hc₁ hfree₁
    (show Redo.Disk.Installed _ 0 by simp [Redo.Disk.Installed]) (Nat.zero_add _)
  rw [hstart₁] at hhead₂ hinst₂ hrec₂
  have hinstall : install_trans p true s₁ = .ok ((), s₂) := by
    unfold install_trans getLog
    rw [run_bind (run_gets _)]
    exact hloop
  have hc₃ := hc₂.setLog fun log => { log with lh := [] }
  have hdev₃ : (s₂.setLog fun log => { log with lh := [] }).log.dev = ROOTDEV := by
    rw [setLog_log, hlog₂]
    exact hdev₁
  have hstart₃ : (s₂.setLog fun log => { log with lh := [] }).log.start = start := by
    rw [setLog_log, hlog₂]
    exact hstart₁
  obtain ⟨_, s₄, hhead⟩ := write_head_runs (p := p) hc₃ hfree₂ (by decide) hdev₃ (by omega)
  obtain ⟨-, hputs, -⟩ := hc₃.write_head hdev₃ (by omega) hhead
  rw [hstart₃] at hputs
  refine ⟨s₄, ?_, ?_⟩
  · unfold recover_from_log
    rw [run_bind hread, run_bind hinstall]
    unfold clear_lh setLog
    rw [run_bind (run_update _)]
    exact hhead
  · intro b hb
    have hne : b ≠ start := by
      unfold Home at hb
      omega
    rw [hputs.disk, if_neg hne, setLog_disk]
    rw [← hhead₂] at hinst₂
    have hdone := hinst₂.recovered (k := b)
    rw [hrec₂, hdisk₁, hdisk] at hdone
    exact hdone.symm

end recovery

/-- At any point of a commit or of an earlier recovery, a crash followed by a recovery leaves in the blocks that are
written through the log exactly the transactions whose header has reached the disk, in order. -/
theorem crash_atomic {start : Nat} {H : Set Nat} {disk : Nat → Data} {y : Sys} (hfits : start + LOGBLOCKS < 2 ^ 32)
    (hH : ∀ b ∈ H, Home start b) (hheader : Loggable start (header_blocks (disk start)))
    (hdisk : ∀ b ∈ header_blocks (disk start), b ∈ H)
    (h : Path perform (Journaled start H) (bootSys disk start) y) (p : Nat) :
    ∃ s, recover_from_log p (binit y.fs.disk { start, dev := ROOTDEV }) = .ok ((), s) ∧
      ∀ b ∈ H, s.disk b = Redo.replay (logDisk start disk).recovered y.durable b := by
  obtain ⟨pos, hs, hd⟩ := reach_durable hfits hH hheader hdisk h
  have hnow : Loggable start (header_blocks (y.fs.disk start)) := by
    rw [hs.disk_area hs.header_block]
    exact hs.header
  obtain ⟨s, hrun, hdone⟩ := recover_from_log_runs hfits hnow p
  refine ⟨s, hrun, fun b hb => ?_⟩
  rw [hdone b (hH b hb)]
  exact hd.disk b hb


def halfCommit : List Action :=
  List.replicate 3 .recover ++ [.begin_op 1, .bget 1 50, .lock 1 1, .change 1 1 (fun _ => 7), .log_write 1 1,
    .brelse 1 1, .end_op 1] ++ List.replicate 4 (.commit 1)

theorem crash_atomic_half_commit : ∃ y, Path perform (Journaled 2 {b | Home 2 b}) (bootSys (fun _ _ => 0) 2) y ∧
    y.fs.disk 50 ⟨0, by decide⟩ = 0 ∧
    ∃ s, recover_from_log 1 (binit y.fs.disk { start := 2, dev := ROOTDEV }) = .ok ((), s) ∧
      s.disk 50 ⟨0, by decide⟩ = 7 := by
  obtain ⟨y, hpath, hy⟩ := Path.exists_of_follow perform (C := Journaled 2 {b | Home 2 b}) halfCommit
    (bootSys (fun _ _ => 0) 2) (fun y => decide (y.fs.disk 50 ⟨0, by decide⟩ = 0) &&
      decide (Redo.replay (logDisk 2 fun _ _ => 0).recovered y.durable 50 ⟨0, by decide⟩ = 7)) (by decide +kernel)
  simp only [Bool.and_eq_true, decide_eq_true_eq] at hy
  have hnil : ∀ b ∈ header_blocks fun _ => 0, b ∈ {b | Home 2 b} := fun b hb => header_blocks_zero.home b hb
  obtain ⟨s, hrun, hdone⟩ := crash_atomic (by decide) (fun b hb => hb) (by exact header_blocks_zero) (by exact hnil) hpath 1
  refine ⟨y, hpath, hy.1, s, hrun, ?_⟩
  rw [hdone 50 (by show Home 2 50; decide)]
  exact hy.2

end Xv6.Fs
