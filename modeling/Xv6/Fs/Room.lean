import Xv6.Fs.Commit
import Mathlib.Data.Finset.Card

/-!
# Buffers for a commit

A commit needs one buffer besides those that the log has pinned. There are `NBUF` buffers, and the
log admits `LOGBLOCKS` blocks, which is the same number.
-/

open Xv6.Lib Op

namespace Xv6.Fs

open Store

/-- The block is outside the log area. -/
def Home (start b : Nat) : Prop := b < start ∨ start + LOGBLOCKS < b

structure Loggable (start : Nat) (l : List Nat) : Prop where
  nodup : l.Nodup
  length : l.length ≤ LOGBLOCKS
  home : ∀ b ∈ l, Home start b
  small : ∀ b ∈ l, b < 2 ^ 32

variable {s s' t : Store} {u : Users} {P : List Nat} {last : Nat → Data} {p i j a b tail m start : Nat} {v : Unit}

theorem Loggable.getD_mem {l : List Nat} (ht : tail < l.length) : l.getD tail 0 ∈ l := by
  simp [ht]

theorem Loggable.ne (h : Loggable start P) (hb : b ∈ P) (k : Nat) (hk : k ≤ LOGBLOCKS) : start + k ≠ b := by
  have := h.home b hb
  unfold Home at this
  omega

/-! ## Operations that return -/

theorem bread_runs (h : Coherent s u P last) (p : Nat) (hlock : ∀ i, s.Holds i b → (s.buf i).lock = none)
    (hroom : (∃ i, s.Holds i b) ∨ ∃ i < NBUF, (s.buf i).refcnt = 0) : Runs (bread p ROOTDEV b) s := by
  have hget : ∃ i t, bget_ref ROOTDEV b s = .ok (i, t) ∧ (t.buf i).lock = none := by
    cases hl : s.lookup ROOTDEV b with
    | some i =>
      refine ⟨i, _, bget_ref_ok.mpr (.inl ⟨hl, rfl⟩), ?_⟩
      rw [setBuf_buf]
      exact hlock i (h.lookup_some.mp hl)
    | none =>
      have hno := h.lookup_none.mp hl
      obtain ⟨i, hi⟩ | ⟨k, hk, hz⟩ := hroom
      · exact absurd hi (hno i)
      · cases hu : s.unused with
        | none => exact absurd hz (h.unused_none.mp hu k hk)
        | some i =>
          obtain ⟨hi, hzi⟩ := h.unused_some hu
          refine ⟨i, _, bget_ref_ok.mpr (.inr ⟨hl, hu, rfl⟩), ?_⟩
          rw [setBuf_buf]
          exact (h.unreferenced hi hzi).2.1
  obtain ⟨i, t, hget, hfree⟩ := hget
  unfold bread bget bread_disk
  refine Runs.bind (Runs.bind (.of_ok hget) fun k t' hk => ?_) fun _ _ _ =>
    (Runs.update _ _).bind fun _ _ _ => Runs.pure _ _
  rw [hget] at hk
  cases hk
  refine Runs.bind ⟨(), _, acquiresleep_ok.mpr ⟨hfree, rfl⟩⟩ fun _ _ _ => Runs.pure _ _

theorem bwrite_runs (h : (s.buf i).lock = some p) : Runs (bwrite p i) s := ⟨(), _, bwrite_ok.mpr ⟨h, rfl⟩⟩

theorem room (h : Coherent s {} P last) (hfree : ∀ i, (s.buf i).lock = none) (hP : P.length < NBUF) :
    ∃ i < NBUF, (s.buf i).refcnt = 0 := by
  by_contra hno
  push Not at hno
  have hin : ∀ i < NBUF, (s.buf i).dev = ROOTDEV ∧ (s.buf i).blockno ∈ P := by
    intro i hi
    have hrefs := h.refs i hi
    rw [references, hfree i, if_pos rfl] at hrefs
    by_contra hout
    rw [if_neg hout] at hrefs
    exact hno i hi hrefs
  have hle : (Finset.range NBUF).card ≤ P.toFinset.card := by
    apply Finset.card_le_card_of_injOn fun i => (s.buf i).blockno
    · intro i hi
      exact List.mem_toFinset.mpr (hin i (Finset.mem_range.mp hi)).2
    · intro i hi j hj heq
      have hi' := Finset.mem_range.mp hi
      have hj' := Finset.mem_range.mp hj
      exact h.unique i j _ ⟨hi', (hin i hi').1, rfl⟩ ⟨hj', (hin j hj').1, heq.symm⟩
  have := List.toFinset_card_le P
  rw [Finset.card_range] at hle
  omega

theorem write_head_runs (h : Coherent s {} P last) (hfree : ∀ i, (s.buf i).lock = none) (hP : P.length < NBUF)
    (hdev : s.log.dev = ROOTDEV) (hstart : s.log.start < 2 ^ 32) : Runs (write_head p) s := by
  unfold write_head getLog
  refine (Runs.gets _ _).bind fun log t hlog => ?_
  obtain ⟨rfl, rfl⟩ := (gets_ok _).mp hlog
  rw [hdev]
  refine (bread_runs h p (fun i _ => hfree i) (.inr (room h hfree hP))).bind fun k t₁ hread => ?_
  obtain ⟨-, -, hl, -⟩ := h.bread hstart hread
  refine (Runs.gets _ _).bind fun _ t₂ ht₂ => ?_
  obtain ⟨rfl, rfl⟩ := (gets_ok _).mp ht₂
  refine (Runs.update _ _).bind fun _ t₃ ht₃ => ?_
  rw [update_ok] at ht₃
  have hl₃ : (t₃.buf k).lock = some p := by rw [ht₃, setBuf_buf]; exact hl
  refine (bwrite_runs hl₃).bind fun _ t₄ ht₄ => ?_
  rw [(bwrite_ok.mp ht₄).2]
  exact brelse_runs hl₃

theorem two_breads_run (h : Coherent s {} P last) (hfree : ∀ i, (s.buf i).lock = none) (hP : P.length < NBUF)
    (ha32 : a < 2 ^ 32) (hb : b ∈ P) (hab : a ≠ b) :
    Runs (bread p ROOTDEV a) s ∧ ∀ k t, bread p ROOTDEV a s = .ok (k, t) →
      Runs (bread p ROOTDEV b) t ∧ ∀ l t', bread p ROOTDEV b t = .ok (l, t') →
        k ≠ l ∧ (t'.buf k).lock = some p ∧ (t'.buf l).lock = some p := by
  refine ⟨bread_runs h p (fun i _ => hfree i) (.inr (room h hfree hP)), ?_⟩
  intro k t hread
  obtain ⟨hc, -, -, hk, -, -, hkeep⟩ := h.bread ha32 hread
  obtain ⟨i, hi, -⟩ := hc.cached b hb
  refine ⟨bread_runs hc p ?_ (.inl ⟨i, hi⟩), ?_⟩
  · intro j hj
    have hjk : j ≠ k := by
      rintro rfl
      exact hab (hk.symm.trans hj.2.2)
    rw [hkeep j hjk]
    exact hfree j
  · intro l t' hread'
    have hf := h.bread_two ha32 (hi.2.2 ▸ hc.small i) hread hread'
    exact ⟨hf.ne, hf.fst.lock, hf.snd.lock⟩

theorem copy_data_lock {i j : Nat} {v : Unit} {t : Store} (h : copy_data i j s = .ok (v, t)) (n : Nat) :
    (t.buf n).lock = (s.buf n).lock := by
  rw [Coherent.copy_data_ok, set_data, update_ok] at h
  by_cases hn : n = i
  · rw [h, hn, setBuf_buf]
  · rw [h, setBuf_buf_of_ne _ _ _ _ hn]

theorem write_log_body_runs (h : Coherent s {} P last) (hfree : ∀ i, (s.buf i).lock = none) (hP : P.length < NBUF)
    (hdev : s.log.dev = ROOTDEV) (ha : a = s.log.start + tail + 1) (hb : b = s.log.lh.getD tail 0)
    (ha32 : a < 2 ^ 32) (hbP : b ∈ P) (hab : a ≠ b) : Runs (write_log_body p tail) s := by
  obtain ⟨hrun₁, hrest⟩ := two_breads_run (p := p) h hfree hP ha32 hbP hab
  unfold write_log_body getLog
  refine (Runs.gets _ _).bind fun log t hlog => ?_
  obtain ⟨rfl, rfl⟩ := (gets_ok _).mp hlog
  rw [hdev, ← ha, ← hb]
  refine hrun₁.bind fun k t₁ hread₁ => ?_
  obtain ⟨hrun₂, hrest⟩ := hrest k t₁ hread₁
  refine hrun₂.bind fun l t₂ hread₂ => ?_
  obtain ⟨hne, hk, hl⟩ := hrest l t₂ hread₂
  refine (Runs.of_ok (Coherent.copy_data_ok.mpr (run_update _))).bind fun _ t₃ ht₃ => ?_
  rw [← copy_data_lock ht₃] at hk hl
  refine (bwrite_runs hk).bind fun _ t₄ ht₄ => ?_
  have hbuf₄ : t₄.buf = t₃.buf := by rw [(bwrite_ok.mp ht₄).2]; rfl
  refine (brelse_runs (by rw [hbuf₄]; exact hl)).bind fun _ t₅ ht₅ => ?_
  exact brelse_runs (by rw [Coherent.brelse_buf ht₅ hne, hbuf₄]; exact hk)

theorem install_trans_body_runs (h : Coherent s {} P last) (hfree : ∀ i, (s.buf i).lock = none)
    (hP : P.length < NBUF) (hdev : s.log.dev = ROOTDEV) (ha : a = s.log.start + tail + 1)
    (hb : b = s.log.lh.getD tail 0) (ha32 : a < 2 ^ 32) (hbP : b ∈ P) (hab : a ≠ b) :
    Runs (install_trans_body p false tail) s := by
  obtain ⟨hrun₁, hrest⟩ := two_breads_run (p := p) h hfree hP ha32 hbP hab
  unfold install_trans_body getLog
  refine (Runs.gets _ _).bind fun log t hlog => ?_
  obtain ⟨rfl, rfl⟩ := (gets_ok _).mp hlog
  rw [hdev, ← ha, ← hb]
  refine hrun₁.bind fun k t₁ hread₁ => ?_
  obtain ⟨hrun₂, hrest⟩ := hrest k t₁ hread₁
  refine hrun₂.bind fun l t₂ hread₂ => ?_
  obtain ⟨hne, hk, hl⟩ := hrest l t₂ hread₂
  refine (Runs.of_ok (Coherent.copy_data_ok.mpr (run_update _))).bind fun _ t₃ ht₃ => ?_
  rw [← copy_data_lock ht₃] at hk hl
  refine (bwrite_runs hl).bind fun _ t₄ ht₄ => ?_
  have hbuf₄ : t₄.buf = t₃.buf := by rw [(bwrite_ok.mp ht₄).2]; rfl
  simp only [Bool.false_eq_true, if_false]
  refine (Runs.update _ _).bind fun _ t₅ ht₅ => ?_
  rw [update_ok] at ht₅
  have hk₅ : (t₅.buf k).lock = some p := by rw [ht₅, setBuf_buf_of_ne _ _ _ _ hne, hbuf₄]; exact hk
  have hl₅ : (t₅.buf l).lock = some p := by rw [ht₅, setBuf_buf, hbuf₄]; exact hl
  refine (brelse_runs hk₅).bind fun _ t₆ ht₆ => ?_
  exact brelse_runs (by rw [Coherent.brelse_buf ht₆ hne.symm]; exact hl₅)

/-! ## The loops of `commit` -/

structure Admitted (s : Store) : Prop where
  coherent : ∃ last, Coherent s {} s.log.lh last
  free : ∀ i, (s.buf i).lock = none
  dev : s.log.dev = ROOTDEV
  start : s.log.start + LOGBLOCKS < 2 ^ 32
  loggable : Loggable s.log.start s.log.lh

section loops
variable (hlog : Loggable s.log.start s.log.lh) (hdev : s.log.dev = ROOTDEV)
  (hstart : s.log.start + LOGBLOCKS < 2 ^ 32) (hn : s.log.lh.length < NBUF)
include hlog hdev hstart hn

theorem write_log_loop (h : Coherent s {} s.log.lh last) (hfree : ∀ i, (s.buf i).lock = none)
    (hm : tail + m = s.log.lh.length)
    (hcopied : ∀ j < tail, last (s.log.start + j + 1) = last (s.log.lh.getD j 0)) :
    ∃ s' last', for_tail (write_log_body p) m tail s = .ok ((), s') ∧ Coherent s' {} s.log.lh last' ∧
      (∀ i, (s'.buf i).lock = none) ∧ s'.log = s.log ∧
      ∀ j < s.log.lh.length, last' (s.log.start + j + 1) = last' (s.log.lh.getD j 0) := by
  induction m generalizing s last tail with
  | zero => exact ⟨s, last, rfl, h, hfree, rfl, fun j hj => hcopied j (by omega)⟩
  | succ m ih =>
    have ht : tail < s.log.lh.length := by omega
    have hlen := hlog.length
    have hbP := Loggable.getD_mem ht
    have hne : s.log.start + tail + 1 ≠ s.log.lh.getD tail 0 := hlog.ne hbP (tail + 1) (by omega)
    obtain ⟨_, s₁, hrun⟩ := write_log_body_runs (p := p) h hfree hn hdev rfl rfl (by omega) hbP hne
    obtain ⟨hc, hputs, -, hlock⟩ := h.write_log_body hdev rfl (by omega) (hlog.small _ hbP) rfl hne hrun
    have hfree₁ : ∀ i, (s₁.buf i).lock = none := fun i => (hlock.lock i).trans (hfree i)
    rw [← hputs.log] at hlog hdev hstart hn hc hm hcopied hne ht hlen ⊢
    have hnext : ∀ j < tail + 1,
        Function.update last (s₁.log.start + tail + 1) (last (s₁.log.lh.getD tail 0)) (s₁.log.start + j + 1) =
          Function.update last (s₁.log.start + tail + 1) (last (s₁.log.lh.getD tail 0)) (s₁.log.lh.getD j 0) := by
      intro j hj
      have hjmem : s₁.log.lh.getD j 0 ∈ s₁.log.lh := Loggable.getD_mem (by omega)
      have hnej : s₁.log.start + tail + 1 ≠ s₁.log.lh.getD j 0 := hlog.ne hjmem (tail + 1) (by omega)
      rw [Function.update_of_ne hnej.symm]
      by_cases hjt : j = tail
      · rw [hjt, Function.update_self]
      · rw [Function.update_of_ne (by omega)]
        exact hcopied j (by omega)
    obtain ⟨s', last', hloop, hrest⟩ := ih hlog hdev hstart hn hc hfree₁ (by omega) hnext
    refine ⟨s', last', ?_, hrest⟩
    rw [for_tail, run_bind hrun]
    exact hloop

theorem install_trans_loop (h : Coherent s {} (s.log.lh.drop tail) last) (hfree : ∀ i, (s.buf i).lock = none)
    (hm : tail + m = s.log.lh.length)
    (hcopied : ∀ j < s.log.lh.length, last (s.log.start + j + 1) = last (s.log.lh.getD j 0)) :
    ∃ s', for_tail (install_trans_body p false) m tail s = .ok ((), s') ∧ Coherent s' {} [] last ∧
      (∀ i, (s'.buf i).lock = none) ∧ s'.log = s.log := by
  induction m generalizing s tail with
  | zero =>
    rw [List.drop_of_length_le (by omega)] at h
    exact ⟨s, rfl, h, hfree, rfl⟩
  | succ m ih =>
    have ht : tail < s.log.lh.length := by omega
    have hlen := hlog.length
    have hbP := Loggable.getD_mem ht
    have hne : s.log.start + tail + 1 ≠ s.log.lh.getD tail 0 := hlog.ne hbP (tail + 1) (by omega)
    have hdrop : s.log.lh.drop tail = s.log.lh.getD tail 0 :: s.log.lh.drop (tail + 1) := by
      rw [List.drop_eq_getElem_cons ht, List.getD_eq_getElem?_getD, List.getElem?_eq_getElem ht, Option.getD_some]
    have hP : s.log.lh.getD tail 0 ∉ s.log.lh.drop (tail + 1) := by
      have hnd := hlog.nodup.sublist (List.drop_sublist tail _)
      rw [hdrop] at hnd
      exact (List.nodup_cons.mp hnd).1
    rw [hdrop] at h
    have hPlen : (s.log.lh.getD tail 0 :: s.log.lh.drop (tail + 1)).length < NBUF := by
      rw [← hdrop, List.length_drop]
      omega
    obtain ⟨_, s₁, hrun⟩ := install_trans_body_runs (p := p) h hfree hPlen hdev rfl rfl (by omega)
      List.mem_cons_self hne
    obtain ⟨hc, -, -, hsame, hlock⟩ :=
      h.install_trans_body hdev hP rfl (by omega) (hlog.small _ hbP) rfl (hcopied tail ht) hrun
    have hfree₁ : ∀ i, (s₁.buf i).lock = none := fun i => (hlock.lock i).trans (hfree i)
    rw [← hsame] at hlog hdev hstart hn hc hm hcopied ⊢
    obtain ⟨s', hloop, hrest⟩ := ih hlog hdev hstart hn hc hfree₁ (by omega) hcopied
    refine ⟨s', ?_, hrest⟩
    rw [for_tail, run_bind hrun]
    exact hloop

end loops

theorem no_references (h : Coherent s {} [] last) (hfree : (s.buf i).lock = none) (hi : i < NBUF) :
    (s.buf i).refcnt = 0 := by
  rw [h.refs i hi, references, hfree]
  simp

theorem commit_completes (h : Admitted s) (hn : s.log.lh.length < NBUF) (p : Nat) :
    ∃ s', commit p s = .ok ((), s') ∧ ∀ i < NBUF, (s'.buf i).refcnt = 0 := by
  obtain ⟨last, hc⟩ := h.coherent
  unfold commit getLog
  rw [run_bind (run_gets _)]
  split
  · obtain ⟨s₁, last₁, hrun₁, hc₁, hfree₁, hlog₁, hcopied⟩ := write_log_loop (p := p) h.loggable h.dev h.start hn hc
      h.free (Nat.zero_add _) (by simp)
    have hwrite : write_log p s = .ok ((), s₁) := by
      unfold write_log getLog
      rw [run_bind (run_gets _)]
      exact hrun₁
    have hlh₁ := h.loggable
    have hdev₁ := h.dev
    have hstart₁ := h.start
    rw [← hlog₁] at hc₁ hn hlh₁ hdev₁ hstart₁ hcopied
    obtain ⟨_, s₂, hhead⟩ := write_head_runs (p := p) hc₁ hfree₁ hn hdev₁ (by omega)
    obtain ⟨hc₂, hputs, hlock⟩ := hc₁.write_head hdev₁ (by omega) hhead
    have hfree₂ : ∀ i, (s₂.buf i).lock = none := fun i => (hlock.lock i).trans (hfree₁ i)
    -- The header is not one of the blocks copied or logged.
    have hcopied₂ : ∀ j < s₁.log.lh.length,
        Function.update last₁ s₁.log.start (header_fill s₁.log.lh (last₁ s₁.log.start)) (s₁.log.start + j + 1) =
          Function.update last₁ s₁.log.start (header_fill s₁.log.lh (last₁ s₁.log.start)) (s₁.log.lh.getD j 0) := by
      intro j hj
      have hne := hlh₁.ne (Loggable.getD_mem hj) 0 (Nat.zero_le _)
      rw [Function.update_of_ne (by omega), Function.update_of_ne (by omega)]
      exact hcopied j hj
    rw [← hputs.log] at hc₂ hcopied₂ hlh₁ hdev₁ hstart₁ hn
    rw [← List.drop_zero (l := s₂.log.lh)] at hc₂
    obtain ⟨s₃, hrun₃, hc₃, hfree₃, hlog₃⟩ := install_trans_loop (p := p) hlh₁ hdev₁ hstart₁ hn hc₂ hfree₂
      (Nat.zero_add _) hcopied₂
    have hinstall : install_trans p false s₂ = .ok ((), s₃) := by
      unfold install_trans getLog
      rw [run_bind (run_gets _)]
      exact hrun₃
    have hc₄ := hc₃.setLog fun log => { log with lh := [] }
    have hfree₄ : ∀ i, ((s₃.setLog fun log => { log with lh := [] }).buf i).lock = none := hfree₃
    rw [← hlog₃] at hdev₁ hstart₁
    have hstart₄ : (s₃.setLog fun log => { log with lh := [] }).log.start < 2 ^ 32 := by
      simp only [setLog_log]
      omega
    obtain ⟨_, s₅, hhead'⟩ := write_head_runs (p := p) hc₄ hfree₄ (by decide) hdev₁ hstart₄
    obtain ⟨hc₅, -, hlock₅⟩ := hc₄.write_head hdev₁ hstart₄ hhead'
    refine ⟨s₅, ?_, fun i hi => no_references hc₅ ((hlock₅.lock i).trans (hfree₄ i)) hi⟩
    rw [run_bind hwrite, run_bind hhead, run_bind hinstall]
    unfold clear_lh setLog
    rw [run_bind (run_update _)]
    exact hhead'
  · rename_i hzero
    have hnil : s.log.lh = [] := List.length_eq_zero_iff.mp (by omega)
    rw [hnil] at hc
    exact ⟨s, rfl, fun i hi => no_references hc (h.free i) hi⟩

theorem commit_no_buffers (h : Admitted s) (hn : s.log.lh.length = NBUF) (p : Nat) :
    commit p s = .error "bget: no buffers" := by
  obtain ⟨last, hc⟩ := h.coherent
  have hlen := h.loggable.length
  -- Every buffer is the pinned buffer of a logged block.
  have hall : ∀ i < NBUF, ∃ b ∈ s.log.lh, s.Holds i b := by
    choose! f hf using hc.cached
    have hinj : Set.InjOn f s.log.lh.toFinset := by
      intro b hb b' hb' heq
      rw [Finset.mem_coe, List.mem_toFinset] at hb hb'
      rw [← (hf b hb).1.2.2, ← (hf b' hb').1.2.2, heq]
    have himage : s.log.lh.toFinset.image f = Finset.range NBUF := by
      apply Finset.eq_of_subset_of_card_le
      · intro i hi
        obtain ⟨b, hb, rfl⟩ := Finset.mem_image.mp hi
        exact Finset.mem_range.mpr (hf b (List.mem_toFinset.mp hb)).1.1
      · rw [Finset.card_image_of_injOn hinj, List.toFinset_card_of_nodup h.loggable.nodup, hn, Finset.card_range]
    intro i hi
    have := Finset.mem_range.mpr hi
    rw [← himage] at this
    obtain ⟨b, hb, rfl⟩ := Finset.mem_image.mp this
    exact ⟨b, List.mem_toFinset.mp hb, (hf b (List.mem_toFinset.mp hb)).1⟩
  have hlookup : s.lookup ROOTDEV (s.log.start + 0 + 1) = none := by
    rw [hc.lookup_none]
    intro i hi
    obtain ⟨b, hb, hib⟩ := hall i hi.1
    exact h.loggable.ne hb 1 (by decide) (hi.2.2.symm.trans hib.2.2)
  have hunused : s.unused = none := by
    rw [hc.unused_none]
    intro i hi hz
    obtain ⟨b, hb, hib⟩ := hall i hi
    exact (hc.unreferenced hi hz).2.2.2 b hib hb
  have hget : bget_ref ROOTDEV (s.log.start + 0 + 1) s = .error "bget: no buffers" := by
    unfold bget_ref
    rw [run_bind (run_gets _)]
    simp only [id, hlookup, hunused]
    rfl
  have hread : bread p s.log.dev (s.log.start + 0 + 1) s = .error "bget: no buffers" := by
    rw [h.dev]
    unfold bread bget
    exact run_bind_error (run_bind_error hget)
  have hbody : write_log_body p 0 s = .error "bget: no buffers" := by
    unfold write_log_body getLog
    rw [run_bind (run_gets _)]
    exact run_bind_error hread
  have hlog : write_log p s = .error "bget: no buffers" := by
    unfold write_log getLog
    rw [run_bind (run_gets _), hn]
    exact run_bind_error hbody
  unfold commit getLog
  rw [run_bind (run_gets _), if_pos (by rw [hn]; decide)]
  exact run_bind_error hlog

/-- A commit completes, and takes every pin of the log, exactly when the transaction leaves a
buffer free. The log admits one more block, and then there is none for the first log block. -/
theorem commit_completes_iff (h : Admitted s) (p : Nat) :
    ((∃ s', commit p s = .ok ((), s') ∧ ∀ i < NBUF, (s'.buf i).refcnt = 0) ↔ s.log.lh.length < NBUF) ∧
    (¬ s.log.lh.length < NBUF → commit p s = .error "bget: no buffers") := by
  have hfull : ¬ s.log.lh.length < NBUF → commit p s = .error "bget: no buffers" := by
    intro hn
    have hlen := h.loggable.length
    exact commit_no_buffers h (by simp only [NBUF, LOGBLOCKS] at *; omega) p
  refine ⟨⟨?_, fun hn => commit_completes h hn p⟩, hfull⟩
  rintro ⟨s', hrun, -⟩
  by_contra hn
  rw [hfull hn] at hrun
  cases hrun

def pinnedLog (n : Nat) : Store where
  disk _ _ := 0
  buf i := if i < n then { valid := true, dev := ROOTDEV, blockno := 100 + i, refcnt := 1 } else {}
  lru := List.range NBUF
  log := { start := 2, dev := ROOTDEV, lh := (List.range n).map (100 + ·) }

theorem pinnedLog_holds {n : Nat} (hn : n ≤ NBUF) : (pinnedLog n).Holds i b ↔ i < n ∧ b = 100 + i := by
  unfold Holds
  simp only [pinnedLog]
  by_cases hi : i < n
  · rw [if_pos hi]
    exact ⟨fun h => ⟨hi, h.2.2.symm⟩, fun h => ⟨by omega, rfl, h.2.symm⟩⟩
  · rw [if_neg hi]
    exact ⟨fun h => absurd h.2.1 (by decide), fun h => absurd h.1 hi⟩

theorem pinnedLog_view {n : Nat} (b : Nat) : (pinnedLog n).view b = fun _ => 0 := by
  have hdata : ∀ i, ((pinnedLog n).buf i).data = fun _ => 0 := by
    intro i
    simp only [pinnedLog]
    split <;> rfl
  unfold view
  split
  · rw [hdata]
    simp [pinnedLog]
  · rfl

theorem pinnedLog_lock {n : Nat} (i : Nat) : ((pinnedLog n).buf i).lock = none := by
  simp only [pinnedLog]
  split <;> rfl

theorem pinnedLog_admitted {n : Nat} (hn : n ≤ LOGBLOCKS) : Admitted (pinnedLog n) := by
  have hH : ∀ {i b : Nat}, (pinnedLog n).Holds i b ↔ i < n ∧ b = 100 + i := pinnedLog_holds hn
  have hmem : ∀ b, b ∈ (pinnedLog n).log.lh ↔ ∃ i < n, b = 100 + i := by
    intro b
    simp only [pinnedLog, List.mem_map, List.mem_range, eq_comm]
  refine ⟨⟨fun _ _ => 0, ?_⟩, pinnedLog_lock, rfl, by simp only [pinnedLog]; decide, ?_⟩
  · refine ⟨⟨fun i => List.mem_range, ?_⟩, ?_, ?_, ?_, by simp, by simp, fun i _ => pinnedLog_lock i, ?_,
      fun i hi => absurd (pinnedLog_lock i) hi, by simp, fun b _ _ => pinnedLog_view b, fun b _ => pinnedLog_view b⟩
    · intro i j b hi hj
      rw [hH] at hi hj
      omega
    · intro i hi
      rw [references, pinnedLog_lock]
      simp only [hmem]
      by_cases hin : i < n <;> simp [pinnedLog, hin]
    · intro i _ hz
      by_cases hin : i < n
      · simp [pinnedLog, hin]
      · simp [pinnedLog, hin] at hz
    · intro i
      simp only [pinnedLog]
      split
      · simp only [LOGBLOCKS, MAXOPBLOCKS] at hn
        simp only
        omega
      · decide
    · intro b hb
      obtain ⟨i, hi, rfl⟩ := (hmem b).mp hb
      exact ⟨i, hH.mpr ⟨hi, rfl⟩, by simp [pinnedLog, hi]⟩
  · refine ⟨?_, by simpa [pinnedLog] using hn, ?_, ?_⟩
    · exact List.nodup_range.map fun a b hab => by simpa using hab
    · intro b hb
      obtain ⟨i, -, rfl⟩ := (hmem b).mp hb
      exact .inr (by simp only [pinnedLog, LOGBLOCKS, MAXOPBLOCKS]; omega)
    · intro b hb
      obtain ⟨i, hi, rfl⟩ := (hmem b).mp hb
      simp only [LOGBLOCKS, MAXOPBLOCKS] at hn
      omega

theorem commit_completes_iff_twenty_nine : Admitted (pinnedLog 29) ∧
    ∃ s', commit 1 (pinnedLog 29) = .ok ((), s') ∧ ∀ i < NBUF, (s'.buf i).refcnt = 0 :=
  ⟨pinnedLog_admitted (by decide), (commit_completes_iff (pinnedLog_admitted (by decide)) 1).1.mpr (by decide)⟩

theorem largest_transaction_panics : Admitted (pinnedLog LOGBLOCKS) ∧
    commit 1 (pinnedLog LOGBLOCKS) = .error "bget: no buffers" :=
  ⟨pinnedLog_admitted le_rfl, commit_no_buffers (pinnedLog_admitted le_rfl) (by decide) 1⟩

end Xv6.Fs
