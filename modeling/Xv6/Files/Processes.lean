import Xv6.Files.Holding
import Xv6.Files.Openings

/-!
# The books in every run

Each system call keeps the counts, and so does every sequence of them by any number of processes.
-/

open Xv6.Lib Op

namespace Xv6.Files

open State

variable {s t u : State} {i p np fd f c ip k : Nat} {J K : List Nat} {P : Nat → Proc} {T : Nat → File} {path : List Byte}

/-! ## Current directories -/

theorem fdOf_setCwd (v : Option Nat) : fdOf (Function.update P p { P p with cwd := v }) = fdOf P := by
  funext x
  obtain ⟨q, k⟩ := x
  rw [fdOf]
  by_cases hq : q = p
  · subst hq
    rw [Function.update_self]
    rfl
  · rw [Function.update_of_ne hq]
    rfl

theorem holders_setCwd (hp : p < NPROC) (v : Option Nat) :
    holders (Function.update P p { P p with cwd := v }) T i + (if (P p).cwd = some i then 1 else 0) =
      holders P T i + (if v = some i then 1 else 0) := by
  have hupdate := refCount_update (P := i) (f := Proc.cwd ∘ P) (mem_processes.mpr hp) v
  rw [Function.comp_apply] at hupdate
  rw [holders, holders, Function.comp_update]
  dsimp only
  omega

namespace Ledger

theorem setCwd {K' : List Nat} {v : Option Nat} (h : Ledger J K P s) (hp : p < NPROC)
    (hK : ∀ i, K'.count i + (if v = some i then 1 else 0) = K.count i + (if (P p).cwd = some i then 1 else 0)) :
    Ledger J K' (Function.update P p { P p with cwd := v }) s := by
  refine ⟨⟨?_, fun q k g hg => ?_, h.books.mine, h.books.type, h.books.ends, h.books.page⟩, fun i => ?_⟩
  · rw [fdOf_setCwd]
    exact h.books.refs
  · have hg' : fdOf (Function.update P p { P p with cwd := v }) (q, k) = some g := hg
    rw [fdOf_setCwd] at hg'
    exact h.books.bound q k g hg'
  · have := holders_setCwd (P := P) (T := s.ftable) (i := i) hp v
    have := hK i
    have := h.refs i
    omega

/-! ## Opening -/

theorem openInode {g : File → File} (h : Ledger J (ip :: K) P s) (hf : f < NFILE) (htype : (s.ftable f).type = .none)
    (hpos : 0 < (s.ftable f).ref) (hg : (g (s.ftable f)).ref = (s.ftable f).ref)
    (hg' : (g (s.ftable f)).type = .inode ∨ (g (s.ftable f)).type = .device) (hip : (g (s.ftable f)).ip = ip) :
    Ledger J K P (s.setFile f g) := by
  have hold : (File.inode ∘ s.ftable) f = none := by simp [File.inode, htype]
  have hnew : (g (s.ftable f)).inode = some ip := by rw [File.inode, if_pos hg', hip]
  refine ⟨?_, fun i => ?_⟩
  · refine h.books.setFile ?_ (fun _ _ => rfl) h.books.mine (fun hzero => absurd hzero (by omega)) ?_
    · rw [hg]
      exact h.books.refs f
    · rw [File.pipeEnd, File.pipeEnd, if_neg, if_neg (by simp [htype])]
      rcases hg' with hg' | hg' <;> simp [hg']
  · have hupdate := refCount_update (P := i) (f := File.inode ∘ s.ftable) (mem_files.mpr hf) (some ip)
    rw [hold, if_neg (c := none = some i) (by simp)] at hupdate
    have hrefs := h.refs i
    show (s.itable i).ref = holders P (Function.update s.ftable f _) i + _
    rw [holders] at hrefs ⊢
    rw [Function.comp_update, hnew]
    by_cases hi : i = ip
    · subst hi
      rw [List.count_cons_self] at hrefs
      rw [if_pos rfl] at hupdate
      omega
    · rw [List.count_cons_of_ne (Ne.symm hi)] at hrefs
      rw [if_neg (by simpa using Ne.symm hi)] at hupdate
      omega

end Ledger

/-! ## Between system calls -/

structure Sound (s : State) : Prop where
  ledger : Ledger [] [] s.proc s
  dead : ∀ p, (s.proc p).cwd = none → ∀ fd, (s.proc p).ofile fd = none

namespace Sound

theorem inside {α : Type} {x : F α} (h : Sound s)
    (hx : ∀ {R : Nat → Nat}, Counts s R [] s → Ends x s (fun _ t => Counts s R [] t) Fine) :
    Ends x s (fun _ t => Sound t) Fine :=
  (hx h.ledger.counts).mono fun _ t ht =>
    ⟨by rw [ht.proc]; exact h.ledger.of_counts ht, by rw [ht.proc]; exact h.dead⟩

theorem of_ofile {o : Nat → Option Nat} (h : Sound s) (hlive : (s.proc p).cwd ≠ none) (ht : Ledger [] [] t.proc t)
    (hproc : t.proc = Function.update s.proc p { s.proc p with ofile := o }) : Sound t := by
  refine ⟨ht, fun q hq => ?_⟩
  rw [hproc] at hq ⊢
  by_cases hqp : q = p
  · rw [hqp, Function.update_self] at hq
    exact absurd hq hlive
  · rw [Function.update_of_ne hqp] at hq ⊢
    exact h.dead q hq

theorem of_proc (h : Sound s) (ht : Ledger [] [] t.proc t) (hproc : t.proc = s.proc) : Sound t :=
  ⟨ht, by rw [hproc]; exact h.dead⟩

/-! ## Descriptors -/

theorem sys_close (h : Sound s) (hlive : (s.proc p).cwd ≠ none) :
    Ends (sys_close p fd) s (fun _ t => Sound t) Fine := by
  unfold Files.sys_close
  simp only [ends_bind, argfd, ends_gets]
  cases hget : if fd < NOFILE then (s.proc p).ofile fd else none with
  | none => exact h
  | some f =>
    have hget : (s.proc p).ofile fd = some f := by
      split at hget
      · exact hget
      · cases hget
    simp only [ends_bind, ends_update, ends_pure]
    refine Ends.mono (Ledger.fileclose (h.ledger.take hget).setProc) fun _ t ht => ?_
    exact h.of_ofile hlive (by rw [ht.2]; exact ht.1) ht.2

theorem sys_dup (h : Sound s) (hlive : (s.proc p).cwd ≠ none) (hp : p < NPROC) :
    Ends (sys_dup p fd) s (fun _ t => Sound t) Fine := by
  unfold Files.sys_dup
  simp only [ends_bind, argfd, ends_gets]
  cases hget : if fd < NOFILE then (s.proc p).ofile fd else none with
  | none => exact h
  | some f =>
    have hget : (s.proc p).ofile fd = some f := by
      split at hget
      · exact hget
      · cases hget
    simp only [ends_bind, fdalloc, ends_gets]
    cases hfind : (List.range NOFILE).find? fun fd => ((s.proc p).ofile fd).isNone with
    | none => exact h
    | some fd' =>
      have hlt : fd' < NOFILE := List.mem_range.mp (List.mem_of_find?_eq_some hfind)
      have hnone : (s.proc p).ofile fd' = none := by simpa using List.find?_some hfind
      simp only [ends_bind, ends_update, ends_pure]
      -- The descriptor is there before the count goes up.
      obtain ⟨v, hv⟩ : ∃ v, v = s.setProc p fun q => { q with ofile := Function.update q.ofile fd' (some f) } := ⟨_, rfl⟩
      rw [← hv]
      have hledger : Ledger [] [] s.proc v := by
        rw [hv]
        exact h.ledger.setProc
      have hpos : 0 < (v.ftable f).ref := hledger.ref_pos_of_fd hget
      refine Ends.mono (hledger.filedup hpos (h.ledger.books.bound p fd f hget).2.2) fun _ t ht => ?_
      have hproc : t.proc = Function.update s.proc p
          { s.proc p with ofile := Function.update (s.proc p).ofile fd' (some f) } := by
        rw [ht.2, hv]
        rfl
      refine h.of_ofile hlive ?_ hproc
      rw [hproc]
      exact ht.1.give hp hlt hnone

/-! ## Opening -/

variable [Super]

theorem sys_open {omode : Nat} (h : Sound s) (hlive : (s.proc p).cwd ≠ none) (hp : p < NPROC) :
    Ends (sys_open p path omode) s (fun _ t => Sound t) Fine := by
  unfold Files.sys_open
  rw [ends_bind, cwd, ends_gets, ends_bind]
  refine h.ledger.counts.sys_open_inode.mono ?_
  rintro (_ | ip) t ht
  · exact h.of_proc (by rw [ht.proc]; exact h.ledger.of_counts ht) ht.proc
  · have hput : ∀ {v : State}, Ledger [] [ip] s.proc v → v.proc = s.proc →
        Ends (iunlockput ip) v (fun _ w => Sound w) Fine := by
      intro v hv hproc
      refine hv.counts.iunlockput.mono fun _ w hw => h.of_proc ?_ (hw.proc.trans hproc)
      rw [hw.proc, hproc]
      exact hv.of_counts hw
    have hledger : Ledger [] [ip] s.proc t := h.ledger.of_counts ht
    have hproc : t.proc = s.proc := ht.proc
    rw [ends_bind, Files.inode, ends_gets, ends_ite]
    refine ⟨fun _ => ?_, fun _ => ?_⟩
    · rw [ends_bind]
      exact (hput hledger hproc).mono fun _ _ h => h
    · simp only [sys_open_file, ends_bind]
      refine hledger.filealloc.mono ?_
      rintro (_ | f) v hv
      · obtain rfl : v = t := hv
        rw [ends_pure, ends_bind]
        exact (hput hledger hproc).mono fun _ _ h => h
      · obtain ⟨hv, hvproc, htype, -⟩ := hv
        have hv' : Ledger [f] [ip] v.proc v := by rwa [hvproc, hproc]
        rw [ends_bind]
        refine (hv'.fdalloc hp).mono ?_
        rintro (_ | fd) w hw
        · obtain rfl : w = v := hw
          rw [ends_bind]
          refine Ends.mono (Ledger.fileclose hv) fun _ w hw => ?_
          rw [ends_pure, ends_bind]
          exact (hput hw.1 (hw.2.trans (hvproc.trans hproc))).mono fun _ _ h => h
        · obtain ⟨hw, -, hwv⟩ := hw
          have hwproc : w.proc = Function.update s.proc p
              { s.proc p with ofile := Function.update (s.proc p).ofile fd (some f) } := by
            rw [hwv, ← hproc, ← hvproc]
            rfl
          have htable : w.ftable = v.ftable := by
            rw [hwv]
            rfl
          have hpos : 0 < (v.ftable f).ref := by
            rw [hv.books.refs, List.count_cons_self]
            omega
          simp only [ends_pure, ends_bind, ends_update]
          refine Ends.mono (Ledger.leaves (hw.openInode (hv.books.mine f List.mem_cons_self) (by rw [htable, htype])
            (by rw [htable]; exact hpos) rfl ?_ rfl) (.when Leaves.itrunc)) fun _ x hx => ?_
          · dsimp only
            split
            · exact .inr rfl
            · exact .inl rfl
          · refine (hx.1.leaves Leaves.iunlock).mono fun _ y hy => ?_
            have hyproc : y.proc = w.proc := hy.2.trans hx.2
            exact h.of_ofile hlive (by rw [hyproc]; exact hy.1) (hyproc.trans hwproc)

theorem sys_chdir (h : Sound s) (hcwd : (s.proc p).cwd = some c) (hp : p < NPROC) :
    Ends (sys_chdir p path) s (fun _ t => Sound t) Fine := by
  unfold Files.sys_chdir
  rw [ends_bind, cwd, ends_gets, ends_bind, hcwd, Option.getD_some]
  refine h.ledger.counts.namei.mono ?_
  rintro (_ | ip) t ht
  · exact h.of_proc (by rw [ht.proc]; exact h.ledger.of_counts ht) ht.proc
  · have hledger : Ledger [] [ip] s.proc t := h.ledger.of_counts ht
    have hproc : t.proc = s.proc := ht.proc
    rw [ends_bind]
    refine (hledger.leaves Leaves.ilock).mono fun _ v hv => ?_
    rw [ends_bind, Files.inode, ends_gets, ends_ite]
    refine ⟨fun _ => ?_, fun _ => ?_⟩
    · rw [ends_bind]
      refine hv.1.counts.iunlockput.mono fun _ w hw => ?_
      have hwproc : w.proc = s.proc := hw.proc.trans (hv.2.trans hproc)
      exact h.of_proc (by rw [hwproc]; exact hv.1.of_counts hw) hwproc
    · rw [ends_bind]
      refine (hv.1.leaves Leaves.iunlock).mono fun _ w hw => ?_
      have hnew : Ledger [] [c] (Function.update s.proc p { s.proc p with cwd := some ip }) w := by
        refine hw.1.setCwd hp fun i => ?_
        rw [hcwd, List.count_singleton, List.count_singleton]
        simp only [Option.some.injEq, beq_iff_eq]
        omega
      simp only [ends_bind, ends_update, ends_pure]
      refine hnew.counts.iput.mono fun _ x hx => ?_
      have hxproc : x.proc = s.proc := hx.proc.trans (hw.2.trans (hv.2.trans hproc))
      have hset : (x.setProc p fun q => { q with cwd := some ip }).proc =
          Function.update s.proc p { s.proc p with cwd := some ip } := by
        rw [State.setProc, hxproc]
      refine ⟨?_, fun q hq => ?_⟩
      · rw [hset]
        exact (hnew.of_counts hx).setProc
      · rw [hset] at hq ⊢
        by_cases hqp : q = p
        · rw [hqp, Function.update_self] at hq
          cases hq
        · rw [Function.update_of_ne hqp] at hq ⊢
          exact h.dead q hq

/-! ## Processes -/

omit [Super]

theorem dup_files (hnp : np < NPROC) (h : Ledger [] [] s.proc s) (hk : k ≤ NOFILE)
    (hfree : ∀ fd, NOFILE - k ≤ fd → (s.proc np).ofile fd = none) :
    Ends (dup_files p np k) s (fun _ t => Ledger [] [] t.proc t ∧ ∃ o, t.proc =
      Function.update s.proc np { s.proc np with ofile := o }) Fine := by
  induction k generalizing s with
  | zero => exact ⟨h, (s.proc np).ofile, (Function.update_eq_self _ _).symm⟩
  | succ k ih =>
    have hlt : NOFILE - (k + 1) < NOFILE := by omega
    simp only [Files.dup_files, ends_bind, argfd, ends_gets, if_pos hlt]
    cases hget : (s.proc p).ofile (NOFILE - (k + 1)) with
    | none => exact ih h (by omega) fun fd hfd => hfree fd (by omega)
    | some f =>
      simp only [ends_bind, ends_update]
      refine Ends.mono (h.filedup (h.ref_pos_of_fd hget) (h.books.bound p _ f hget).2.2) fun _ t ht => ?_
      have hset : (t.setProc np fun q => { q with ofile := Function.update q.ofile (NOFILE - (k + 1)) (some f) }).proc =
          Function.update s.proc np
            { s.proc np with ofile := Function.update (s.proc np).ofile (NOFILE - (k + 1)) (some f) } := by
        rw [State.setProc, ht.2]
      refine Ends.mono (ih ?_ (by omega) fun fd hfd => ?_) fun _ v hv => ⟨hv.1, ?_⟩
      · rw [hset]
        exact (ht.1.give hnp hlt (hfree _ (Nat.le_refl _))).setProc
      · rw [hset, Function.update_self]
        show Function.update (s.proc np).ofile _ _ fd = none
        rw [Function.update_of_ne (by omega)]
        exact hfree fd (by omega)
      · obtain ⟨o, ho⟩ := hv.2
        refine ⟨o, ?_⟩
        rw [ho, hset, Function.update_idem, Function.update_self]

theorem fork_to (h : Sound s) (hcwd : (s.proc p).cwd = some c) (hnp : np < NPROC) (hfree : (s.proc np).cwd = none) :
    Ends (fork_to p np) s (fun _ t => Sound t) Fine := by
  have hpn : p ≠ np := by
    rintro rfl
    rw [hcwd] at hfree
    cases hfree
  unfold Files.fork_to
  rw [ends_bind]
  refine (dup_files hnp h.ledger (Nat.le_refl _) fun fd _ => h.dead np hfree fd).mono fun _ t ht => ?_
  obtain ⟨ht, o, ho⟩ := ht
  have hcwd' : (t.proc p).cwd = some c := by rw [ho, Function.update_of_ne hpn, hcwd]
  have hnone : (t.proc np).cwd = none := by rw [ho, Function.update_self]; exact hfree
  rw [ends_bind, cwd, ends_gets, hcwd', Option.getD_some]
  simp only [ends_bind, ends_update]
  refine ht.counts.idup.mono fun _ v hv => ?_
  have hset : (v.setProc np fun q => { q with cwd := some c }).proc =
      Function.update t.proc np { t.proc np with cwd := some c } := by
    rw [State.setProc, hv.proc]
  refine ⟨?_, fun q hq => ?_⟩
  · rw [hset]
    refine Ledger.setProc ((ht.of_counts hv).setCwd hnp fun i => ?_)
    rw [hnone, if_neg (c := none = some i) (by simp), List.count_singleton]
    simp only [List.count_nil, Option.some.injEq, beq_iff_eq, Nat.zero_add, Nat.add_zero]
  · rw [hset] at hq ⊢
    by_cases hqn : q = np
    · rw [hqn, Function.update_self] at hq
      cases hq
    · rw [Function.update_of_ne hqn, ho, Function.update_of_ne hqn] at hq ⊢
      exact h.dead q hq

theorem close_files (h : Ledger [] [] s.proc s) (hk : k ≤ NOFILE) :
    Ends (close_files p k) s (fun _ t => Ledger [] [] t.proc t ∧ ∃ o, t.proc =
      Function.update s.proc p { s.proc p with ofile := o } ∧ (∀ fd, NOFILE - k ≤ fd → o fd = none) ∧
        ∀ fd, fd < NOFILE - k → o fd = (s.proc p).ofile fd) Fine := by
  induction k generalizing s with
  | zero =>
    refine ⟨h, (s.proc p).ofile, (Function.update_eq_self _ _).symm, fun fd hfd => ?_, fun _ _ => rfl⟩
    cases hget : (s.proc p).ofile fd with
    | none => rfl
    | some f =>
      have := (h.books.bound p fd f hget).2.1
      omega
  | succ k ih =>
    have hlt : NOFILE - (k + 1) < NOFILE := by omega
    simp only [Files.close_files, ends_bind, argfd, ends_gets, if_pos hlt]
    cases hget : (s.proc p).ofile (NOFILE - (k + 1)) with
    | none =>
      refine (ih h (by omega)).mono fun _ t ht => ?_
      obtain ⟨ht, o, ho, hnone, hsame⟩ := ht
      refine ⟨ht, o, ho, fun fd hfd => ?_, fun fd hfd => hsame fd (by omega)⟩
      by_cases he : fd = NOFILE - (k + 1)
      · rw [he, hsame _ (by omega), hget]
      · exact hnone fd (by omega)
    | some f =>
      simp only [ends_bind, ends_update]
      refine Ends.mono (Ledger.fileclose (h.take hget)) fun _ t ht => ?_
      have hset : (t.setProc p fun q => { q with ofile := Function.update q.ofile (NOFILE - (k + 1)) none }).proc =
          Function.update s.proc p { s.proc p with ofile := Function.update (s.proc p).ofile (NOFILE - (k + 1)) none } := by
        rw [State.setProc, ht.2]
      refine Ends.mono (ih ?_ (by omega)) fun _ v hv => ⟨hv.1, ?_⟩
      · rw [hset]
        exact ht.1.setProc
      · obtain ⟨o, ho, hnone, hsame⟩ := hv.2
        rw [hset, Function.update_idem, Function.update_self] at ho
        rw [hset, Function.update_self] at hsame
        refine ⟨o, ho, fun fd hfd => ?_, fun fd hfd => ?_⟩
        · by_cases he : fd = NOFILE - (k + 1)
          · rw [he, hsame _ (by omega)]
            exact Function.update_self ..
          · exact hnone fd (by omega)
        · rw [hsame fd (by omega)]
          exact Function.update_of_ne (by omega) ..

theorem exit_files (h : Sound s) (hcwd : (s.proc p).cwd = some c) (hp : p < NPROC) :
    Ends (exit_files p) s (fun _ t => Sound t) Fine := by
  unfold Files.exit_files
  rw [ends_bind]
  refine (close_files h.ledger (Nat.le_refl _)).mono fun _ t ht => ?_
  obtain ⟨ht, o, ho, hnone, -⟩ := ht
  have hcwd' : (t.proc p).cwd = some c := by
    rw [ho, Function.update_self]
    exact hcwd
  rw [ends_bind, cwd, ends_gets, hcwd', Option.getD_some]
  have hnew : Ledger [] [c] (Function.update t.proc p { t.proc p with cwd := none }) t := by
    refine ht.setCwd hp fun i => ?_
    rw [hcwd', if_neg (c := none = some i) (by simp), List.count_singleton]
    simp only [List.count_nil, Option.some.injEq, beq_iff_eq, Nat.zero_add, Nat.add_zero]
  simp only [ends_bind, ends_update]
  refine hnew.counts.iput.mono fun _ v hv => ?_
  have hset : (v.setProc p fun q => { q with cwd := none }).proc =
      Function.update t.proc p { t.proc p with cwd := none } := by
    rw [State.setProc, hv.proc]
  refine ⟨?_, fun q hq fd => ?_⟩
  · rw [hset]
    exact (hnew.of_counts hv).setProc
  · rw [hset] at hq ⊢
    by_cases hqp : q = p
    · rw [hqp, Function.update_self, ho, Function.update_self]
      exact hnone fd (by omega)
    · rw [Function.update_of_ne hqp, ho, Function.update_of_ne hqp] at hq ⊢
      exact h.dead q hq fd

theorem userinit_files [Super] (h : Sound s) (hp : p < NPROC) (hfree : (s.proc p).cwd = none) :
    Ends (userinit_files p) s (fun _ t => Sound t) Fine := by
  unfold Files.userinit_files
  rw [ends_bind]
  refine h.ledger.counts.namei.mono fun r t ht => ?_
  have hc : Counts s (holders s.proc s.ftable) r.toList t := by
    cases r with
    | none => exact ht
    | some ip => exact ht
  have hset : (t.setProc p fun q => { q with cwd := r }).proc = Function.update s.proc p { s.proc p with cwd := r } := by
    rw [State.setProc, hc.proc]
  refine ⟨?_, fun q hq => ?_⟩
  · rw [hset]
    refine Ledger.setProc ((h.ledger.of_counts hc).setCwd hp fun i => ?_)
    rw [hfree, if_neg (c := none = some i) (by simp)]
    cases r with
    | none => rfl
    | some ip =>
      rw [Option.toList_some, List.count_singleton]
      simp only [List.count_nil, Option.some.injEq, beq_iff_eq, Nat.zero_add, Nat.add_zero]
  · rw [hset] at hq ⊢
    by_cases hqp : q = p
    · rw [hqp, Function.update_self]
      exact h.dead p hfree
    · rw [Function.update_of_ne hqp] at hq ⊢
      exact h.dead q hq

end Sound

/-! ## Pipes -/

namespace Ledger

theorem openPipe {f0 f1 pi : Nat} {g0 g1 : File → File} (h : Ledger J K P s) (hne : f0 ≠ f1)
    (hf0 : f0 < NFILE) (hf1 : f1 < NFILE) (ht0 : (s.ftable f0).type = .none) (ht1 : (s.ftable f1).type = .none)
    (hpos0 : 0 < (s.ftable f0).ref) (hpos1 : 0 < (s.ftable f1).ref) (hpi : s.pipe pi = none)
    (hr0 : (g0 (s.ftable f0)).ref = (s.ftable f0).ref) (hr1 : (g1 (s.ftable f1)).ref = (s.ftable f1).ref)
    (hg0 : (g0 (s.ftable f0)).type = .pipe ∧ (g0 (s.ftable f0)).pipe = pi ∧ (g0 (s.ftable f0)).writable = false)
    (hg1 : (g1 (s.ftable f1)).type = .pipe ∧ (g1 (s.ftable f1)).pipe = pi ∧ (g1 (s.ftable f1)).writable = true) :
    Ledger J K P (((s.setPipe pi (some ⟨true, true⟩)).setFile f0 g0).setFile f1 g1) := by
  obtain ⟨T', hT'⟩ : ∃ T', T' = Function.update (Function.update s.ftable f0 (g0 (s.ftable f0))) f1 (g1 (s.ftable f1)) :=
    ⟨_, rfl⟩
  have htable : (((s.setPipe pi (some ⟨true, true⟩)).setFile f0 g0).setFile f1 g1).ftable = T' := by
    show Function.update (Function.update s.ftable f0 _) f1 (g1 (Function.update s.ftable f0 _ f1)) = T'
    rw [hT', Function.update_of_ne (Ne.symm hne)]
    rfl
  have hrest : ∀ g, g ≠ f0 → g ≠ f1 → T' g = s.ftable g := by
    intro g hg0 hg1
    rw [hT', Function.update_of_ne hg1, Function.update_of_ne hg0]
  have hself0 : T' f0 = g0 (s.ftable f0) := by rw [hT', Function.update_of_ne hne, Function.update_self]
  have hself1 : T' f1 = g1 (s.ftable f1) := by rw [hT', Function.update_self]
  have href : ∀ g, (T' g).ref = (s.ftable g).ref := by
    intro g
    by_cases hgf0 : g = f0
    · rw [hgf0, hself0, hr0]
    · by_cases hgf1 : g = f1
      · rw [hgf1, hself1, hr1]
      · rw [hrest g hgf0 hgf1]
  have hinode : File.inode ∘ T' = File.inode ∘ s.ftable := by
    funext g
    by_cases hgf0 : g = f0
    · simp [hgf0, hself0, File.inode, hg0.1, ht0]
    · by_cases hgf1 : g = f1
      · simp [hgf1, hself1, File.inode, hg1.1, ht1]
      · rw [Function.comp_apply, Function.comp_apply, hrest g hgf0 hgf1]
  have hends : File.pipeEnd ∘ T' =
      Function.update (Function.update (File.pipeEnd ∘ s.ftable) f0 (some (pi, false))) f1 (some (pi, true)) := by
    rw [hT', Function.comp_update, Function.comp_update]
    congr 1
    · congr 1
      rw [File.pipeEnd, if_pos hg0.1, hg0.2.1, hg0.2.2]
    · rw [File.pipeEnd, if_pos hg1.1, hg1.2.1, hg1.2.2]
  refine ⟨⟨fun g => ?_, h.books.bound, h.books.mine, fun g => ?_, fun pi' w => ?_, fun pi' q hq => ?_⟩, fun i => ?_⟩
  · rw [htable, href]
    exact h.books.refs g
  · rw [htable, href]
    intro hzero
    have hgf0 : g ≠ f0 := by
      rintro rfl
      omega
    have hgf1 : g ≠ f1 := by
      rintro rfl
      omega
    rw [hrest g hgf0 hgf1]
    exact h.books.type g hzero
  · rw [htable, hends]
    show _ = if endOpen (Function.update s.pipe pi (some ⟨true, true⟩) pi') w = true then 1 else 0
    have h0 : (File.pipeEnd ∘ s.ftable) f0 = none := by simp [File.pipeEnd, ht0]
    have h1 : Function.update (File.pipeEnd ∘ s.ftable) f0 (some (pi, false)) f1 = none := by
      rw [Function.update_of_ne (Ne.symm hne)]
      simp [File.pipeEnd, ht1]
    have hup0 := refCount_update (P := (pi', w)) (f := File.pipeEnd ∘ s.ftable) (mem_files.mpr hf0) (some (pi, false))
    have hup1 := refCount_update (P := (pi', w)) (f := Function.update (File.pipeEnd ∘ s.ftable) f0 (some (pi, false)))
      (mem_files.mpr hf1) (some (pi, true))
    rw [h0, if_neg (c := none = some (pi', w)) (by simp), h.books.ends] at hup0
    rw [h1, if_neg (c := none = some (pi', w)) (by simp)] at hup1
    by_cases hpe : pi' = pi
    · subst hpe
      rw [hpi] at hup0
      rw [Function.update_self]
      cases w
      · simp [endOpen] at hup0 hup1 ⊢
        omega
      · simp [endOpen] at hup0 hup1 ⊢
        omega
    · have hno : ∀ w', some (pi, w') ≠ some (pi', w) := by simp [Ne.symm hpe]
      rw [if_neg (hno false)] at hup0
      rw [if_neg (hno true)] at hup1
      rw [Function.update_of_ne hpe]
      omega
  · change Function.update s.pipe pi (some ⟨true, true⟩) pi' = some q at hq
    by_cases hpe : pi' = pi
    · rw [hpe, Function.update_self] at hq
      cases hq
      exact .inl rfl
    · rw [Function.update_of_ne hpe] at hq
      exact h.books.page pi' q hq
  · rw [htable, holders, hinode]
    exact h.refs i

theorem closeBoth {f0 f1 : Nat} (h : Ledger [f0, f1] K P s) : Ends (do Files.fileclose f0; Files.fileclose f1) s
    (fun _ t => Ledger [] K P t ∧ t.proc = s.proc) Fine := by
  rw [ends_bind]
  refine h.fileclose.mono fun _ t ht => ?_
  exact ht.1.fileclose.mono fun _ v hv => ⟨hv.1, hv.2.trans ht.2⟩

theorem pipealloc {page : Option Nat} (h : Ledger [] K P s) (hpage : ∀ pi ∈ page, s.pipe pi = none) :
    Ends (pipealloc page) s (fun r t => Ledger (r.elim [] fun r => [r.1, r.2]) K P t ∧ t.proc = s.proc) Fine := by
  unfold Files.pipealloc
  rw [ends_bind]
  refine h.filealloc.mono ?_
  rintro (_ | f0) t ht
  · obtain rfl : t = s := ht
    exact ⟨h, rfl⟩
  · obtain ⟨ht, htproc, htype0, -, htpipe, -⟩ := ht
    rw [ends_bind]
    refine ht.filealloc.mono ?_
    rintro (_ | f1) v hv
    · obtain rfl : v = t := hv
      rw [ends_bind]
      exact Ends.mono (Ledger.fileclose ht) fun _ w hw => ⟨hw.1, hw.2.trans htproc⟩
    · obtain ⟨hv, hvproc, htype1, hnew, hvpipe, hvrest⟩ := hv
      have hne : f0 ≠ f1 := by
        rintro rfl
        exact hnew List.mem_cons_self
      have hboth : Ledger [f0, f1] K P v := hv.perm (List.Perm.swap ..)
      cases page with
      | none =>
        have hclose := hboth.closeBoth
        rw [ends_bind] at hclose
        simp only [ends_bind]
        exact Ends.mono hclose fun _ w hw => hw.mono fun _ x hx => ⟨hx.1, hx.2.trans (hvproc.trans htproc)⟩
      | some pi =>
        have hpos : ∀ f ∈ [f0, f1], 0 < (v.ftable f).ref := by
          intro f hf
          rw [hboth.books.refs]
          exact Nat.lt_of_lt_of_le (List.count_pos_iff.mpr hf) (Nat.le_add_left ..)
        simp only [ends_bind, ends_update, ends_pure]
        refine ⟨hboth.openPipe hne (hboth.books.mine f0 ?_) (hboth.books.mine f1 ?_) ?_ htype1 (hpos f0 ?_) (hpos f1 ?_) ?_
          rfl rfl ⟨rfl, rfl, rfl⟩ ⟨rfl, rfl, rfl⟩, hvproc.trans htproc⟩
        · simp
        · simp
        · rw [hvrest f0 hne, htype0]
        · simp
        · simp
        · rw [hvpipe, htpipe]
          exact hpage pi rfl

end Ledger

def OnlyFds (p : Nat) (s t : State) : Prop := ∃ o, t.proc = Function.update s.proc p { s.proc p with ofile := o }

theorem OnlyFds.of_proc (h : t.proc = s.proc) : OnlyFds p s t :=
  ⟨(s.proc p).ofile, by rw [h]; exact (Function.update_eq_self _ _).symm⟩

theorem OnlyFds.set {o : Nat → Option Nat} (h : OnlyFds p s t)
    (hu : u.proc = Function.update t.proc p { t.proc p with ofile := o }) : OnlyFds p s u := by
  obtain ⟨o', ho⟩ := h
  exact ⟨o, by rw [hu, ho, Function.update_idem, Function.update_self]⟩

theorem OnlyFds.trans_proc (h : OnlyFds p s t) (hu : u.proc = t.proc) : OnlyFds p s u := by
  obtain ⟨o, ho⟩ := h
  exact ⟨o, hu.trans ho⟩

namespace Sound

theorem of_onlyFds (h : Sound s) (hlive : (s.proc p).cwd ≠ none) (ht : Ledger [] [] t.proc t) (hfds : OnlyFds p s t) :
    Sound t := by
  obtain ⟨o, ho⟩ := hfds
  exact h.of_ofile hlive ht ho

theorem sys_pipe {page : Option Nat} {copied : Bool} (h : Sound s) (hlive : (s.proc p).cwd ≠ none) (hp : p < NPROC)
    (hpage : ∀ pi ∈ page, s.pipe pi = none) : Ends (sys_pipe p page copied) s (fun _ t => Sound t) Fine := by
  -- The code gives up, with both files in its hands.
  have hbad : ∀ {rf wf : Nat} {v : State}, Ledger [rf, wf] [] v.proc v → OnlyFds p s v → Ends (do
      fileclose rf
      fileclose wf
      pure (-1 : Int)) v (fun _ t => Sound t) Fine := by
    intro rf wf v hv hfds
    have hclose := hv.closeBoth
    rw [ends_bind] at hclose
    simp only [ends_bind]
    refine hclose.mono fun _ w hw => hw.mono fun _ x hx => ?_
    exact h.of_onlyFds hlive (by rw [hx.2]; exact hx.1) (hfds.trans_proc hx.2)
  unfold Files.sys_pipe
  rw [ends_bind]
  refine (h.ledger.pipealloc hpage).mono ?_
  rintro (_ | ⟨rf, wf⟩) t ⟨ht, htproc⟩
  · exact h.of_proc (by rw [htproc]; exact ht) htproc
  · have hfds : OnlyFds p s t := .of_proc htproc
    rw [← htproc] at ht
    rw [ends_bind]
    refine (Ledger.fdalloc ht hp).mono ?_
    rintro (_ | fd0) v hv
    · obtain rfl : v = t := hv
      exact hbad ht hfds
    · obtain ⟨hv, -, hvt⟩ := hv
      have hfds : OnlyFds p s v := hfds.set (by rw [hvt]; rfl)
      have hget0 : (v.proc p).ofile fd0 = some rf := by
        rw [hvt]
        simp [State.setProc]
      rw [ends_bind]
      refine (hv.fdalloc hp).mono ?_
      rintro (_ | fd1) w hw
      · obtain rfl : w = v := hw
        rw [ends_bind, clear_fd, ends_update]
        exact hbad (hv.take hget0).setProc (hfds.set rfl)
      · obtain ⟨hw, hnone1, hwv⟩ := hw
        have hfds : OnlyFds p s w := hfds.set (by rw [hwv]; rfl)
        have hne : fd0 ≠ fd1 := by
          rintro rfl
          rw [hget0] at hnone1
          cases hnone1
        have hw0 : (w.proc p).ofile fd0 = some rf := by
          rw [hwv]
          simp [State.setProc, hne, hget0]
        have hw1 : (w.proc p).ofile fd1 = some wf := by
          rw [hwv]
          simp [State.setProc]
        rw [ends_ite]
        refine ⟨fun _ => h.of_onlyFds hlive hw hfds, fun _ => ?_⟩
        rw [ends_bind, clear_fd, ends_update, ends_bind, clear_fd, ends_update]
        have h1 : Ledger [rf] [] _ (w.setProc p fun q => { q with ofile := Function.update q.ofile fd0 none }) :=
          (hw.take hw0).setProc
        have hget1 : ((Function.update w.proc p { w.proc p with
            ofile := Function.update (w.proc p).ofile fd0 none }) p).ofile fd1 = some wf := by
          simp [Ne.symm hne, hw1]
        have h2 := h1.take hget1
        exact hbad (h2.setProc.perm (List.Perm.swap ..)) ((hfds.set rfl).set rfl)

end Sound

/-! ## Runs -/

/-- What processes do. `fork` names the slot that `allocproc` finds, and `pipe` the page that `kalloc` finds. A call of
`fork` that fails before it comes to the files does nothing here. -/
inductive Deed where
  | userinit (p : Nat)
  | call (p : Nat) (c : Call)
  | fork (p np : Nat)
  | pipe (p : Nat) (page : Option Nat) (copied : Bool)
  | exec (p : Nat) (path : List Byte) (parts : List (Nat × Nat))

def State.Live (s : State) (p : Nat) : Prop := p < NPROC ∧ (s.proc p).cwd.isSome = true

instance (s : State) (p : Nat) : Decidable (s.Live p) := inferInstanceAs (Decidable (_ ∧ _))

variable [Super]

def act (d : Deed) : F Unit := do
  let s ← Op.gets id
  match d with
  | .userinit p => if p < NPROC ∧ (s.proc p).cwd = none then userinit_files p else Op.stop "no such process"
  | .call p c => if s.Live p then perform p c else Op.stop "no such process"
  | .fork p np =>
    if s.Live p ∧ np < NPROC ∧ (s.proc np).cwd = none then fork_to p np else Op.stop "no such process"
  | .pipe p page copied =>
    if s.Live p ∧ ∀ pi ∈ page, s.pipe pi = none then do let _ ← sys_pipe p page copied else Op.stop "no such process"
  | .exec p path parts => if s.Live p then exec_files p (argstr path) parts else Op.stop "no such process"

namespace Sound

omit [Super] in
theorem ignore {α : Type} {x : F α} (h : Ends x s (fun _ t => Sound t) Fine) :
    Ends (do let _ ← x) s (fun _ t => Sound t) Fine := by
  rw [ends_bind]
  exact h.mono fun _ _ h => h

theorem perform (h : Sound s) {call : Call} (hcwd : (s.proc p).cwd = some c) (hp : p < NPROC) :
    Ends (perform p call) s (fun _ t => Sound t) Fine := by
  have hlive : (s.proc p).cwd ≠ none := by
    rw [hcwd]
    simp
  cases call with
  | link old new => exact ignore (h.inside fun hc => hc.sys_link)
  | unlink path => exact ignore (h.inside fun hc => hc.sys_unlink)
  | «open» path omode => exact ignore (h.sys_open hlive hp)
  | mkdir path => exact ignore (h.inside fun hc => hc.sys_mkdir)
  | mknod path major minor => exact ignore (h.inside fun hc => hc.sys_mknod)
  | chdir path => exact ignore (h.sys_chdir hcwd hp)
  | dup fd => exact ignore (h.sys_dup hlive hp)
  | close fd => exact ignore (h.sys_close hlive)
  | fork =>
    rw [Files.perform, ends_bind]
    unfold fork_files
    simp only [ends_bind, ends_gets]
    cases hfind : (List.range NPROC).find? fun j => (s.proc j).cwd.isNone with
    | none => exact h
    | some np =>
      have hnp : np < NPROC := List.mem_range.mp (List.mem_of_find?_eq_some hfind)
      have hnone : (s.proc np).cwd = none := by simpa using List.find?_some hfind
      rw [ends_bind]
      exact (h.fork_to hcwd hnp hnone).mono fun _ _ h => h
  | exit => exact h.exit_files hcwd hp

theorem act (h : Sound s) (d : Deed) : Ends (act d) s (fun _ t => Sound t) Fine := by
  have hcwd : ∀ {p}, s.Live p → ∃ c, (s.proc p).cwd = some c := fun hl => Option.isSome_iff_exists.mp hl.2
  unfold Files.act
  rw [ends_bind, ends_gets]
  cases d with
  | userinit p =>
    rw [ends_ite]
    exact ⟨fun hgo => h.userinit_files hgo.1 hgo.2, fun _ => (by decide : Fine "no such process")⟩
  | call p call =>
    rw [ends_ite]
    refine ⟨fun hl => ?_, fun _ => (by decide : Fine "no such process")⟩
    obtain ⟨c, hc⟩ := hcwd hl
    exact h.perform hc hl.1
  | fork p np =>
    rw [ends_ite]
    refine ⟨fun hgo => ?_, fun _ => (by decide : Fine "no such process")⟩
    obtain ⟨c, hc⟩ := hcwd hgo.1
    exact h.fork_to hc hgo.2.1 hgo.2.2
  | pipe p page copied =>
    rw [ends_ite]
    refine ⟨fun hgo => ?_, fun _ => (by decide : Fine "no such process")⟩
    obtain ⟨c, hc⟩ := hcwd hgo.1
    exact ignore (h.sys_pipe (by rw [hc]; simp) hgo.1.1 hgo.2)
  | exec p path parts =>
    rw [ends_ite]
    exact ⟨fun _ => h.inside fun hc => hc.exec_files, fun _ => (by decide : Fine "no such process")⟩

end Sound

/-- Nothing is open and no process runs. -/
structure Booted (s : State) : Prop where
  ftable : ∀ f, (s.ftable f).ref = 0 ∧ (s.ftable f).type = .none
  itable : ∀ i, (s.itable i).ref = 0
  proc : ∀ p, (s.proc p).cwd = none ∧ ∀ fd, (s.proc p).ofile fd = none
  pipe : ∀ pi, s.pipe pi = none

omit [Super] in
theorem Booted.sound (h : Booted s) : Sound s := by
  refine ⟨⟨⟨fun f => ?_, fun p fd f hf => ?_, (by simp), fun f _ => (h.ftable f).2, fun pi w => ?_, fun pi q hq =>
    ?_⟩, fun i => ?_⟩,
    fun p _ => (h.proc p).2⟩
  · rw [(h.ftable f).1, refCount_eq_zero.mpr fun x _ => ?_]
    · rfl
    · rw [fdOf, (h.proc x.1).2]
      simp
  · rw [(h.proc p).2] at hf
    cases hf
  · rw [h.pipe, refCount_eq_zero.mpr fun f _ => ?_]
    · rfl
    · simp [File.pipeEnd, (h.ftable f).2]
  · rw [h.pipe] at hq
    cases hq
  · rw [h.itable, holders, refCount_eq_zero.mpr fun p _ => ?_, refCount_eq_zero.mpr fun f _ => ?_]
    · rfl
    · simp [File.inode, (h.ftable f).2]
    · rw [Function.comp_apply, (h.proc p).1]
      simp

omit [Super] in
theorem Sound.pipe_iff (h : Sound s) (pi : Nat) :
    s.pipe pi ≠ none ↔ ∃ f, 0 < (s.ftable f).ref ∧ (s.ftable f).type = .pipe ∧ (s.ftable f).pipe = pi := by
  constructor
  · intro hpi
    obtain ⟨q, hq⟩ := Option.ne_none_iff_exists'.mp hpi
    obtain ⟨w, hw⟩ : ∃ w, endOpen (s.pipe pi) w = true := by
      rw [hq]
      rcases h.ledger.books.page pi q hq with ho | ho
      · exact ⟨false, ho⟩
      · exact ⟨true, ho⟩
    have hcount := h.ledger.books.ends pi w
    rw [if_pos hw] at hcount
    have hne : refCount files (File.pipeEnd ∘ s.ftable) (pi, w) ≠ 0 := by omega
    rw [Ne, refCount_eq_zero] at hne
    push Not at hne
    obtain ⟨f, -, hf⟩ := hne
    rw [Function.comp_apply, File.pipeEnd] at hf
    split at hf
    · rename_i htype
      refine ⟨f, Nat.pos_of_ne_zero fun hzero => ?_, htype, (Prod.mk.inj (Option.some.inj hf)).1⟩
      rw [h.ledger.books.type f hzero] at htype
      cases htype
    · cases hf
  · rintro ⟨f, hpos, htype, rfl⟩ hnone
    have hlt : f < NFILE := by
      by_contra hge
      have hzero : refCount descriptors (fdOf s.proc) f = 0 := by
        refine refCount_eq_zero.mpr fun x _ hx => ?_
        exact hge (h.ledger.books.bound x.1 x.2 f hx).2.2
      rw [h.ledger.books.refs, hzero] at hpos
      exact Nat.lt_irrefl _ hpos
    have hend : (File.pipeEnd ∘ s.ftable) f = some ((s.ftable f).pipe, (s.ftable f).writable) := by
      rw [Function.comp_apply, File.pipeEnd, if_pos htype]
    have hcount := h.ledger.books.ends (s.ftable f).pipe (s.ftable f).writable
    have := refCount_pos (mem_files.mpr hlt) hend
    rw [hnone, if_neg (by rintro ⟨⟩)] at hcount
    omega

/-- Between system calls the count of a file is the number of descriptors for it, that of an inode is the number of its
files and of the processes in it, and an end of a pipe is open as long as one file is that end. No call stops in `filedup`
or `fileclose`, or with a pipe whose page is gone. -/
theorem open_files_counted {s₀ : State} (hboot : Booted s₀) (h : Path act (fun _ _ => True) s₀ s) :
    (∀ f, (s.ftable f).ref = refCount descriptors (fdOf s.proc) f) ∧
    (∀ f, (s.ftable f).ref = 0 → (s.ftable f).type = .none) ∧
    (∀ i, (s.itable i).ref =
      refCount processes (Proc.cwd ∘ s.proc) i + refCount files (File.inode ∘ s.ftable) i) ∧
    (∀ pi w, refCount files (File.pipeEnd ∘ s.ftable) (pi, w) = if endOpen (s.pipe pi) w = true then 1 else 0) ∧
    (∀ pi, s.pipe pi ≠ none ↔ ∃ f, 0 < (s.ftable f).ref ∧ (s.ftable f).type = .pipe ∧ (s.ftable f).pipe = pi) ∧
    (∀ d msg, act d s = .error msg → Fine msg) := by
  have hs : Sound s := h.invariant hboot.sound fun d _ _ hs _ hrun => (hs.act d).of_ok hrun
  exact ⟨hs.ledger.books.refs, hs.ledger.books.type, hs.ledger.refs, hs.ledger.books.ends, hs.pipe_iff,
    fun d msg hrun => (hs.act d).of_error hrun⟩

def sharePipe : List Deed :=
  [.userinit 0, .pipe 0 (some 9) true, .fork 0 1, .call 1 (.close 0), .call 0 (.close 0)]

omit [Super] in
theorem open_files_counted_sharePipe : ∃ s, Path (@act smallDisk) (fun _ _ => True) emptyDisk s ∧
    (s.ftable 1).ref = 2 ∧ s.pipe 9 = some ⟨false, true⟩ ∧
    (s.ftable 1).ref = refCount descriptors (fdOf s.proc) 1 := by
  obtain ⟨s, hrun, hs⟩ := Path.exists_of_follow (@act smallDisk) (C := fun _ _ => True) sharePipe emptyDisk
    (fun s => decide ((s.ftable 1).ref = 2 ∧ s.pipe 9 = some ⟨false, true⟩)) (by decide +kernel)
  obtain ⟨href, hpipe⟩ := of_decide_eq_true hs
  have hboot : Booted emptyDisk := ⟨fun _ => ⟨rfl, rfl⟩, fun _ => rfl, fun _ => ⟨rfl, fun _ => rfl⟩, fun _ => rfl⟩
  exact ⟨s, hrun, href, hpipe, (@open_files_counted s smallDisk emptyDisk hboot hrun).1 1⟩

/-- When every process has exited, no file is open, no inode is in use and no pipe has a page. -/
theorem all_closed_at_exit {s₀ : State} (hboot : Booted s₀) (h : Path act (fun _ _ => True) s₀ s)
    (hexit : ∀ p < NPROC, (s.proc p).cwd = none) :
    (∀ f, (s.ftable f).ref = 0 ∧ (s.ftable f).type = .none) ∧ (∀ i, (s.itable i).ref = 0) ∧ ∀ pi, s.pipe pi = none := by
  have hs : Sound s := h.invariant hboot.sound fun d _ _ hs _ hrun => (hs.act d).of_ok hrun
  have hfile : ∀ f, (s.ftable f).ref = 0 := by
    intro f
    rw [hs.ledger.books.refs, refCount_eq_zero.mpr fun x hx => ?_]
    · rfl
    · rw [fdOf, hs.dead _ (hexit _ (mem_descriptors.mp hx).1)]
      simp
  have htype : ∀ f, (s.ftable f).type = .none := fun f => hs.ledger.books.type f (hfile f)
  refine ⟨fun f => ⟨hfile f, htype f⟩, fun i => ?_, fun pi => ?_⟩
  · rw [hs.ledger.refs, holders, refCount_eq_zero.mpr fun p hp => ?_, refCount_eq_zero.mpr fun f _ => ?_]
    · rfl
    · simp [File.inode, htype]
    · simp [hexit p (mem_processes.mp hp)]
  · by_contra hpi
    obtain ⟨f, hpos, -⟩ := (hs.pipe_iff pi).mp hpi
    exact Nat.lt_irrefl 0 (hfile f ▸ hpos)

omit [Super] in
theorem all_closed_at_exit_sharePipe : ∃ s, Path (@act smallDisk) (fun _ _ => True) emptyDisk s ∧ ∀ pi, s.pipe pi = none := by
  obtain ⟨s, hrun, hs⟩ := Path.exists_of_follow (@act smallDisk) (C := fun _ _ => True)
    (sharePipe ++ [.call 0 .exit, .call 1 .exit]) emptyDisk (fun s => decide (∀ p < NPROC, (s.proc p).cwd = none))
    (by decide +kernel)
  have hboot : Booted emptyDisk := ⟨fun _ => ⟨rfl, rfl⟩, fun _ => rfl, fun _ => ⟨rfl, fun _ => rfl⟩, fun _ => rfl⟩
  exact ⟨s, hrun, (@all_closed_at_exit s smallDisk emptyDisk hboot hrun (of_decide_eq_true hs)).2.2⟩

end Xv6.Files
