import Mathlib.Data.Finset.Prod
import Xv6.Files.Counts
import Xv6.Lib.Path
import Xv6.Lib.RefCount

/-!
# Open files

The counts in the file table and in the inode table, against the descriptors of all processes. The running code holds
references to the files of `J` and to the inodes of `K`.
-/

open Xv6.Lib Op

namespace Xv6.Files

open State

variable {s t u : State} {i p fd f : Nat} {J K : List Nat} {P : Nat → Proc} {T : Nat → File} {Q : Nat → Option Pipe}
  {path : List Byte} {e : File}

/-! ## Who refers to what -/

-- Irreducible, or the elaborator computes them.
@[irreducible] def processes : Finset Nat := Finset.range NPROC

@[irreducible] def files : Finset Nat := Finset.range NFILE

@[irreducible] def descriptors : Finset (Nat × Nat) := Finset.range NPROC ×ˢ Finset.range NOFILE

theorem mem_processes : p ∈ processes ↔ p < NPROC := by
  unfold processes
  exact Finset.mem_range

theorem mem_files : f ∈ files ↔ f < NFILE := by
  unfold files
  exact Finset.mem_range

theorem mem_product_range {n m : Nat} : (p, fd) ∈ Finset.range n ×ˢ Finset.range m ↔ p < n ∧ fd < m := by
  rw [Finset.mem_product, Finset.mem_range, Finset.mem_range]

theorem mem_descriptors : (p, fd) ∈ descriptors ↔ p < NPROC ∧ fd < NOFILE := by
  unfold descriptors
  exact mem_product_range

def fdOf (P : Nat → Proc) (x : Nat × Nat) : Option Nat := (P x.1).ofile x.2

def File.inode (e : File) : Option Nat := if e.type = .inode ∨ e.type = .device then some e.ip else none

def File.pipeEnd (e : File) : Option (Nat × Bool) := if e.type = .pipe then some (e.pipe, e.writable) else none

def endOpen (q : Option Pipe) (w : Bool) : Bool := q.elim false fun q => if w then q.writeopen else q.readopen

def holders (P : Nat → Proc) (T : Nat → File) (i : Nat) : Nat :=
  refCount processes (Proc.cwd ∘ P) i + refCount files (File.inode ∘ T) i

structure Books (J : List Nat) (P : Nat → Proc) (T : Nat → File) (Q : Nat → Option Pipe) : Prop where
  refs : ∀ f, (T f).ref = refCount descriptors (fdOf P) f + J.count f
  bound : ∀ p fd f, (P p).ofile fd = some f → p < NPROC ∧ fd < NOFILE ∧ f < NFILE
  mine : ∀ f ∈ J, f < NFILE
  type : ∀ f, (T f).ref = 0 → (T f).type = .none
  ends : ∀ pi w, refCount files (File.pipeEnd ∘ T) (pi, w) = if endOpen (Q pi) w = true then 1 else 0
  page : ∀ pi q, Q pi = some q → q.readopen = true ∨ q.writeopen = true

/-- The books are about the processes `P`, which may differ from those of `s` while a system call changes them. -/
structure Ledger (J K : List Nat) (P : Nat → Proc) (s : State) : Prop where
  books : Books J P s.ftable s.pipe
  refs : ∀ i, (s.itable i).ref = holders P s.ftable i + K.count i

theorem fdOf_update (v : Option Nat) : fdOf (Function.update P p { P p with ofile := Function.update (P p).ofile fd v }) =
    Function.update (fdOf P) (p, fd) v := by
  funext x
  obtain ⟨q, k⟩ := x
  rw [fdOf]
  by_cases hq : q = p
  · subst hq
    rw [Function.update_self]
    by_cases hk : k = fd
    · subst hk
      rw [Function.update_self]
      simp
    · rw [Function.update_of_ne (by simp [hk])]
      simp [fdOf, hk]
  · rw [Function.update_of_ne (by simp [hq])]
    simp [fdOf, hq]

theorem cwd_update (v : Option Nat) :
    Proc.cwd ∘ Function.update P p { P p with ofile := Function.update (P p).ofile fd v } = Proc.cwd ∘ P := by
  funext q
  by_cases hq : q = p
  · simp [hq]
  · simp [hq]

namespace Books

theorem setFile {J' : List Nat} (h : Books J P T Q) (hrefs : e.ref = refCount descriptors (fdOf P) f + J'.count f)
    (hJ : ∀ g, g ≠ f → J'.count g = J.count g) (hmine : ∀ g ∈ J', g < NFILE) (htype : e.ref = 0 → e.type = .none)
    (hend : e.pipeEnd = (T f).pipeEnd) : Books J' P (Function.update T f e) Q := by
  refine ⟨fun g => ?_, h.bound, hmine, fun g => ?_, ?_, h.page⟩
  · by_cases hg : g = f
    · rw [hg, Function.update_self, hrefs]
    · rw [Function.update_of_ne hg, h.refs, hJ g hg]
  · by_cases hg : g = f
    · rw [hg, Function.update_self]
      exact htype
    · rw [Function.update_of_ne hg]
      exact h.type g
  · rw [Function.comp_update, hend, show (T f).pipeEnd = (File.pipeEnd ∘ T) f from rfl, Function.update_eq_self]
    exact h.ends

theorem give (h : Books (f :: J) P T Q) (hp : p < NPROC) (hfd : fd < NOFILE) (hnone : (P p).ofile fd = none) :
    Books J (Function.update P p { P p with ofile := Function.update (P p).ofile fd (some f) }) T Q := by
  have hmem : (p, fd) ∈ descriptors := mem_descriptors.mpr ⟨hp, hfd⟩
  have hold : fdOf P (p, fd) = none := hnone
  refine ⟨fun g => ?_, fun q k g hg => ?_, fun g hg => h.mine g (List.mem_cons_of_mem _ hg), h.type, h.ends, h.page⟩
  · have hupdate := refCount_update (P := g) (f := fdOf P) hmem (some f)
    have hrefs := h.refs g
    rw [fdOf_update]
    rw [hold, if_neg (by simp)] at hupdate
    by_cases hgf : g = f
    · subst hgf
      rw [List.count_cons_self] at hrefs
      rw [if_pos rfl] at hupdate
      omega
    · rw [List.count_cons_of_ne (Ne.symm hgf)] at hrefs
      rw [if_neg (by simpa using Ne.symm hgf)] at hupdate
      omega
  · have hget : fdOf (Function.update P p { P p with ofile := Function.update (P p).ofile fd (some f) }) (q, k) = some g := hg
    rw [fdOf_update] at hget
    by_cases hqk : (q, k) = (p, fd)
    · rw [hqk, Function.update_self] at hget
      obtain ⟨rfl, rfl⟩ := Prod.mk.inj hqk
      exact ⟨hp, hfd, Option.some.inj hget ▸ h.mine f List.mem_cons_self⟩
    · rw [Function.update_of_ne hqk] at hget
      exact h.bound q k g hget

theorem take (h : Books J P T Q) (hget : (P p).ofile fd = some f) :
    Books (f :: J) (Function.update P p { P p with ofile := Function.update (P p).ofile fd none }) T Q := by
  obtain ⟨hp, hfd, hf⟩ := h.bound p fd f hget
  have hmem : (p, fd) ∈ descriptors := mem_descriptors.mpr ⟨hp, hfd⟩
  have hold : fdOf P (p, fd) = some f := hget
  refine ⟨fun g => ?_, fun q k g hg => ?_, fun g hg => ?_, h.type, h.ends, h.page⟩
  · have hupdate := refCount_update (P := g) (f := fdOf P) hmem none
    have hrefs := h.refs g
    rw [fdOf_update]
    rw [hold, if_neg (c := none = some g) (by simp)] at hupdate
    by_cases hgf : g = f
    · subst hgf
      rw [List.count_cons_self]
      rw [if_pos rfl] at hupdate
      omega
    · rw [List.count_cons_of_ne (Ne.symm hgf)]
      rw [if_neg (by simpa using Ne.symm hgf)] at hupdate
      omega
  · have hg' : fdOf (Function.update P p { P p with ofile := Function.update (P p).ofile fd none }) (q, k) = some g := hg
    rw [fdOf_update] at hg'
    by_cases hqk : (q, k) = (p, fd)
    · rw [hqk, Function.update_self] at hg'
      cases hg'
    · rw [Function.update_of_ne hqk] at hg'
      exact h.bound q k g hg'
  · obtain rfl | hg := List.mem_cons.mp hg
    · exact hf
    · exact h.mine g hg

end Books

theorem holders_setFile (hsame : e.inode = (T f).inode) : holders P (Function.update T f e) i = holders P T i := by
  rw [holders, Function.comp_update, hsame, show (T f).inode = (File.inode ∘ T) f from rfl, Function.update_eq_self]
  rfl

namespace Ledger

theorem counts (h : Ledger J K P s) : Counts s (holders P s.ftable) K s := ⟨rfl, rfl, rfl, h.refs⟩

theorem refs_setFile {g : File → File} (h : Ledger J K P s) (hsame : (g (s.ftable f)).inode = (s.ftable f).inode) (i : Nat) :
    (s.itable i).ref = holders P (s.setFile f g).ftable i + K.count i := by
  rw [State.setFile, holders_setFile hsame]
  exact h.refs i

theorem of_counts {K' : List Nat} (h : Ledger J K P s) (hc : Counts s (holders P s.ftable) K' t) : Ledger J K' P t :=
  ⟨by rw [hc.ftable, hc.pipe]; exact h.books, fun i => by rw [hc.ftable]; exact hc.refs i⟩

theorem perm {J' : List Nat} (h : Ledger J K P s) (hJ : J.Perm J') : Ledger J' K P s := by
  refine ⟨⟨fun f => ?_, h.books.bound, fun f hf => ?_, h.books.type, h.books.ends, h.books.page⟩, h.refs⟩
  · rw [← hJ.count_eq]
    exact h.books.refs f
  · exact h.books.mine f (hJ.mem_iff.mpr hf)

theorem leaves {α : Type} {x : F α} (h : Ledger J K P s) (hx : Leaves x) :
    Ends x s (fun _ t => Ledger J K P t ∧ t.proc = s.proc) Fine :=
  (h.counts.leaves hx).mono fun _ _ hc => ⟨h.of_counts hc, hc.proc⟩

theorem ref_pos_of_fd (h : Ledger J K P s) (hfd : (P p).ofile fd = some f) : 0 < (s.ftable f).ref := by
  obtain ⟨hp, hlt, -⟩ := h.books.bound p fd f hfd
  have hmem : (p, fd) ∈ descriptors := mem_descriptors.mpr ⟨hp, hlt⟩
  have hget : fdOf P (p, fd) = some f := hfd
  have := refCount_pos hmem hget
  rw [h.books.refs]
  omega

/-! ## The file table -/

theorem filealloc (h : Ledger J K P s) : Ends filealloc s (fun r t => r.elim (t = s) fun f =>
    Ledger (f :: J) K P t ∧ t.proc = s.proc ∧ (t.ftable f).type = .none ∧ f ∉ J ∧ t.pipe = s.pipe ∧
      ∀ g, g ≠ f → t.ftable g = s.ftable g) Fine := by
  unfold Files.filealloc
  simp only [ends_bind, ends_gets]
  cases hf : (List.range NFILE).find? fun f => decide ((s.ftable f).ref = 0) with
  | none => rfl
  | some f =>
    have hlt : f < NFILE := List.mem_range.mp (List.mem_of_find?_eq_some hf)
    have hzero : (s.ftable f).ref = 0 := by simpa using List.find?_some hf
    have htype := h.books.type f hzero
    have hbooks := h.books.refs f
    simp only [ends_bind, ends_update, ends_pure]
    refine ⟨⟨?_, fun i => ?_⟩, rfl, ?_, ?_⟩
    · refine h.books.setFile ?_ (fun g hg => List.count_cons_of_ne (Ne.symm hg)) ?_ (by simp) rfl
      · rw [List.count_cons_self]
        dsimp only
        omega
      · intro g hg
        obtain rfl | hg := List.mem_cons.mp hg
        · exact hlt
        · exact h.books.mine g hg
    · exact h.refs_setFile rfl i
    · show (Function.update s.ftable f _ f).type = _
      rw [Function.update_self]
      exact htype
    · refine ⟨fun hmem => ?_, rfl, fun g hg => Function.update_of_ne hg ..⟩
      have := List.count_pos_iff.mpr hmem
      omega

theorem give (h : Ledger (f :: J) K P s) (hp : p < NPROC) (hfd : fd < NOFILE) (hnone : (P p).ofile fd = none) :
    Ledger J K (Function.update P p { P p with ofile := Function.update (P p).ofile fd (some f) }) s := by
  refine ⟨h.books.give hp hfd hnone, fun i => ?_⟩
  rw [holders, cwd_update]
  exact h.refs i

theorem take (h : Ledger J K P s) (hget : (P p).ofile fd = some f) :
    Ledger (f :: J) K (Function.update P p { P p with ofile := Function.update (P p).ofile fd none }) s := by
  refine ⟨h.books.take hget, fun i => ?_⟩
  rw [holders, cwd_update]
  exact h.refs i

theorem setProc {q : Nat → Proc} (h : Ledger J K P s) : Ledger J K P { s with proc := q } := ⟨h.books, h.refs⟩

theorem fdalloc (h : Ledger (f :: J) K s.proc s) (hp : p < NPROC) : Ends (fdalloc p f) s
    (fun r t => r.elim (t = s) fun fd => Ledger J K t.proc t ∧ (s.proc p).ofile fd = none ∧
      t = s.setProc p fun q => { q with ofile := Function.update q.ofile fd (some f) }) Fine := by
  unfold Files.fdalloc
  simp only [ends_bind, ends_gets]
  cases hfind : (List.range NOFILE).find? fun fd => ((s.proc p).ofile fd).isNone with
  | none => rfl
  | some fd =>
    have hlt : fd < NOFILE := List.mem_range.mp (List.mem_of_find?_eq_some hfind)
    have hnone : (s.proc p).ofile fd = none := by simpa using List.find?_some hfind
    simp only [ends_bind, ends_update, ends_pure]
    exact ⟨(h.give hp hlt hnone).setProc, hnone, rfl⟩

theorem filedup (h : Ledger J K P s) (hpos : 0 < (s.ftable f).ref) (hf : f < NFILE) :
    Ends (filedup f) s (fun _ t => Ledger (f :: J) K P t ∧ t.proc = s.proc) Fine := by
  unfold Files.filedup
  simp only [ends_bind, ends_gets, ends_ite, panic, ends_stop, ends_update]
  refine ⟨fun hlt => absurd hpos (by omega), fun _ => ⟨⟨?_, fun i => ?_⟩, rfl⟩⟩
  · refine h.books.setFile ?_ (fun g hg => List.count_cons_of_ne (Ne.symm hg)) ?_ (by simp) rfl
    · rw [List.count_cons_self, ← Nat.add_assoc, ← h.books.refs f]
    · intro g hg
      obtain rfl | hg := List.mem_cons.mp hg
      · exact hf
      · exact h.books.mine g hg
  · exact h.refs_setFile rfl i

/-! ## Closing -/

def closeEnd (q : Pipe) (w : Bool) : Pipe := if w then { q with writeopen := false } else { q with readopen := false }

theorem endOpen_closeEnd (q : Pipe) (w w' : Bool) :
    endOpen (some (closeEnd q w)) w' = (endOpen (some q) w' && decide (w' ≠ w)) := by
  cases w <;> cases w' <;> simp [endOpen, closeEnd]

theorem endOpen_none_of_closed {q : Pipe} (h : q.readopen = false ∧ q.writeopen = false) (w : Bool) :
    endOpen (some q) w = endOpen none w := by
  cases w
  · exact h.1
  · exact h.2

theorem pipeclose_eq (pi : Nat) (w : Bool) {q : Pipe} (hq : s.pipe pi = some q) : pipeclose pi w s =
    .ok ((), s.setPipe pi (if (closeEnd q w).readopen = false ∧ (closeEnd q w).writeopen = false then none
      else some (closeEnd q w))) := by
  rw [pipeclose, run_bind (run_gets _), hq]
  simp only [← closeEnd.eq_def]
  split <;> rfl

theorem forget (h : Ledger (f :: J) K P s) (hone : (s.ftable f).ref = 1) :
    refCount descriptors (fdOf P) f = 0 ∧ J.count f = 0 ∧ f < NFILE := by
  have hrefs := h.books.refs f
  rw [List.count_cons_self] at hrefs
  exact ⟨by omega, by omega, h.books.mine f List.mem_cons_self⟩

theorem closePipe (h : Ledger (f :: J) K P s) (hone : (s.ftable f).ref = 1) (htype : (s.ftable f).type = .pipe) :
    ∃ q, s.pipe (s.ftable f).pipe = some q ∧ Ledger J K P ((s.setFile f fun e => { e with ref := 0, type := .none }).setPipe
      (s.ftable f).pipe (if (closeEnd q (s.ftable f).writable).readopen = false ∧
        (closeEnd q (s.ftable f).writable).writeopen = false then none else some (closeEnd q (s.ftable f).writable))) := by
  obtain ⟨hfds, hJ, hf⟩ := h.forget hone
  obtain ⟨pi, hpi⟩ : ∃ pi, pi = (s.ftable f).pipe := ⟨_, rfl⟩
  obtain ⟨w, hw⟩ : ∃ w, w = (s.ftable f).writable := ⟨_, rfl⟩
  rw [← hpi, ← hw]
  have hend : (File.pipeEnd ∘ s.ftable) f = some (pi, w) := by
    rw [Function.comp_apply, File.pipeEnd, if_pos htype, hpi, hw]
  have hopen : endOpen (s.pipe pi) w = true := by
    by_contra hc
    have hzero := h.books.ends pi w
    rw [if_neg hc] at hzero
    have := refCount_pos (mem_files.mpr hf) hend
    omega
  obtain ⟨q, hq⟩ : ∃ q, s.pipe pi = some q := by
    cases hp : s.pipe pi with
    | none =>
      rw [hp] at hopen
      cases hopen
    | some q => exact ⟨q, rfl⟩
  refine ⟨q, hq, ⟨?_, fun i => ?_⟩⟩
  · refine ⟨fun g => ?_, h.books.bound, fun g hg => h.books.mine g (List.mem_cons_of_mem _ hg), fun g => ?_, fun pi' w' => ?_,
      fun pi' q' hq' => ?_⟩
    · show (Function.update s.ftable f _ g).ref = _
      by_cases hg : g = f
      · rw [hg, Function.update_self, hfds, hJ]
      · rw [Function.update_of_ne hg, h.books.refs g, List.count_cons_of_ne (Ne.symm hg)]
    · show (Function.update s.ftable f _ g).ref = 0 → (Function.update s.ftable f _ g).type = .none
      by_cases hg : g = f
      · rw [hg, Function.update_self]
        exact fun _ => rfl
      · rw [Function.update_of_ne hg]
        exact h.books.type g
    · have hupdate := refCount_update (P := (pi', w')) (f := File.pipeEnd ∘ s.ftable) (mem_files.mpr hf) none
      rw [hend, if_neg (c := none = some (pi', w')) (by simp), h.books.ends] at hupdate
      show refCount files (File.pipeEnd ∘ Function.update s.ftable f _) (pi', w') =
        if endOpen (Function.update s.pipe pi _ pi') w' = true then 1 else 0
      rw [Function.comp_update, show File.pipeEnd { s.ftable f with ref := 0, type := FdType.none } = none from rfl]
      by_cases hpe : pi' = pi
      · subst hpe
        have hnew : ∀ w', endOpen (if (closeEnd q w).readopen = false ∧ (closeEnd q w).writeopen = false then none
            else some (closeEnd q w)) w' = (endOpen (s.pipe pi') w' && decide (w' ≠ w)) := by
          intro w'
          rw [hq, ← endOpen_closeEnd]
          split
          · rename_i hclosed
            exact (endOpen_none_of_closed hclosed w').symm
          · rfl
        rw [Function.update_self, hnew]
        by_cases hww : w' = w
        · subst hww
          rw [hopen] at hupdate
          simp at hupdate ⊢
          omega
        · rw [if_neg (by simpa using Ne.symm hww)] at hupdate
          simp only [ne_eq, hww, not_false_eq_true, decide_true, Bool.and_true]
          omega
      · rw [Function.update_of_ne hpe]
        rw [if_neg (by simp [Ne.symm hpe])] at hupdate
        omega
    · change Function.update s.pipe pi _ pi' = some q' at hq'
      by_cases hpe : pi' = pi
      · rw [hpe, Function.update_self] at hq'
        split at hq'
        · cases hq'
        · rename_i hclosed
          cases hq'
          rwa [not_and_or, Bool.not_eq_false, Bool.not_eq_false] at hclosed
      · rw [Function.update_of_ne hpe] at hq'
        exact h.books.page pi' q' hq'
  · have hsame : File.inode { s.ftable f with ref := 0, type := FdType.none } = (s.ftable f).inode := by
      simp [File.inode, htype]
    exact h.refs_setFile (g := fun e => { e with ref := 0, type := .none }) hsame i

theorem closeInode (h : Ledger (f :: J) K P s) (hone : (s.ftable f).ref = 1)
    (htype : (s.ftable f).type = .inode ∨ (s.ftable f).type = .device) :
    Ledger J ((s.ftable f).ip :: K) P (s.setFile f fun e => { e with ref := 0, type := .none }) := by
  obtain ⟨hfds, hJ, hf⟩ := h.forget hone
  have hinode : (File.inode ∘ s.ftable) f = some (s.ftable f).ip := by
    rw [Function.comp_apply, File.inode, if_pos htype]
  refine ⟨?_, fun i => ?_⟩
  · refine h.books.setFile ?_ (fun g hg => (List.count_cons_of_ne (Ne.symm hg)).symm)
      (fun g hg => h.books.mine g (List.mem_cons_of_mem _ hg)) (fun _ => rfl) ?_
    · rw [hfds, hJ]
    · rw [File.pipeEnd, File.pipeEnd, if_neg (by simp), if_neg]
      rcases htype with htype | htype <;> simp [htype]
  · have hupdate := refCount_update (P := i) (f := File.inode ∘ s.ftable) (mem_files.mpr hf) none
    rw [hinode, if_neg (c := none = some i) (by simp)] at hupdate
    show (s.itable i).ref = holders P (Function.update s.ftable f _) i + _
    rw [h.refs i, holders, holders, Function.comp_update,
      show File.inode { s.ftable f with ref := 0, type := FdType.none } = none from rfl]
    by_cases hi : i = (s.ftable f).ip
    · subst hi
      rw [List.count_cons_self]
      rw [if_pos rfl] at hupdate
      omega
    · rw [List.count_cons_of_ne (Ne.symm hi)]
      rw [if_neg (by simpa using Ne.symm hi)] at hupdate
      omega

theorem fileclose (h : Ledger (f :: J) K P s) :
    Ends (fileclose f) s (fun _ t => Ledger J K P t ∧ t.proc = s.proc) Fine := by
  have hrefs := h.books.refs f
  rw [List.count_cons_self] at hrefs
  unfold Files.fileclose
  simp only [ends_bind, ends_gets, ends_ite, panic, ends_stop, ends_update]
  refine ⟨fun hlt => absurd hlt (by omega), fun _ => ⟨fun hmany => ⟨⟨?_, h.refs_setFile rfl⟩, rfl⟩, fun hlast => ?_⟩⟩
  · refine h.books.setFile ?_ (fun g hg => (List.count_cons_of_ne (Ne.symm hg)).symm)
      (fun g hg => h.books.mine g (List.mem_cons_of_mem _ hg)) (fun hzero => ?_) rfl
    · dsimp only
      omega
    · dsimp only at hzero
      omega
  · have hone : (s.ftable f).ref = 1 := by omega
    cases htype : (s.ftable f).type with
    | none =>
      obtain ⟨hfds, hJ, -⟩ := h.forget hone
      refine ⟨⟨?_, h.refs_setFile ?_⟩, rfl⟩
      · refine h.books.setFile ?_ (fun g hg => (List.count_cons_of_ne (Ne.symm hg)).symm)
          (fun g hg => h.books.mine g (List.mem_cons_of_mem _ hg)) (fun _ => rfl) ?_
        · rw [hfds, hJ]
        · simp [File.pipeEnd, htype]
      · simp [File.inode, htype]
    | pipe =>
      obtain ⟨q, hq, hledger⟩ := h.closePipe hone htype
      have hrun := pipeclose_eq (s := s.setFile f fun e => { e with ref := 0, type := .none }) (s.ftable f).pipe
        (s.ftable f).writable hq
      rw [ends_of_run hrun]
      exact ⟨hledger, rfl⟩
    | inode =>
      have hledger := h.closeInode hone (.inl htype)
      exact hledger.counts.iput.mono fun _ t ht => ⟨hledger.of_counts ht, ht.proc⟩
    | device =>
      have hledger := h.closeInode hone (.inr htype)
      exact hledger.counts.iput.mono fun _ t ht => ⟨hledger.of_counts ht, ht.proc⟩

end Ledger

end Xv6.Files
