import Xv6.Files.Sysfile

/-!
# Inode references in the file system

The code below the system calls holds references to the inodes of `K`, and the others are those of `R`.
-/

open Xv6.Lib Op

namespace Xv6.Files

open State

variable {s t u : State} {ip dp i j off n inum k : Nat} {K : List Nat} {R : Nat → Nat} {name : Name} {path : List Byte}

def Fine (msg : String) : Prop := msg ∉ ["filedup", "fileclose", "pipeclose: no pipe"]

instance : DecidablePred Fine := fun msg => inferInstanceAs (Decidable (msg ∉ _))

/-! ## What leaves every reference alone -/

structure Same (s t : State) : Prop where
  proc : t.proc = s.proc
  ftable : t.ftable = s.ftable
  pipe : t.pipe = s.pipe
  ref : ∀ i, (t.itable i).ref = (s.itable i).ref

instance : IsPreorder State Same where
  refl _ := ⟨rfl, rfl, rfl, fun _ => rfl⟩
  trans _ _ _ h h' := ⟨h'.proc.trans h.proc, h'.ftable.trans h.ftable, h'.pipe.trans h.pipe,
    fun i => (h'.ref i).trans (h.ref i)⟩

abbrev Leaves {α : Type} (x : F α) : Prop := Stays Same Fine x

theorem same_setInode {f : Inode → Inode} (h : (f (s.itable i)).ref = (s.itable i).ref) : Same s (s.setInode i f) := by
  refine ⟨rfl, rfl, rfl, fun j => ?_⟩
  show (Function.update s.itable i _ j).ref = _
  by_cases hj : j = i
  · rw [hj, Function.update_self, h]
  · rw [Function.update_of_ne hj]

namespace Leaves

theorem inode : Leaves (inode ip) := .gets _

theorem modifyInode {f : Dinode → Dinode} : Leaves (modifyInode ip f) := .update fun _ => same_setInode rfl

theorem iupdate : Leaves (iupdate ip) := .update fun _ => ⟨rfl, rfl, rfl, fun _ => rfl⟩

theorem bfree {b : Nat} : Leaves (bfree b) :=
  .bind (.gets _) fun _ => .ite (.stop (by decide)) (.update fun _ => ⟨rfl, rfl, rfl, fun _ => rfl⟩)

theorem ilock : Leaves (ilock ip) := by
  refine .bind (.gets _) fun _ => .ite (.stop (by decide)) (.ite (.pure _) ?_)
  exact .bind (.update fun _ => same_setInode rfl) fun _ => .bind inode fun _ => .ite (.stop (by decide)) (.pure _)

theorem iunlock : Leaves (iunlock ip) := .bind (.gets _) fun _ => .ite (.stop (by decide)) (.pure _)

theorem itrunc_direct : Leaves (itrunc_direct ip k) := by
  induction k with
  | zero => exact .pure _
  | succ k ih => exact .bind inode fun _ => .bind (.when (.bind bfree fun _ => modifyInode)) fun _ => ih

theorem itrunc_indirect {b : Nat} : Leaves (itrunc_indirect b k) := by
  induction k with
  | zero => exact .pure _
  | succ k ih => exact .bind (.gets _) fun _ => .bind (.when bfree) fun _ => ih

theorem itrunc : Leaves (itrunc ip) := by
  refine .bind itrunc_direct fun _ => .bind inode fun _ => .bind (.when ?_) fun _ => .bind modifyInode fun _ => iupdate
  exact .bind itrunc_indirect fun _ => .bind bfree fun _ => modifyInode

theorem bytes {b m : Nat} : Leaves (bytes b off m) := .gets _

theorem addLinks {d : Int} : Leaves (addLinks ip d) := .bind modifyInode fun _ => iupdate

variable [Super]

theorem balloc : Leaves balloc := by
  refine .bind (.gets _) fun b => ?_
  cases b with
  | none => exact .pure _
  | some b =>
    exact .bind (.update fun _ => ⟨rfl, rfl, rfl, fun _ => rfl⟩) fun _ =>
      .bind (.update fun _ => ⟨rfl, rfl, rfl, fun _ => rfl⟩) fun _ => .pure _

theorem bmap_addr : Leaves (bmap_addr ip k) := by
  refine .bind inode fun _ => .ite (.bind balloc fun _ => .ite (.pure _) ?_) (.pure _)
  exact .bind modifyInode fun _ => .pure _

theorem bmap_entry {b : Nat} : Leaves (bmap_entry b k) := by
  refine .bind (.gets _) fun _ => .ite (.bind balloc fun _ => .ite (.pure _) ?_) (.pure _)
  exact .bind (.update fun _ => ⟨rfl, rfl, rfl, fun _ => rfl⟩) fun _ => .pure _

theorem bmap {bn : Nat} : Leaves (bmap ip bn) :=
  .ite bmap_addr (.ite (.bind bmap_addr fun _ => .ite (.pure _) bmap_entry) (.stop (by decide)))

theorem readi_loop {left : Nat} : Leaves (readi_loop ip k off left) := by
  induction k generalizing off left with
  | zero => exact .pure _
  | succ k ih =>
    refine .ite (.pure _) (.bind bmap fun _ => .ite (.pure _) ?_)
    exact .bind bytes fun _ => .bind ih fun _ => .pure _

theorem readi : Leaves (readi ip off n) := .bind inode fun _ => .ite (.pure _) readi_loop

theorem writei_loop {src : Source} {tot left : Nat} : Leaves (writei_loop ip src k tot off left) := by
  induction k generalizing tot off left with
  | zero => exact .pure _
  | succ k ih =>
    refine .ite (.pure _) (.bind bmap fun _ => .ite (.pure _) ?_)
    exact .bind (.update fun _ => ⟨rfl, rfl, rfl, fun _ => rfl⟩) fun _ => .ite ih (.pure _)

theorem writei {src : Source} : Leaves (writei ip src off n) := by
  refine .bind inode fun _ => .ite (.pure _) (.ite (.pure _) (.bind writei_loop fun r => ?_))
  exact .bind modifyInode fun _ => .bind iupdate fun _ => .pure _

theorem read_dirent {msg : String} (hmsg : Fine msg) : Leaves (read_dirent msg dp off) :=
  .bind readi fun _ => .ite (.stop hmsg) (.pure _)

theorem dirlink_loop : Leaves (dirlink_loop dp k off) := by
  induction k generalizing off with
  | zero => exact .pure _
  | succ k ih =>
    exact .bind inode fun _ => .ite (.bind (read_dirent (by decide)) fun _ => .ite (.pure _) ih) (.pure _)

theorem isdirempty : Leaves (isdirempty dp) := by
  have hloop : ∀ k off, Leaves (isdirempty_loop dp k off) := by
    intro k
    induction k with
    | zero => exact fun off => .pure _
    | succ k ih =>
      exact fun off => .bind inode fun _ => .ite (.bind (read_dirent (by decide)) fun _ => .ite (.pure _) (ih _)) (.pure _)
  exact .bind inode fun _ => hloop _ _

theorem read_parts {parts : List (Nat × Nat)} : Leaves (read_parts ip parts) := by
  induction parts with
  | nil => exact .pure _
  | cons part parts ih => exact .bind readi fun _ => ih

end Leaves

/-! ## What takes and puts references -/

/-- The running code started from the processes and files of `u`, which have the references of `R`. -/
structure Counts (u : State) (R : Nat → Nat) (K : List Nat) (s : State) : Prop where
  proc : s.proc = u.proc
  ftable : s.ftable = u.ftable
  pipe : s.pipe = u.pipe
  refs : ∀ i, (s.itable i).ref = R i + K.count i

namespace Counts

theorem of_same (h : Counts u R K s) (h' : Same s t) : Counts u R K t :=
  ⟨h'.proc.trans h.proc, h'.ftable.trans h.ftable, h'.pipe.trans h.pipe, fun i => (h'.ref i).trans (h.refs i)⟩

theorem leaves {α : Type} {x : F α} (h : Counts u R K s) (hx : Leaves x) :
    Ends x s (fun _ t => Counts u R K t) Fine :=
  (hx s).mono fun _ _ => h.of_same

theorem perm {K' : List Nat} (h : Counts u R K s) (hK : K.Perm K') : Counts u R K' s :=
  ⟨h.proc, h.ftable, h.pipe, fun i => by rw [← hK.count_eq]; exact h.refs i⟩

theorem swap (h : Counts u R (i :: j :: K) s) : Counts u R (j :: i :: K) s := h.perm (List.Perm.swap ..)

theorem addRef (h : Counts u R K s) : Counts u R (i :: K) (s.setInode i fun e => { e with ref := e.ref + 1 }) := by
  refine ⟨h.proc, h.ftable, h.pipe, fun j => ?_⟩
  show (Function.update s.itable i _ j).ref = _
  have hj := h.refs j
  by_cases hji : j = i
  · subst hji
    rw [Function.update_self, List.count_cons_self]
    dsimp only
    omega
  · rw [Function.update_of_ne hji, List.count_cons_of_ne (Ne.symm hji), hj]

theorem idup (h : Counts u R K s) : Ends (idup i) s (fun _ t => Counts u R (i :: K) t) Fine := h.addRef

theorem iput (h : Counts u R (i :: K) s) : Ends (iput i) s (fun _ t => Counts u R K t) Fine := by
  have hdrop : ∀ t, Counts u R (i :: K) t → Counts u R K (t.setInode i fun e => { e with ref := e.ref - 1 }) := by
    intro t ht
    refine ⟨ht.proc, ht.ftable, ht.pipe, fun j => ?_⟩
    show (Function.update t.itable i _ j).ref = _
    have hj := ht.refs j
    by_cases hji : j = i
    · subst hji
      rw [List.count_cons_self] at hj
      rw [Function.update_self]
      dsimp only
      omega
    · rw [List.count_cons_of_ne (Ne.symm hji)] at hj
      rw [Function.update_of_ne hji, hj]
  have hfree : Leaves (do
      itrunc i
      modifyInode i fun n => { n with type := .free }
      iupdate i
      Op.update fun s => s.setInode i fun e => { e with valid := false }) :=
    .bind Leaves.itrunc fun _ => .bind Leaves.modifyInode fun _ => .bind Leaves.iupdate fun _ =>
      .update fun _ => same_setInode rfl
  unfold Files.iput
  rw [ends_bind, ends_gets, ends_bind, ends_when]
  exact ⟨fun _ => (h.leaves hfree).mono fun _ t ht => hdrop t ht, fun _ => hdrop s h⟩

theorem iunlockput (h : Counts u R (i :: K) s) : Ends (iunlockput i) s (fun _ t => Counts u R K t) Fine := by
  unfold Files.iunlockput
  rw [ends_bind]
  exact (h.leaves Leaves.iunlock).mono fun _ t ht => ht.iput

variable [Super]

theorem iget (h : Counts u R K s) : Ends (iget i) s (fun _ t => Counts u R (i :: K) t) Fine := by
  unfold Files.iget
  simp only [ends_bind, ends_gets, ends_ite, ends_update, id, panic, ends_stop]
  refine ⟨fun _ => h.addRef, fun hzero => ⟨fun _ => by decide, fun _ => ?_⟩⟩
  have hstep := h.addRef (i := i)
  refine ⟨hstep.proc, hstep.ftable, hstep.pipe, fun j => ?_⟩
  rw [← hstep.refs j]
  show (Function.update s.itable i _ j).ref = (Function.update s.itable i _ j).ref
  by_cases hj : j = i
  · rw [hj, Function.update_self, Function.update_self]
    dsimp only
    omega
  · rw [Function.update_of_ne hj, Function.update_of_ne hj]

theorem ialloc {type : FileType} (h : Counts u R K s) : Ends (ialloc type) s
    (fun r t => r.elim (Counts u R K t) fun ip => Counts u R (ip :: K) t) Fine := by
  unfold Files.ialloc
  simp only [ends_bind, ends_gets]
  cases (List.range ninodes).find? fun i => decide (1 ≤ i ∧ (s.dinode i).type = .free) with
  | none => exact h
  | some i =>
    simp only [ends_bind, ends_update]
    have h' : Counts u R K (s.setDinode i { type := type }) := ⟨h.proc, h.ftable, h.pipe, h.refs⟩
    exact h'.iget.mono fun _ _ h => h

theorem dirlookup (h : Counts u R K s) : Ends (dirlookup dp name) s
    (fun r t => r.elim (Counts u R K t) fun r => Counts u R (r.1 :: K) t) Fine := by
  have hloop : ∀ k off s, Counts u R K s → Ends (dirlookup_loop dp name k off) s
      (fun r t => r.elim (Counts u R K t) fun r => Counts u R (r.1 :: K) t) Fine := by
    intro k
    induction k with
    | zero => exact fun off s h => h
    | succ k ih =>
      intro off s h
      unfold Files.dirlookup_loop
      simp only [ends_bind, Files.inode, ends_gets, ends_ite, ends_pure]
      refine ⟨fun _ => ?_, fun _ => h⟩
      refine (h.leaves (Leaves.read_dirent (by decide))).mono fun de t ht => ?_
      exact ⟨fun _ => ht.iget.mono fun _ _ h => h, fun _ => ih _ t ht⟩
  unfold Files.dirlookup
  simp only [ends_bind, Files.inode, ends_gets, ends_ite, panic, ends_stop]
  exact ⟨fun _ => by decide, fun _ => hloop _ _ s h⟩

theorem dirlink (h : Counts u R K s) : Ends (dirlink dp name inum) s (fun _ t => Counts u R K t) Fine := by
  unfold Files.dirlink
  rw [ends_bind]
  refine h.dirlookup.mono ?_
  rintro (_ | ⟨ip, off⟩) t ht
  · refine ht.leaves (.bind Leaves.inode fun _ => .bind Leaves.dirlink_loop fun _ => .bind Leaves.writei fun _ => ?_)
    exact .ite (.pure _) (.pure _)
  · rw [ends_bind]
    exact Ends.mono (Counts.iput ht) fun _ _ h => h

theorem namex_loop {parent : Bool} (hk : path.length < k) (h : Counts u R (ip :: K) s) :
    Ends (namex_loop parent k path ip) s
      (fun r t => r.elim (Counts u R K t) fun r => Counts u R (r.1 :: K) t) Fine := by
  induction k generalizing s path ip with
  | zero => exact absurd hk (Nat.not_lt_zero _)
  | succ k ih =>
    unfold Files.namex_loop
    cases hskip : skipelem path with
    | none =>
      simp only [ends_ite, ends_bind, ends_pure]
      exact ⟨fun _ => h.iput.mono fun _ _ h => h, fun _ => h⟩
    | some r =>
      obtain ⟨name, rest⟩ := r
      have hlt := skipelem_lt hskip
      simp only [ends_bind, Files.inode, ends_gets, ends_ite, ends_pure]
      refine (h.leaves Leaves.ilock).mono fun _ t ht => ⟨fun _ => ?_, fun _ => ⟨fun _ => ?_, fun _ => ?_⟩⟩
      · exact ht.iunlockput.mono fun _ _ h => h
      · exact ht.leaves Leaves.iunlock
      · refine ht.dirlookup.mono ?_
        rintro (_ | ⟨next, off⟩) v hv
        · rw [ends_bind]
          exact Ends.mono (Counts.iunlockput hv) fun _ _ h => h
        · rw [ends_bind]
          exact Ends.mono (Counts.iunlockput (Counts.swap hv)) fun _ w hw => ih (by omega) hw

theorem namex {parent : Bool} {c : Nat} (h : Counts u R K s) : Ends (namex c path parent) s
    (fun r t => r.elim (Counts u R K t) fun r => Counts u R (r.1 :: K) t) Fine := by
  unfold Files.namex
  simp only [ends_ite, ends_bind]
  exact ⟨fun _ => h.iget.mono fun _ t ht => ht.namex_loop (Nat.lt_succ_self _),
    fun _ => h.idup.mono fun _ t ht => ht.namex_loop (Nat.lt_succ_self _)⟩

theorem namei {c : Nat} (h : Counts u R K s) : Ends (namei c path) s
    (fun r t => r.elim (Counts u R K t) fun ip => Counts u R (ip :: K) t) Fine := by
  unfold Files.namei
  rw [ends_bind]
  refine h.namex.mono ?_
  rintro (_ | ⟨ip, name⟩) t ht
  · exact ht
  · exact ht

/-! ## Creation -/

theorem create_link {type : FileType} (h : Counts u R K s) :
    Ends (create_link dp name ip type) s (fun _ t => Counts u R K t) Fine := by
  unfold Files.create_link
  simp only [ends_ite, ends_bind, ends_pure]
  refine ⟨fun _ => ?_, fun _ => h.dirlink⟩
  exact h.dirlink.mono fun _ t ht => ⟨fun _ => ht, fun _ => ht.dirlink.mono fun _ v hv => ⟨fun _ => hv, fun _ => hv.dirlink⟩⟩

theorem create_new {type : FileType} {major minor : Int} (h : Counts u R (dp :: K) s) :
    Ends (create_new dp name type major minor) s
      (fun r t => r.elim (Counts u R K t) fun ip => Counts u R (ip :: K) t) Fine := by
  unfold Files.create_new
  rw [ends_bind]
  refine h.ialloc.mono ?_
  rintro (_ | ip) t ht
  · rw [ends_bind]
    exact Ends.mono (Counts.iunlockput ht) fun _ _ h => h
  · rw [ends_bind]
    refine Ends.mono (Counts.leaves ht Leaves.ilock) fun _ v hv => ?_
    rw [ends_bind]
    refine Ends.mono (hv.leaves Leaves.modifyInode) fun _ v hv => ?_
    rw [ends_bind]
    refine Ends.mono (hv.leaves Leaves.iupdate) fun _ v hv => ?_
    rw [ends_bind]
    refine hv.create_link.mono fun ok v hv => ?_
    rw [ends_ite]
    refine ⟨fun _ => ?_, fun _ => ?_⟩
    · rw [ends_bind]
      refine Ends.mono (hv.leaves (.when Leaves.addLinks)) fun _ v hv => ?_
      rw [ends_bind]
      exact Ends.mono (Counts.iunlockput hv.swap) fun _ _ h => h
    · simp only [ends_bind]
      refine Ends.mono (hv.leaves Leaves.modifyInode) fun _ v hv => ?_
      refine Ends.mono (hv.leaves Leaves.iupdate) fun _ v hv => ?_
      exact hv.iunlockput.mono fun _ v hv => hv.iunlockput.mono fun _ _ h => h

theorem create {c : Nat} {type : FileType} {major minor : Int} (h : Counts u R K s) :
    Ends (create c path type major minor) s
      (fun r t => r.elim (Counts u R K t) fun ip => Counts u R (ip :: K) t) Fine := by
  unfold Files.create nameiparent
  rw [ends_bind]
  refine h.namex.mono ?_
  rintro (_ | ⟨dp, name⟩) t ht
  · exact ht
  · rw [ends_bind]
    refine Ends.mono (Counts.leaves ht Leaves.ilock) fun _ v hv => ?_
    rw [ends_bind]
    refine hv.dirlookup.mono ?_
    rintro (_ | ⟨ip, off⟩) w hw
    · exact Counts.create_new hw
    · simp only [ends_bind, Files.inode, ends_gets, ends_ite, ends_pure]
      refine Ends.mono (Counts.iunlockput (Counts.swap hw)) fun _ w hw => ?_
      refine (hw.leaves Leaves.ilock).mono fun _ w hw => ⟨fun _ => hw, fun _ => ?_⟩
      exact hw.iunlockput.mono fun _ _ h => h

/-! ## System calls that change no process -/

omit [Super] in
theorem sys_link_bad (h : Counts u R (ip :: K) s) : Ends (sys_link_bad ip) s (fun _ t => Counts u R K t) Fine := by
  unfold Files.sys_link_bad
  simp only [ends_bind]
  refine (h.leaves Leaves.ilock).mono fun _ t ht => (ht.leaves Leaves.addLinks).mono fun _ v hv => ?_
  exact hv.iunlockput.mono fun _ _ h => h

theorem sys_link {p : Nat} {old new : List Byte} (h : Counts u R K s) :
    Ends (sys_link p old new) s (fun _ t => Counts u R K t) Fine := by
  unfold Files.sys_link
  rw [ends_bind, cwd, ends_gets, ends_bind]
  refine h.namei.mono ?_
  rintro (_ | ip) t ht
  · exact ht
  · simp only [ends_bind, Files.inode, ends_gets, ends_ite, ends_pure]
    refine Ends.mono (Counts.leaves ht Leaves.ilock) fun _ v hv => ⟨fun _ => hv.iunlockput.mono fun _ _ h => h, fun _ => ?_⟩
    refine (hv.leaves Leaves.addLinks).mono fun _ v hv => (hv.leaves Leaves.iunlock).mono fun _ v hv => ?_
    refine hv.namex.mono ?_
    rintro (_ | ⟨dp, name⟩) w hw
    · exact Counts.sys_link_bad hw
    · simp only [ends_bind, ends_ite, ends_pure]
      refine Ends.mono (Counts.leaves hw Leaves.ilock) fun _ v hv => hv.dirlink.mono fun r v hv => ?_
      exact ⟨fun _ => hv.iunlockput.mono fun _ v hv => hv.sys_link_bad, fun _ =>
        hv.iunlockput.mono fun _ v hv => hv.iput.mono fun _ _ h => h⟩

theorem sys_unlink_entry (h : Counts u R (ip :: dp :: K) s) :
    Ends (sys_unlink_entry dp off ip) s (fun _ t => Counts u R K t) Fine := by
  unfold Files.sys_unlink_entry
  rw [ends_bind]
  refine (h.leaves Leaves.writei).mono fun r v hv => ?_
  rw [ends_ite]
  refine ⟨fun _ => (by decide : Fine "unlink: writei"), fun _ => ?_⟩
  rw [ends_bind]
  refine (hv.leaves Leaves.inode).mono fun node v hv => ?_
  rw [ends_bind]
  refine (hv.leaves (.when Leaves.addLinks)).mono fun _ v hv => ?_
  rw [ends_bind]
  refine hv.swap.iunlockput.mono fun _ v hv => ?_
  rw [ends_bind]
  refine (hv.leaves Leaves.addLinks).mono fun _ v hv => ?_
  rw [ends_bind]
  exact hv.iunlockput.mono fun _ _ h => h

theorem sys_unlink {p : Nat} (h : Counts u R K s) : Ends (sys_unlink p path) s (fun _ t => Counts u R K t) Fine := by
  unfold Files.sys_unlink nameiparent
  rw [ends_bind, cwd, ends_gets, ends_bind]
  refine h.namex.mono ?_
  rintro (_ | ⟨dp, name⟩) t ht
  · exact ht
  · simp only [ends_bind, ends_ite, ends_pure]
    refine Ends.mono (Counts.leaves ht Leaves.ilock) fun _ v hv => ⟨fun _ => hv.iunlockput.mono fun _ _ h => h, fun _ => ?_⟩
    refine hv.dirlookup.mono ?_
    rintro (_ | ⟨ip, off⟩) w hw
    · rw [ends_bind]
      exact Ends.mono (Counts.iunlockput hw) fun _ _ h => h
    · simp only [ends_bind, Files.inode, ends_gets, ends_ite, panic, ends_stop, ends_pure]
      refine Ends.mono (Counts.leaves hw Leaves.ilock) fun _ v hv => ⟨fun _ => by decide, fun _ => ⟨fun _ => ?_, fun _ => ?_⟩⟩
      · refine (hv.leaves Leaves.isdirempty).mono fun _ v hv => ⟨fun _ => hv.sys_unlink_entry, fun _ => ?_⟩
        exact hv.iunlockput.mono fun _ v hv => hv.iunlockput.mono fun _ _ h => h
      · exact hv.sys_unlink_entry

theorem sys_mkdir {p : Nat} (h : Counts u R K s) : Ends (sys_mkdir p path) s (fun _ t => Counts u R K t) Fine := by
  unfold Files.sys_mkdir
  rw [ends_bind, cwd, ends_gets, ends_bind]
  refine h.create.mono ?_
  rintro (_ | ip) t ht
  · exact ht
  · rw [ends_bind]
    exact Ends.mono (Counts.iunlockput ht) fun _ _ h => h

theorem sys_mknod {p : Nat} {major minor : Int} (h : Counts u R K s) :
    Ends (sys_mknod p path major minor) s (fun _ t => Counts u R K t) Fine := by
  unfold Files.sys_mknod
  rw [ends_bind, cwd, ends_gets, ends_bind]
  refine h.create.mono ?_
  rintro (_ | ip) t ht
  · exact ht
  · rw [ends_bind]
    exact Ends.mono (Counts.iunlockput ht) fun _ _ h => h

theorem exec_files {p : Nat} {parts : List (Nat × Nat)} (h : Counts u R K s) :
    Ends (exec_files p path parts) s (fun _ t => Counts u R K t) Fine := by
  unfold Files.exec_files
  rw [ends_bind, cwd, ends_gets, ends_bind]
  refine h.namei.mono ?_
  rintro (_ | ip) t ht
  · exact ht
  · simp only [ends_bind]
    refine Ends.mono (Counts.leaves ht Leaves.ilock) fun _ v hv => (hv.leaves Leaves.read_parts).mono fun _ v hv => ?_
    exact hv.iunlockput

theorem sys_open_inode {c omode : Nat} (h : Counts u R K s) : Ends (sys_open_inode c path omode) s
    (fun r t => r.elim (Counts u R K t) fun ip => Counts u R (ip :: K) t) Fine := by
  unfold Files.sys_open_inode
  rw [ends_ite]
  refine ⟨fun _ => h.create, fun _ => ?_⟩
  rw [ends_bind]
  refine h.namei.mono ?_
  rintro (_ | ip) t ht
  · exact ht
  · simp only [ends_bind, Files.inode, ends_gets, ends_ite, ends_pure]
    refine Ends.mono (Counts.leaves ht Leaves.ilock) fun _ v hv => ⟨fun _ => hv.iunlockput.mono fun _ _ h => h, fun _ => hv⟩

end Counts

end Xv6.Files
