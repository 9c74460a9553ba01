import Xv6.Lib.Draws
import Xv6.Procs

/-!
# Allocation under locks

`select_victim_page` acquires the lock of every slot, and `swapout` sleeps with one of them held. So a call with such a
lock held stops at its first `kalloc` that finds no free page, and any call stops before it swaps a page out. As long as
there are free pages the locks make no difference.
-/

open Xv6.Lib Op

namespace Xv6

variable [Image] {s t : Kernel} {me i r n va k : Nat} {held : List Nat}

/-! ## The scan -/

omit [Image] in
theorem disk_sleep_ne {u : Unit} (h : held ≠ []) : disk_sleep me held s ≠ .ok (u, t) := by
  intro hrun
  simp only [disk_sleep, acquire, bind_ok] at hrun
  obtain ⟨mine, t', hmine, hrun⟩ := hrun
  split_ifs at hmine
  · simp at hmine
  · rw [(pure_ok.mp hmine).1, if_pos] at hrun
    · simp at hrun
    · rw [List.length_cons, ne_eq, Nat.add_eq_right]
      exact fun hlen => h (List.eq_nil_of_length_eq_zero hlen)

section scan
variable {disk : K Unit} (hdisk : ∀ s u t, disk s ≠ .ok (u, t))
include hdisk

theorem swapout_with_ok {res : Int} (h : swapout_with disk r va s = .ok (res, t)) :
    res = -1 ∧ swapout r va s = .ok (res, t) := by
  rw [swapout_with, bind_ok] at h
  obtain ⟨slot, t₁, hwalk, h⟩ := h
  rw [swapout, swapout_with, run_bind hwalk]
  cases slot with
  | none => exact ⟨(pure_ok.mp h).1, h⟩
  | some a =>
    obtain ⟨e, t₂, hload, h⟩ := (bind_ok _ _).mp h
    dsimp only
    rw [run_bind hload]
    split_ifs at h ⊢
    · exact ⟨(pure_ok.mp h).1, h⟩
    · exact ⟨(pure_ok.mp h).1, h⟩
    · exact ⟨(pure_ok.mp h).1, h⟩
    · obtain ⟨block, t₃, halloc, h⟩ := (bind_ok _ _).mp h
      rw [run_bind halloc]
      cases block with
      | none => exact ⟨(pure_ok.mp h).1, h⟩
      | some block =>
        simp only [bind_ok] at h
        obtain ⟨_, _, _, _, _, _, _, _, _, _, _, hsleep, _⟩ := h
        exact absurd hsleep (hdisk _ _ _)

theorem victim_loop_with_ok {found : Bool} (h : victim_loop_with (swapout_with disk) r n va s = .ok (found, t)) :
    found = false ∧ victim_loop r n va s = .ok (found, t) := by
  induction n generalizing va s with
  | zero =>
    rw [victim_loop_with] at h
    rw [victim_loop, victim_loop_with]
    exact ⟨(pure_ok.mp h).1, h⟩
  | succ n ih =>
    rw [victim_loop_with, bind_ok] at h
    obtain ⟨slot, t₁, hwalk, h⟩ := h
    rw [victim_loop, victim_loop_with, run_bind hwalk]
    cases slot with
    | none => exact ih h
    | some a =>
      obtain ⟨e, t₂, hload, h⟩ := (bind_ok _ _).mp h
      dsimp only
      rw [run_bind hload]
      split_ifs at h ⊢
      · obtain ⟨res, t₃, hout, h⟩ := (bind_ok _ _).mp h
        obtain ⟨rfl, hout⟩ := swapout_with_ok hdisk hout
        rw [run_bind hout]
        exact ih h
      · exact ih h

end scan

theorem victim_scan_locked_ok (hn : n ≤ NPROC) {res : Int} (h : victim_scan_locked me held n s = .ok (res, t)) :
    res = -1 ∧ victim_scan n s = .ok (res, t) ∧ ∀ i < NPROC, NPROC - n ≤ i → i ∉ held := by
  induction n generalizing s with
  | zero => exact ⟨(pure_ok.mp h).1, h, fun i hi hle => absurd hi (by omega)⟩
  | succ n ih =>
    rw [victim_scan_locked, acquire] at h
    split_ifs at h with hin
    · simp at h
    have hslot : ∀ i < NPROC, (NPROC - n ≤ i → i ∉ held) → NPROC - (n + 1) ≤ i → i ∉ held := by
      intro i hi hlater hle
      by_cases he : i = NPROC - (n + 1)
      · rwa [he]
      · exact hlater (by omega)
    rw [run_bind run_pure] at h
    obtain ⟨p, t₁, hp, h⟩ := (bind_ok _ _).mp h
    rw [victim_scan, run_bind hp]
    split_ifs at h ⊢
    · obtain ⟨found, t₂, hloop, h⟩ := (bind_ok _ _).mp h
      obtain ⟨rfl, hloop⟩ := victim_loop_with_ok (fun _ _ _ => disk_sleep_ne (List.cons_ne_nil _ _)) hloop
      rw [run_bind hloop]
      obtain ⟨hres, hscan, hno⟩ := ih (by omega) h
      exact ⟨hres, hscan, fun i hi => hslot i hi (hno i hi)⟩
    · obtain ⟨hres, hscan, hno⟩ := ih (by omega) h
      exact ⟨hres, hscan, fun i hi => hslot i hi (hno i hi)⟩

/-! ## `kalloc` -/

omit [Image] in
theorem kalloc_with_congr {x y : K Int} (h : s.freelist = [] → x s = y s) : kalloc_with x s = kalloc_with y s := by
  refine Op.bind_congr fun r t hpop => ?_
  rcases popfree_ok hpop with ⟨hnil, rfl, rfl⟩ | ⟨p, rest, -, rfl, -⟩
  · have hsel := h hnil
    simp only [bind, StateT.bind, hsel]
  · rfl

def freePages (s : Kernel) : Nat := s.freelist.length

/-- Nothing is swapped out, and if a lock is held no `kalloc` fails. -/
structure Calm (locked : Prop) (s t : Kernel) : Prop where
  swaps : t.stats.swap_outs = s.stats.swap_outs
  failures : locked → t.kalloc_failures = s.kalloc_failures

instance {locked : Prop} : IsPreorder Kernel (Calm locked) where
  refl _ := ⟨rfl, fun _ => rfl⟩
  trans _ _ _ h h' := ⟨h'.swaps.trans h.swaps, fun hq => (h'.failures hq).trans (h.failures hq)⟩

variable {locked : Prop}

abbrev Unspent (locked : Prop) : Kernel → Kernel → Prop := Op.Idle freePages (Calm locked)

/-- `x` is `y` under locks, and draws at most `k` free pages. -/
abbrev UnderLocks {α : Type} (locked : Prop) (k : Nat) (x y : K α) (s : Kernel) : Prop :=
  Op.Mirrors freePages (Calm locked) k x y s

theorem kalloc_locked_mirrors (hlocked : locked → ∃ i < NPROC, i ∈ held) (s : Kernel) :
    UnderLocks locked 1 (kalloc_locked me held) kalloc s where
  back a t h := by
    rcases kalloc_ok h with ⟨p, rest, hcons, rfl, rfl⟩ | ⟨hnil, v, t, hscan, hend⟩
    · refine ⟨?_, rfl, fun _ => rfl⟩
      rw [← h, kalloc, kalloc_locked]
      exact kalloc_with_congr fun hnil => by rw [hcons] at hnil; cases hnil
    · obtain ⟨rfl, hscan', hno⟩ := victim_scan_locked_ok (Nat.le_refl _) hscan
      obtain ⟨-, rfl⟩ := (victim_scan_ok NPROC (Nat.le_refl _) hscan').resolve_right fun hbad => by cases hbad.1
      refine ⟨?_, ?_⟩
      · rw [← h, kalloc, kalloc_locked]
        exact kalloc_with_congr fun _ => by rw [select_victim_page, hscan', hscan]
      · rcases hend with ⟨-, rfl, rfl⟩ | ⟨hbad, -⟩
        · refine ⟨rfl, fun hq => ?_⟩
          obtain ⟨i, hi, hin⟩ := hlocked hq
          exact absurd hin (hno i hi (by omega))
        · cases hbad
  forth a t h hle := by
    rcases kalloc_ok h with ⟨p, rest, hcons, rfl, rfl⟩ | ⟨hnil, -⟩
    · refine ⟨?_, by rw [freePages, hcons]; rfl⟩
      rw [← h, kalloc, kalloc_locked]
      exact kalloc_with_congr fun hnil => by rw [hcons] at hnil; cases hnil
    · rw [freePages, hnil] at hle
      exact absurd hle (by decide)

omit [Image] in
theorem idle_of_eq (hfree : t.freelist = s.freelist) (hsw : t.stats.swap_outs = s.stats.swap_outs)
    (hfail : t.kalloc_failures = s.kalloc_failures) : Unspent locked s t :=
  ⟨by rw [freePages, freePages, hfree], hsw, fun _ => hfail⟩

theorem idle_clears : Clears (Unspent locked) where
  write _ _ := idle_of_eq rfl rfl rfl
  give pa s u t h := by
    obtain ⟨-, -, rfl⟩ := kfree_ok h
    refine ⟨?_, freed_swap_outs, fun _ => ?_⟩
    · rw [freePages, freePages, freed_freelist]
      split_ifs
      · exact Nat.le_succ _
      · exact Nat.le_refl _
    · unfold freed
      split <;> rfl
  block k :=
    .ite (.stop _) (.bind (.gets _) fun sw => .ite (.update fun _ => idle_of_eq rfl rfl rfl) (.stop _))
  procs _ _ _ := idle_of_eq rfl rfl rfl

/-! ## The functions of `vm.c` and `proc.c` -/

section follows
variable {A : K (Option Nat)} (hA : ∀ s, UnderLocks locked 1 A kalloc s)
include hA

theorem walk_level_mirrors (p level va : Nat) (s : Kernel) : UnderLocks locked 1
    (walk_level (some A) p level va) (walk_level (some kalloc) p level va) s := by
  refine .skip (.gets _) fun e t _ => .ite (.pure _ _) ((hA _).bind 0 (by omega) fun res u _ => ?_)
  cases res with
  | none => exact .pure _ _
  | some q =>
    refine .skip (idle_clears.memset _ _ _) fun _ _ _ => .skip (idle_clears.store64 _ _) fun _ _ _ => .pure _ _

theorem walk_mirrors (r va : Nat) (s : Kernel) : UnderLocks locked 2
    (walk_with (some A) r va) (walk_with (some kalloc) r va) s := by
  refine .ite (.idle (.stop _) _) ((walk_level_mirrors hA _ _ _ _).bind 1 (by omega) fun t1 t _ => ?_)
  cases t1 with
  | none => exact .pure _ _
  | some t1 =>
    refine (walk_level_mirrors hA _ _ _ _).bind 0 (by omega) fun t0 u _ => ?_
    cases t0 <;> exact .pure _ _

theorem mappages_loop_mirrors (r : Nat) (perm : Pte) (n va pa : Nat) (s : Kernel) :
    UnderLocks locked (2 * (n + 1)) (mappages_loop_with A r perm n va pa) (mappages_loop r perm n va pa) s := by
  induction n generalizing va pa s with
  | zero =>
    unfold mappages_loop mappages_loop_with
    refine (walk_mirrors hA _ _ _).bind 0 (by omega) fun slot t _ => ?_
    cases slot with
    | none => exact .pure _ _
    | some a =>
      exact .skip (.gets _) fun e _ _ => .ite (.idle (.stop _) _) (.skip (idle_clears.store64 _ _) fun _ _ _ => .pure _ _)
  | succ n ih =>
    unfold mappages_loop mappages_loop_with
    refine (walk_mirrors hA _ _ _).bind (2 * (n + 1)) (by omega) fun slot t _ => ?_
    cases slot with
    | none => exact .pure _ _
    | some a =>
      exact .skip (.gets _) fun e _ _ => .ite (.idle (.stop _) _) (.skip (idle_clears.store64 _ _) fun _ _ _ => ih _ _ _)

theorem mappages_mirrors (r va size pa : Nat) (perm : Pte) (s : Kernel) :
    UnderLocks locked (2 * (size / PGSIZE - 1 + 1)) (mappages_with A r va size pa perm)
      (mappages r va size pa perm) s :=
  .ite (.idle (.stop _) _) (.ite (.idle (.stop _) _) (.ite (.idle (.stop _) _) (mappages_loop_mirrors hA _ _ _ _ _ _)))

theorem proc_pagetable_mirrors (i : Nat) (s : Kernel) :
    UnderLocks locked 5 (proc_pagetable_with A i) (proc_pagetable i) s := by
  have hcreate : ∀ s, UnderLocks locked 1 (uvmcreate_with A) uvmcreate s := by
    refine fun s => (hA s).bind 0 (by omega) fun res t _ => ?_
    cases res with
    | none => exact .pure _ _
    | some p => exact .skip (idle_clears.memset _ _ _) fun _ _ _ => .pure _ _
  refine (hcreate s).bind 4 (by omega) fun root t _ => ?_
  cases root with
  | none => exact .pure _ _
  | some r =>
    refine (mappages_mirrors hA _ _ _ _ _ _).bind 2 (by decide) fun res t _ => .ite ?_ (.skip (.gets _) fun p t _ =>
      (mappages_mirrors hA _ _ _ _ _ _).bind 0 (by decide) fun res t _ => .ite ?_ (.pure _ _))
    · exact .skip (idle_clears.uvmfree _ _) fun _ _ _ => .pure _ _
    · exact .skip (idle_clears.uvmunmap _ _ _ _) fun _ _ _ => .skip (idle_clears.uvmfree _ _) fun _ _ _ => .pure _ _

theorem uvmcopy_page_mirrors (old new va : Nat) (s : Kernel) :
    UnderLocks locked 2 (uvmcopy_page_with A old new va) (uvmcopy_page old new va) s := by
  have hraise : ∀ pa, Keeps (Unspent locked) (krefinc pa) := by
    refine fun pa => .ite (.stop _) (.bind (.ite (.stop _) (.pure _)) fun i => .bind (.gets _) fun n => ?_)
    exact .update fun _ => idle_of_eq rfl rfl rfl
  have hshare : ∀ pa flags s, UnderLocks locked 2 (uvmcopy_share_with A new va pa flags)
      (uvmcopy_share new va pa flags) s := fun pa flags s =>
    (mappages_mirrors hA _ _ _ _ _ _).bind 0 (by decide) fun res t _ => .ite (.pure _ _)
      (.skip (hraise _) fun _ _ _ => .pure _ _)
  have hcount : ∀ pa flags s, UnderLocks locked 2 (do
      let ok ← uvmcopy_share_with A new va pa flags
      if ok then memstats_inc_cow_shared else pure ()
      pure ok) (do
      let ok ← uvmcopy_share new va pa flags
      if ok then memstats_inc_cow_shared else pure ()
      pure ok) s := fun pa flags s => (hshare _ _ _).bind 0 (by decide) fun ok t _ =>
    .ite (.skip (.update fun _ => idle_of_eq rfl rfl rfl) fun _ _ _ => .pure _ _) (.pure _ _)
  refine .skip (walk0_keeps _ _) fun slot t _ => ?_
  cases slot with
  | none => exact .pure _ _
  | some a =>
    refine .skip (.gets _) fun e t _ => .ite (.pure _ _) (.ite (.pure _ _) (.ite (hshare _ _ _) (.ite ?_ (hcount _ _ _))))
    exact .skip (idle_clears.store64 _ _) fun _ _ _ => hcount _ _ _

theorem uvmcopy_loop_mirrors (old new n va : Nat) (s : Kernel) :
    UnderLocks locked (2 * n) (uvmcopy_loop_with A old new n va) (uvmcopy_loop old new n va) s := by
  induction n generalizing va s with
  | zero => exact .pure _ _
  | succ n ih =>
    refine (uvmcopy_page_mirrors hA _ _ _ _).bind (2 * n) (by omega) fun ok t _ => .ite (ih _ _) ?_
    exact .skip (idle_clears.uvmunmap _ _ _ _) fun _ _ _ => .pure _ _

end follows

section fork
variable {A : Nat → K (Option Nat)} (hA : ∀ j < NPROC, ∀ s, UnderLocks locked 1 (A j) kalloc s)
include hA

theorem allocproc_mirrors (s : Kernel) : UnderLocks locked 6 (allocproc_with A) allocproc s := by
  refine .skip (.gets _) fun procs t _ => ?_
  cases hfind : (List.range NPROC).find? fun i => (procs i).state = .UNUSED with
  | none => exact .pure _ _
  | some j =>
    have hj := hA j (List.mem_range.mp (List.mem_of_find?_eq_some hfind))
    have hundo : ∀ f, Keeps (Unspent locked) (do
        modifyProc j f
        freeproc j
        pure none : K (Option Nat)) := fun f =>
      .bind (idle_clears.modifyProc _ _) fun _ => .bind (idle_clears.freeproc _) fun _ => .pure _
    refine .skip (.bind (.gets _) fun pid => .bind (.update fun _ => idle_clears.procs _ _ _) fun _ => .pure _)
      fun pid t _ => .skip (idle_clears.modifyProc _ _) fun _ t _ => (hj t).bind 5 (by omega) fun res t _ => ?_
    cases res with
    | none => exact .idle (hundo _) _
    | some frame =>
      refine .skip (idle_clears.modifyProc _ _) fun _ t _ => (proc_pagetable_mirrors hj _ _).bind 0 (by omega)
        fun root t _ => ?_
      cases root with
      | none => exact .idle (hundo _) _
      | some r => exact .skip (idle_clears.modifyProc _ _) fun _ _ _ => .pure _ _

theorem kfork_mirrors (hslot : ∀ j t, allocproc s = .ok (some j, t) → j < NPROC ∧ t.proc i = s.proc i) :
    UnderLocks locked (6 + 2 * npages (s.proc i).sz) (kfork_with A i) (kfork i) s := by
  refine (allocproc_mirrors hA s).bind (2 * npages (s.proc i).sz) (by omega) fun slot t halloc => ?_
  cases slot with
  | none => exact .pure _ _
  | some j =>
    obtain ⟨hj, hproc⟩ := hslot j t halloc
    refine .skip (.gets _) fun p u hp => .skip (.gets _) fun np u' _ => ?_
    obtain ⟨rfl, -⟩ := (gets_ok _).mp hp
    rw [← hproc]
    refine (uvmcopy_loop_mirrors (hA j hj) _ _ _ _ _).bind 0 (Nat.le_refl _) fun res w _ => .ite ?_ (.idle ?_ _)
    · exact .skip (idle_clears.freeproc _) fun _ _ _ => .pure _ _
    · exact .bind (idle_clears.modifyProc _ _) fun _ => .bind (idle_clears.memmove _ _ _) fun _ =>
        .bind (idle_clears.store64 _ _) fun _ => .bind (idle_clears.modifyProc _ _) fun _ =>
        .bind (idle_clears.modifyProc _ _) fun _ => .bind (idle_clears.modifyProc _ _) fun _ => .pure _

end fork

/-- The pages that a fork may allocate. -/
def fork_pages (s : Kernel) (i : Nat) : Nat := 6 + 2 * npages (s.proc i).sz

/-- A fork under locks is a fork in which no `kalloc` fails and nothing is swapped out, if there are enough free pages. -/
theorem Good.kfork_locked_fork {n₀ : Nat} {L : Prop} {C : Finset Nat} (h : Good n₀ L s C) (hu : (s.proc i).state ≠ .UNUSED) :
    UnderLocks True (fork_pages s i) (kfork_locked i) (kfork i) s := by
  refine kfork_mirrors (fun j hj => kalloc_locked_mirrors fun _ => ⟨j, hj, List.mem_singleton_self j⟩) fun j t halloc => ?_
  have ha := (allocproc_ends (Z := False) h False.elim).of_ok halloc
  exact ⟨(ha.fresh j rfl).lt, ha.alive i hu⟩

theorem Good.kfork_swaps {n₀ : Nat} {L : Prop} {C : Finset Nat} {pid : Int} (h : Good n₀ L s C)
    (hu : (s.proc i).state ≠ .UNUSED) (hrun : kfork i s = .ok (pid, t)) (hfree : fork_pages s i ≤ s.freelist.length) :
    t.stats.swap_outs = s.stats.swap_outs :=
  ((h.kfork_locked_fork hu).draws pid t hrun hfree).2.swaps

end Xv6
