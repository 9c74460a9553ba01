import Xv6.Evict
import Xv6.Exec

/-!
# What is on disk stays there

Only `swapout` writes blocks, and every other function reaches them through `kalloc`. So without a swap-out the disk and
the buffers are as before.
-/

open Xv6.Lib Op

namespace Xv6

variable {α : Type}

/-! ## Relations that the memory code keeps -/

section keeps
variable [Image] {R : Kernel → Kernel → Prop} [IsPreorder Kernel R]

omit [Image] in
theorem walk0_keeps (pagetable va : Nat) : Keeps R (walk0 pagetable va) := by
  intro s r s' h
  obtain ⟨-, rfl, -⟩ := walk0_ok h
  exact refl _

theorem walkaddr_keeps (pagetable va : Nat) : Keeps R (walkaddr pagetable va) := by
  refine .ite (.pure _) (.bind (walk0_keeps _ _) fun pte => ?_)
  cases pte with
  | none => exact .pure _
  | some pte => exact .bind (.gets _) fun e => .ite (.pure _) (.ite (.pure _) (.pure _))

theorem victim_keeps (h : ∀ pagetable va, Keeps R (swapout pagetable va)) : Keeps R select_victim_page := by
  intro s res s' hrun
  obtain ⟨-, rfl⟩ | ⟨-, i, -, -, -, a, -, hout⟩ := victim_scan_ok NPROC (Nat.le_refl _) hrun
  · exact refl _
  · exact h _ _ _ _ _ hout

/-- The relation is kept by memory writes and by giving back pages. -/
structure Gives (R : Kernel → Kernel → Prop) : Prop where
  write : ∀ s m, R s { s with mem := m }
  give : ∀ pa, Keeps R (kfree pa)

namespace Gives

variable (h : Gives R)
include h

section
omit [IsPreorder Kernel R]

theorem store64 (a : Nat) (w : BitVec 64) : Keeps R (store64 a w) := .update fun s => h.write s _

theorem memset (a : Nat) (c : Byte) (n : Nat) : Keeps R (memset a c n) := .update fun s => h.write s _

theorem memmove (dst src n : Nat) : Keeps R (memmove dst src n) := .update fun s => h.write s _

theorem blit (a : Nat) (bs : List Byte) : Keeps R (blit a bs) := .update fun s => h.write s _

end

theorem uvmunmap_leave (pagetable va npages : Nat) : Keeps R (uvmunmap pagetable va npages false) := by
  refine .ite (.stop _) ?_
  induction npages generalizing va with
  | zero => exact .pure _
  | succ n ih =>
    unfold uvmunmap_loop
    refine .bind (walk0_keeps _ _) fun pte => ?_
    cases pte with
    | none => exact ih _
    | some pte =>
      refine .bind (.gets _) fun e => .ite (ih _) ?_
      rw [if_neg (by decide)]
      exact .bind (h.store64 _ _) fun _ => ih _

theorem freewalk_loop {f : Nat → K Unit} (hf : ∀ p, Keeps R (f p)) (pagetable n : Nat) :
    Keeps R (freewalk_loop f pagetable n) := by
  induction n with
  | zero => exact .pure _
  | succ n ih =>
    unfold Xv6.freewalk_loop
    refine .bind (.gets _) fun e => .ite ?_ (.ite (.stop _) ih)
    exact .bind (hf _) fun _ => .bind (h.store64 _ _) fun _ => ih

theorem freewalk (depth pagetable : Nat) : Keeps R (freewalk depth pagetable) := by
  induction depth generalizing pagetable with
  | zero => exact .stop _
  | succ depth ih => exact .bind (h.freewalk_loop ih _ _) fun _ => h.give _

theorem uvmclear (pagetable va : Nat) : Keeps R (uvmclear pagetable va) := by
  refine .bind (walk0_keeps _ _) fun pte => ?_
  cases pte with
  | none => exact .stop _
  | some pte => exact .bind (.gets _) fun e => h.store64 _ _

theorem loadseg_loop (pagetable va : Nat) (ip : List Byte) (offset sz n i : Nat) :
    Keeps R (loadseg_loop pagetable va ip offset sz n i) := by
  induction n generalizing i with
  | zero => exact .pure _
  | succ n ih =>
    unfold Xv6.loadseg_loop
    refine .bind (walkaddr_keeps _ _) fun pa => .ite (.stop _) (.bind (h.blit _ _) fun _ => .ite (.pure _) (ih _))

theorem uvmfree_zero (pagetable : Nat) : Keeps R (uvmfree pagetable 0) := by
  rw [Xv6.uvmfree, if_neg (by decide)]
  exact h.freewalk _ _

end Gives

structure Empties (R : Kernel → Kernel → Prop) : Prop extends Gives R where
  block : ∀ k, Keeps R (swapfree k)

namespace Empties

variable (h : Empties R)
include h

theorem uvmunmap_loop (pagetable : Nat) (do_free : Bool) (n a : Nat) :
    Keeps R (uvmunmap_loop pagetable do_free n a) := by
  induction n generalizing a with
  | zero => exact .pure _
  | succ n ih =>
    unfold Xv6.uvmunmap_loop
    refine .bind (walk0_keeps _ _) fun pte => ?_
    cases pte with
    | none => exact ih _
    | some pte =>
      have hclear : Keeps R (do
          Xv6.store64 pte 0
          Xv6.uvmunmap_loop pagetable do_free n (a + PGSIZE)) := .bind (h.store64 _ _) fun _ => ih _
      refine .bind (.gets _) fun e => .ite (ih _) (.ite (.ite ?_ ?_) hclear)
      · exact .bind (h.block _) fun _ => hclear
      · exact .bind (h.give _) fun _ => hclear

theorem uvmunmap (pagetable va npages : Nat) (do_free : Bool) :
    Keeps R (uvmunmap pagetable va npages do_free) := .ite (.stop _) (h.uvmunmap_loop _ _ _ _)

theorem uvmdealloc (pagetable oldsz newsz : Nat) : Keeps R (uvmdealloc pagetable oldsz newsz) := by
  refine .ite (.pure _) (.ite ?_ (.pure _))
  exact .bind (h.uvmunmap _ _ _ _) fun _ => .pure _

theorem uvmfree (pagetable sz : Nat) : Keeps R (uvmfree pagetable sz) := by
  refine .ite ?_ (h.freewalk _ _)
  exact .bind (h.uvmunmap _ _ _ _) fun _ => h.freewalk _ _

theorem proc_freepagetable (pagetable sz : Nat) : Keeps R (proc_freepagetable pagetable sz) :=
  .bind (h.uvmunmap _ _ _ _) fun _ => .bind (h.uvmunmap _ _ _ _) fun _ => h.uvmfree _ _

end Empties

structure Clears (R : Kernel → Kernel → Prop) : Prop extends Empties R where
  procs : ∀ s p n, R s { s with proc := p, nextpid := n }

namespace Clears

variable (h : Clears R)
include h

theorem modifyProc (i : Nat) (f : Proc → Proc) : Keeps R (modifyProc i f) :=
  .bind (.gets _) fun _ => .update fun _ => h.procs _ _ _

theorem freeproc (i : Nat) : Keeps R (freeproc i) := by
  have hclear : ∀ p : Proc, Keeps R (do
      Xv6.modifyProc i fun p => { p with trapframe := 0 }
      if p.pagetable ≠ 0 then Xv6.proc_freepagetable p.pagetable p.sz else pure ()
      Xv6.modifyProc i fun p => { p with
        pagetable := 0, sz := 0, pid := 0, parent := none, name := [], killed := false, xstate := 0,
        state := .UNUSED }) := fun p =>
    .bind (h.modifyProc _ _) fun _ =>
      .ite (.bind (h.proc_freepagetable _ _) fun _ => h.modifyProc _ _) (h.modifyProc _ _)
  refine .bind (.gets _) fun p => .ite ?_ (hclear p)
  exact .bind (h.give _) fun _ => hclear p

end Clears

structure Paged (R : Kernel → Kernel → Prop) : Prop extends Gives R where
  take : Keeps R kalloc

namespace Paged

variable (h : Paged R)
include h

theorem walk_level (pagetable level va : Nat) : Keeps R (walk_level (some kalloc) pagetable level va) := by
  refine .bind (.gets _) fun e => .ite (.pure _) (.bind h.take fun r => ?_)
  cases r with
  | none => exact .pure _
  | some p => exact .bind (h.memset _ _ _) fun _ => .bind (h.store64 _ _) fun _ => .pure _

theorem walk (pagetable va : Nat) : Keeps R (walk pagetable va true) := by
  refine .ite (.stop _) (.bind (h.walk_level _ _ _) fun t1 => ?_)
  cases t1 with
  | none => exact .pure _
  | some t1 =>
    refine .bind (h.walk_level _ _ _) fun t0 => ?_
    cases t0 <;> exact .pure _

theorem mappages_loop (pagetable : Nat) (perm : Pte) (n a pa : Nat) :
    Keeps R (mappages_loop pagetable perm n a pa) := by
  induction n generalizing a pa with
  | zero =>
    unfold Xv6.mappages_loop mappages_loop_with
    refine .bind (h.walk _ _) fun pte => ?_
    cases pte with
    | none => exact .pure _
    | some pte =>
      refine .bind (.gets _) fun e => .ite (.stop _) ?_
      exact .bind (h.store64 _ _) fun _ => .pure _
  | succ n ih =>
    unfold Xv6.mappages_loop mappages_loop_with
    refine .bind (h.walk _ _) fun pte => ?_
    cases pte with
    | none => exact .pure _
    | some pte =>
      refine .bind (.gets _) fun e => .ite (.stop _) ?_
      exact .bind (h.store64 _ _) fun _ => ih _ _

theorem mappages (pagetable va size pa : Nat) (perm : Pte) : Keeps R (mappages pagetable va size pa perm) :=
  .ite (.stop _) (.ite (.stop _) (.ite (.stop _) (h.mappages_loop _ _ _ _ _)))

theorem uvmcreate : Keeps R uvmcreate := by
  refine .bind h.take fun r => ?_
  cases r with
  | none => exact .pure _
  | some r => exact .bind (h.memset _ _ _) fun _ => .pure _

theorem proc_pagetable (i : Nat) : Keeps R (proc_pagetable i) := by
  refine .bind h.uvmcreate fun r => ?_
  cases r with
  | none => exact .pure _
  | some pagetable =>
    refine .bind (h.mappages _ _ _ _ _) fun r => .ite (.bind (h.uvmfree_zero _) fun _ => .pure _) ?_
    refine .bind (.gets _) fun p => .bind (h.mappages _ _ _ _ _) fun r => .ite ?_ (.pure _)
    exact .bind (h.uvmunmap_leave _ _ _) fun _ => .bind (h.uvmfree_zero _) fun _ => .pure _

theorem vmfault (i pagetable va : Nat) : Keeps R (vmfault i pagetable va) := by
  refine .bind (.gets _) fun pr => .ite (.pure _) (.bind (.bind (walk0_keeps _ _) fun pte => ?_) fun mapped =>
    .ite (.pure _) (.bind h.take fun mem => ?_))
  · cases pte with
    | none => exact .pure _
    | some a => exact .bind (.gets _) fun _ => .pure _
  · cases mem with
    | none => exact .pure _
    | some mem =>
      refine .bind (h.memset _ _ _) fun _ => .bind (h.mappages _ _ _ _ _) fun res => .ite ?_ (.pure _)
      exact .bind (h.give _) fun _ => .pure _

theorem cowfault (hd : ∀ pa, Keeps R (krefdec pa)) (pagetable va : Nat) : Keeps R (cowfault pagetable va) := by
  refine .bind (walk0_keeps _ _) fun pte => ?_
  cases pte with
  | none => exact .pure _
  | some a =>
    refine .bind (.gets _) fun e => .ite (.pure _) (.ite (.pure _) (.bind h.take fun mem => ?_))
    cases mem with
    | none => exact .pure _
    | some mem =>
      exact .bind (h.memmove _ _ _) fun _ => .bind (h.store64 _ _) fun _ => .bind (hd _) fun _ => .pure _

end Paged

structure Framed (R : Kernel → Kernel → Prop) : Prop extends Paged R, Empties R

namespace Framed

variable (h : Framed R)
include h

theorem uvmalloc_loop (pagetable oldsz : Nat) (xperm : Pte) (n a : Nat) :
    Keeps R (uvmalloc_loop pagetable oldsz xperm n a) := by
  induction n generalizing a with
  | zero => exact .pure _
  | succ n ih =>
    have hback : Keeps R (do let _ ← Xv6.uvmdealloc pagetable a oldsz; Pure.pure false) :=
      .bind (h.uvmdealloc _ _ _) fun _ => .pure _
    unfold Xv6.uvmalloc_loop
    refine .bind h.take fun mem => ?_
    cases mem with
    | none => exact hback
    | some mem =>
      refine .bind (h.memset _ _ _) fun _ => .bind (h.mappages _ _ _ _ _) fun r => .ite ?_ (ih _)
      exact .bind (h.give _) fun _ => hback

theorem uvmalloc (pagetable oldsz newsz : Nat) (xperm : Pte) :
    Keeps R (uvmalloc pagetable oldsz newsz xperm) :=
  .ite (.pure _) (.bind (h.uvmalloc_loop _ _ _ _ _) fun _ => .ite (.pure _) (.pure _))

theorem kexec_load (pagetable : Nat) (ip : List Byte) (n off sz : Nat) :
    Keeps R (kexec_load pagetable ip n off sz) := by
  induction n generalizing off sz with
  | zero => exact .pure _
  | succ n ih =>
    unfold Xv6.kexec_load
    refine .ite (.pure _) (.ite (ih _ _) (.ite (.pure _) (.ite (.pure _) (.ite (.pure _) ?_))))
    refine .bind (h.uvmalloc _ _ _ _) fun sz1 => .ite (.pure _) ?_
    exact .bind (h.loadseg_loop _ _ _ _ _ _ _) fun r => .ite (.pure _) (ih _ _)

end Framed

structure Copies (R : Kernel → Kernel → Prop) : Prop extends Paged R where
  raise : ∀ pa, Keeps R (krefinc pa)
  stats : ∀ s m, m.swap_outs = s.stats.swap_outs → m.swap_blocks_used = s.stats.swap_blocks_used →
    R s { s with stats := m }

namespace Copies

variable (h : Copies R)
include h

theorem uvmcopy_share (new i pa : Nat) (flags : Pte) : Keeps R (uvmcopy_share new i pa flags) :=
  .bind (h.mappages _ _ _ _ _) fun _ => .ite (.pure _) (.bind (h.raise _) fun _ => .pure _)

theorem uvmcopy_page (old new i : Nat) : Keeps R (uvmcopy_page old new i) := by
  have hcount : ∀ pa flags, Keeps R (do
      let ok ← Xv6.uvmcopy_share new i pa flags
      if ok then memstats_inc_cow_shared else pure ()
      pure ok) := fun pa flags =>
    .bind (h.uvmcopy_share _ _ _ _) fun ok =>
      .ite (.bind (.update fun _ => h.stats _ _ rfl rfl) fun _ => .pure _) (.pure _)
  refine .bind (walk0_keeps _ _) fun pte => ?_
  cases pte with
  | none => exact .pure _
  | some pte =>
    refine .bind (.gets _) fun e => .ite (.pure _) (.ite (.pure _) (.ite ?_ (.ite ?_ (hcount _ _))))
    · exact h.uvmcopy_share _ _ _ _
    · exact .bind (h.store64 _ _) fun _ => hcount _ _

end Copies

structure Forks (R : Kernel → Kernel → Prop) : Prop extends Framed R, Copies R, Clears R

namespace Forks

variable (h : Forks R)
include h

theorem uvmcopy_loop (old new n i : Nat) : Keeps R (uvmcopy_loop old new n i) := by
  induction n generalizing i with
  | zero => exact .pure _
  | succ n ih =>
    unfold Xv6.uvmcopy_loop uvmcopy_loop_with
    refine .bind (h.uvmcopy_page _ _ _) fun ok => .ite (ih _) ?_
    exact .bind (h.uvmunmap _ _ _ _) fun _ => .pure _

theorem allocproc : Keeps R allocproc := by
  refine .bind (.gets _) fun procs => ?_
  split
  · exact .pure _
  · rename_i i _
    have hundo : ∀ f, Keeps R (do
        Xv6.modifyProc i f
        Xv6.freeproc i
        pure none : K (Option Nat)) := fun f =>
      .bind (h.modifyProc _ _) fun _ => .bind (h.freeproc _) fun _ => .pure _
    refine .bind (.bind (.gets _) fun pid => .bind ?_ fun _ => .pure _) fun pid =>
      .bind (h.modifyProc _ _) fun _ => .bind h.take fun r => ?_
    · exact .update fun _ => h.procs _ _ _
    · cases r with
      | none => exact hundo _
      | some trapframe =>
        refine .bind (h.modifyProc _ _) fun _ => .bind (h.proc_pagetable _) fun r => ?_
        cases r with
        | none => exact hundo _
        | some pagetable => exact .bind (h.modifyProc _ _) fun _ => .pure _

theorem kfork (i : Nat) : Keeps R (kfork i) := by
  refine .bind h.allocproc fun r => ?_
  cases r with
  | none => exact .pure _
  | some j =>
    refine .bind (.gets _) fun p => .bind (.gets _) fun np => .bind (h.uvmcopy_loop _ _ _ _) fun r => ?_
    refine .ite (.bind (h.freeproc _) fun _ => .pure _) ?_
    exact .bind (h.modifyProc _ _) fun _ => .bind (h.memmove _ _ _) fun _ =>
      .bind (h.store64 _ _) fun _ => .bind (h.modifyProc _ _) fun _ =>
      .bind (h.modifyProc _ _) fun _ => .bind (h.modifyProc _ _) fun _ => .pure _

end Forks

end keeps

/-! ## The disk -/

structure Later (s s' : Kernel) : Prop where
  swaps : s.stats.swap_outs ≤ s'.stats.swap_outs
  failures : s.kalloc_failures ≤ s'.kalloc_failures
  accesses : s.accesses <:+ s'.accesses
  blocks : s'.stats.swap_outs = s.stats.swap_outs →
    s'.disk = s.disk ∧ s'.bmem = s.bmem ∧ s'.bufdata = s.bufdata

instance : IsPreorder Kernel Later where
  refl _ := ⟨Nat.le_refl _, Nat.le_refl _, List.suffix_rfl, fun _ => ⟨rfl, rfl, rfl⟩⟩
  trans s t s' h h' := by
    have hsw := h.swaps
    have hsw' := h'.swaps
    refine ⟨hsw.trans hsw', h.failures.trans h'.failures, h.accesses.trans h'.accesses, fun he => ?_⟩
    obtain ⟨h1, h2, h3⟩ := h.blocks (by omega)
    obtain ⟨h1', h2', h3'⟩ := h'.blocks (by omega)
    exact ⟨h1'.trans h1, h2'.trans h2, h3'.trans h3⟩

theorem Later.of_eq {s s' : Kernel} (hsw : s'.stats.swap_outs = s.stats.swap_outs)
    (hf : s'.kalloc_failures = s.kalloc_failures) (hl : s'.accesses = s.accesses)
    (hd : s'.disk = s.disk) (hb : s'.bmem = s.bmem) (ha : s'.bufdata = s.bufdata) : Later s s' :=
  ⟨hsw.ge, hf.ge, by rw [hl], fun _ => ⟨hd, hb, ha⟩⟩

theorem krefinc_later (pa : Nat) : Keeps Later (krefinc pa) := by
  refine .ite (.stop _) (.bind (.ite (.stop _) (.pure _)) fun i => .bind (.gets _) fun n => ?_)
  exact .update fun _ => .of_eq rfl rfl rfl rfl rfl rfl

theorem swapfree_later (k : Nat) : Keeps Later (swapfree k) := by
  refine .ite (.stop _) (.bind (.gets _) fun sw => .ite ?_ (.stop _))
  exact .update fun _ => .of_eq rfl rfl rfl rfl rfl rfl

theorem freed_later (P : Nat) (s : Kernel) : Later s (freed P s) := by
  unfold freed
  split <;> exact .of_eq rfl rfl rfl rfl rfl rfl

variable [Image]

theorem swapout_later (pagetable va : Nat) : Keeps Later (swapout pagetable va) := by
  intro s res s' h
  rcases swapout_ok h with ⟨-, rfl⟩ | ⟨-, -, q, k, -, -, -, -, t, ht, rfl⟩
  · exact refl _
  · have hlate := freed_later (PTE2PA (pte s.mem pagetable (va / PGSIZE))) t
    have hsw : t.stats.swap_outs = s.stats.swap_outs := by rw [ht]; rfl
    have hf : t.kalloc_failures = s.kalloc_failures := by rw [ht]; rfl
    have hl : s.accesses <:+ t.accesses := by
      rw [ht]
      exact List.suffix_cons _ _
    have hsw' := hlate.swaps
    have hf' := hlate.failures
    refine ⟨?_, ?_, hl.trans hlate.accesses, fun he => absurd he ?_⟩
    all_goals
      simp only
      omega

theorem kalloc_later : Keeps Later kalloc := by
  intro s r s' h
  rcases kalloc_ok h with ⟨p, rest, -, -, rfl⟩ | ⟨-, v, t, hvictim, hend⟩
  · exact .of_eq rfl rfl rfl rfl rfl rfl
  · refine trans_of Later (victim_keeps swapout_later _ _ _ hvictim) ?_
    rcases hend with ⟨-, -, rfl⟩ | ⟨-, p, rest, -, -, rfl⟩
    · exact ⟨Nat.le_refl _, Nat.le_succ _, List.suffix_rfl, fun _ => ⟨rfl, rfl, rfl⟩⟩
    · exact .of_eq rfl rfl rfl rfl rfl rfl

theorem Later.forks : Forks Later where
  write := fun _ _ => .of_eq rfl rfl rfl rfl rfl rfl
  take := kalloc_later
  give := by
    intro pa s u s' h
    obtain ⟨-, -, rfl⟩ := kfree_ok h
    exact freed_later pa s
  block := swapfree_later
  raise := krefinc_later
  stats := fun _ _ hsw _ => .of_eq hsw rfl rfl rfl rfl rfl
  procs := fun _ _ _ => .of_eq rfl rfl rfl rfl rfl rfl

end Xv6
