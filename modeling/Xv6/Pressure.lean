import Xv6.Fork

/-!
# Pages under memory pressure

A `kalloc` that finds no free page swaps a user page out and hands it on. `uvmcopy` reads the
address of the parent's page before the child's walk allocates tables, and maps it afterwards.
-/

open Xv6.Lib Op Radix

namespace Xv6

variable [Image] {n₀ : Nat} {L : Prop} {i : Nat} {y y' : System}

/-! ## One step -/

/-- A fork finds enough free pages, or every page of the parent in memory is writable or copy-on-write. -/
def StepCalm (y : System) : Action → Prop
  | .call i .fork =>
    fork_pages y.kernel i ≤ y.kernel.freelist.length ∨ Firm y.kernel (y.kernel.proc i).pagetable
  | _ => True

omit [Image] in
theorem stepFirm_of_ne_fork {a : Action} (h : ∀ i, a ≠ .call i .fork) : StepFirm y a := by
  cases a with
  | call i c =>
    cases c with
    | fork => exact absurd rfl (h i)
    | _ => trivial
  | _ => trivial

theorem fork_step (h : step y (.call i .fork) = some y') :
    (y.kernel.proc i).state = .RUNNING ∧ ∃ res, kfork i y.kernel = .ok (res, y'.kernel) := by
  simp only [step] at h
  split_ifs at h with hcond
  obtain ⟨_, hcall, -⟩ := lift_some h
  simp only [perform, bind_ok, getProc, gets_ok, pure_ok] at hcall
  obtain ⟨_, s, ⟨rfl, rfl⟩, res, t, hfork, -, rfl⟩ := hcall
  exact ⟨hcond.2, res, hfork⟩

/-- The sharing of pages between leaves and tables is put off past the end of the step. -/
theorem StepCalm.noTableLeaf {a : Action} (h : StepCalm y a) (hg : Good n₀ False y.kernel y.client)
    (hno : NoTableLeaf y.kernel (roots y.kernel.proc)) (hstep : step y a = some y') :
    Good 0 False y'.kernel y'.client ∧ NoTableLeaf y'.kernel (roots y'.kernel.proc) := by
  have hlater (m : Nat) (hq : m ≤ y.kernel.stats.swap_outs ∨ StepFirm y a)
      (hm : y'.kernel.stats.swap_outs ≤ m) :
      Good 0 False y'.kernel y'.client ∧ NoTableLeaf y'.kernel (roots y'.kernel.proc) := by
    have hgood := (step_good (hg.rebase hno m) (fun hl => hl.elim) hq hstep).1
    have hno' := hgood.inv.noTableLeaf hm
    exact ⟨hgood.rebase hno' 0, hno'⟩
  by_cases hf : ∃ i, a = .call i .fork
  · obtain ⟨i, rfl⟩ := hf
    rcases h with hfree | hfirm
    · obtain ⟨hst, res, hfork⟩ := fork_step hstep
      exact hlater _ (.inl (Nat.le_refl _)) (hg.kfork_swaps (by rw [hst]; decide) hfork hfree).le
    · exact hlater _ (.inr hfirm) (Nat.le_refl _)
  · exact hlater _ (.inr (stepFirm_of_ne_fork fun i hi => hf ⟨i, hi⟩)) (Nat.le_refl _)

/-! ## Runs -/

def RunCalm : List Action → System → Prop
  | [], _ => True
  | a :: acts, y => StepCalm y a ∧ ∀ y', step y a = some y' → RunCalm acts y'

theorem RunCalm.noTableLeaf {acts : List Action} (h : RunCalm acts y)
    (hg : Good n₀ False y.kernel y.client) (hno : NoTableLeaf y.kernel (roots y.kernel.proc))
    (hrun : run acts y = some y') :
    Good 0 False y'.kernel y'.client ∧ NoTableLeaf y'.kernel (roots y'.kernel.proc) := by
  induction acts generalizing y n₀ with
  | nil =>
    cases hrun
    exact ⟨hg.rebase hno 0, hno⟩
  | cons a acts ih =>
    simp only [run, List.foldlM_cons, Option.bind_eq_bind, Option.bind_eq_some_iff] at hrun
    obtain ⟨t, hstep, hrun⟩ := hrun
    obtain ⟨hg', hno'⟩ := h.1.noTableLeaf hg hno hstep
    exact ih (h.2 t hstep) hg' hno' hrun

/-- The page is not free, and the kernel does not have it for itself. -/
def UserOnly (y : System) (P : Nat) : Prop := P ∉ y.kernel.freelist ∧ ¬ KernelPage y P

theorem Good.userOnly {r v : Nat} (h : Good n₀ L y.kernel y.client)
    (hno : NoTableLeaf y.kernel (roots y.kernel.proc)) (hr : r ∈ roots y.kernel.proc) (hv : v < 512 ^ 3)
    (hV : has (pte y.kernel.mem r v) PTE_V = true) (hU : has (pte y.kernel.mem r v) PTE_U = true) :
    UserOnly y (PTE2PA (pte y.kernel.mem r v)) := by
  have hu := h.inv.user_of_U hr hv hU
  have hP := points_some hV
  have hgoal : goal y.kernel.mem (roots y.kernel.proc) (held y.kernel.proc y.client) (.leaf r v) =
      some (PTE2PA (pte y.kernel.mem r v)) := by rw [goal_leaf hr hu, hP]
  refine ⟨h.inv.books.not_free hgoal, ?_⟩
  rintro (hheld | ⟨r', hr', n, hn⟩)
  · cases h.inv.held_only hheld hgoal
  · exact hno r hr v hu _ hP r' hr' n hn

/-- If no fork under memory pressure has a parent with read-only pages, then in every reachable state
a page that a user leaf maps is not free, not a table, not a trapframe and not a page of another part
of the kernel. -/
theorem no_double_use {acts : List Action} {y₀ : System} (hb : Booted y₀) (hcalm : RunCalm acts y₀)
    (hrun : run acts y₀ = some y) : ∀ r ∈ roots y.kernel.proc, ∀ v < 512 ^ 3,
      has (pte y.kernel.mem r v) PTE_V = true → has (pte y.kernel.mem r v) PTE_U = true →
        UserOnly y (PTE2PA (pte y.kernel.mem r v)) := by
  have hg := hb.good y₀.kernel.stats.swap_outs False
  obtain ⟨hgood, hno⟩ := hcalm.noTableLeaf hg (hg.inv.noTableLeaf (Nat.le_refl _)) hrun
  exact fun r hr v hv hV hU => hgood.userOnly hno hr hv hV hU

omit [Image] in
theorem no_double_use_fork : ∃ y, @run smallImage forkRun bootSystem = some y ∧
    ∀ r ∈ roots y.kernel.proc, ∀ v < 512 ^ 3,
      has (pte y.kernel.mem r v) PTE_V = true → has (pte y.kernel.mem r v) PTE_U = true →
        UserOnly y (PTE2PA (pte y.kernel.mem r v)) := by
  have hfree : (@run smallImage (forkRun.take 3) bootSystem).map (fun y =>
      decide (fork_pages y.kernel 0 ≤ y.kernel.freelist.length)) = some true := by
    decide +kernel
  obtain ⟨y, hy⟩ := Option.isSome_iff_exists.mp forkRun_ends
  refine ⟨y, hy, @no_double_use smallImage _ _ _ bootSystem_booted ?_ hy⟩
  refine ⟨trivial, fun y₁ h₁ => ⟨trivial, fun y₂ h₂ => ⟨trivial, fun y₃ h₃ => ⟨.inl ?_, fun _ _ => trivial⟩⟩⟩⟩
  have hrun : @run smallImage (forkRun.take 3) bootSystem = some y₃ := by
    simp only [run, forkRun, List.take_succ_cons, List.take_zero, List.foldlM_cons, List.foldlM_nil]
    rw [h₁, Option.bind_eq_bind, Option.bind_some, h₂, Option.bind_some, h₃]
    rfl
  rw [hrun, Option.map_some] at hfree
  exact of_decide_eq_true (Option.some.inj hfree)

/-! ## A page read before an allocation -/

def readOnlyProgram : List Byte :=
  word_bytes ELF_MAGIC ++ List.replicate 24 0 ++ word_bytes ELFHDR_SIZE ++ List.replicate 16 0 ++
    word_bytes 1 ++ word_bytes (ELF_PROG_LOAD + 4 * 2 ^ 32) ++ List.replicate 32 0 ++
    word_bytes PGSIZE ++ List.replicate 8 0

def sevenPages : List Byte :=
  word_bytes ELF_MAGIC ++ List.replicate 24 0 ++ word_bytes ELFHDR_SIZE ++ List.replicate 16 0 ++ word_bytes 1 ++
    word_bytes (ELF_PROG_LOAD + 4 * 2 ^ 32) ++ List.replicate 32 0 ++ word_bytes (7 * PGSIZE) ++ List.replicate 8 0

def pressureRun : List Action :=
  [.userinit, .schedule 0 .RUNNING, .call 0 (.exec [] (some readOnlyProgram) []),
    .alloc, .alloc, .call 0 .fork]

def freewalk_scan (freewalk : Nat → K Unit) (pagetable : Nat) : Nat → K Unit
  | 0 => pure ()
  | n + 1 => fun s =>
    if s.mem (pagetable + 8 * (512 - (n + 1))) = 0 then freewalk_scan freewalk pagetable n s
    else (do
      let i := 512 - (n + 1)
      let pte ← load64 (pagetable + 8 * i)
      if has pte PTE_V ∧ pte &&& (PTE_R ||| PTE_W ||| PTE_X) = 0#64 then do
        freewalk (PTE2PA pte)
        store64 (pagetable + 8 * i) 0
        freewalk_scan freewalk pagetable n
      else if has pte PTE_V then panic "freewalk: leaf"
      else freewalk_scan freewalk pagetable n : K Unit) s

def freewalk_scanned : Nat → Nat → K Unit
  | 0, _ => panic "freewalk: stack overflow"
  | depth + 1, pagetable => do
    freewalk_scan (freewalk_scanned depth) pagetable 512
    kfree pagetable

omit [Image] in
theorem invalid_of_byte {m : Mem} {a : Nat} (h : m a = 0) : has (m.load64 a) PTE_V = false := by
  have hzero : m.load64 a &&& PTE_V = 0#64 := by
    apply BitVec.eq_of_getLsbD_eq
    intro i hi
    rw [BitVec.getLsbD_and, BitVec.getLsbD_zero]
    by_cases h0 : i = 0
    · have hbit := Mem.load64_bit m a 0 (by decide)
      rw [Nat.zero_div, Nat.add_zero, h] at hbit
      rw [h0, hbit]
      rfl
    · have hV : PTE_V.getLsbD i = false := by
        simp [PTE_V, BitVec.getLsbD_one, h0]
      rw [hV, Bool.and_false]
  simp [has, hzero]

omit [Image] in
theorem freewalk_loop_eq (f : Nat → K Unit) (pagetable n : Nat) :
    freewalk_loop f pagetable n = freewalk_scan f pagetable n := by
  induction n with
  | zero => rfl
  | succ n ih =>
    funext s
    rw [freewalk_loop, freewalk_scan, ih]
    beta_reduce
    split_ifs with h0
    · have hV := invalid_of_byte h0
      rw [load64, run_bind (run_gets _), if_neg (by rw [hV]; simp), if_neg (by rw [hV]; simp)]
    · rfl

theorem freewalk_eq (depth : Nat) : freewalk depth = freewalk_scanned depth := by
  induction depth with
  | zero => rfl
  | succ depth ih =>
    funext pagetable
    rw [freewalk, freewalk_scanned, freewalk_loop_eq, ih]

omit [Image] in
/-- The child maps one of its own tables as a user page. -/
theorem table_mapped_by_child : ∃ y, @run smallImage pressureRun bootSystem = some y ∧
    (y.kernel.proc 1).pagetable ∈ roots y.kernel.proc ∧
    has (pte y.kernel.mem (y.kernel.proc 1).pagetable 0) PTE_V = true ∧
    has (pte y.kernel.mem (y.kernel.proc 1).pagetable 0) PTE_U = true ∧
    ¬ UserOnly y (PTE2PA (pte y.kernel.mem (y.kernel.proc 1).pagetable 0)) := by
  have heval : (@run smallImage pressureRun bootSystem).map (fun y => decide
      ((y.kernel.proc 1).pagetable ≠ 0 ∧
        has (pte y.kernel.mem (y.kernel.proc 1).pagetable 0) PTE_V = true ∧
        has (pte y.kernel.mem (y.kernel.proc 1).pagetable 0) PTE_U = true ∧
        node y.kernel.mem (y.kernel.proc 1).pagetable (.low 0 0) =
          some (PTE2PA (pte y.kernel.mem (y.kernel.proc 1).pagetable 0)))) = some true := by
    simp only [run, pressureRun, List.foldlM_cons, List.foldlM_nil, step, perform, kexec, proc_freepagetable, uvmfree,
      freewalk_eq]
    decide +kernel
  obtain ⟨y, hy, hval⟩ := Option.map_eq_some_iff.mp heval
  obtain ⟨h0, hV, hU, hn⟩ := of_decide_eq_true hval
  have hroot : (y.kernel.proc 1).pagetable ∈ roots y.kernel.proc :=
    mem_addrs.mpr ⟨h0, 1, by decide, rfl⟩
  exact ⟨y, hy, hroot, hV, hU, fun h => h.2 (.inr ⟨_, hroot, _, hn⟩)⟩

end Xv6
