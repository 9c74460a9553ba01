import Xv6.Pressure
import Xv6.Kexec

/-!
# What a child may do with its memory

A child gets the rights of its parent on every page that `uvmcopy` copies. A page that it skips
has no leaf in the child, and `vmfault` gives the child a fresh page there.
-/

open Xv6.Lib Xv6.Lib.Radix

namespace Xv6

/-! ## Rights -/

inductive Access where
  | load
  | store
  | fetch
  deriving DecidableEq, Repr

def Access.flag : Access → Pte
  | .load => PTE_R
  | .store => PTE_W
  | .fetch => PTE_X

def allows (e : Pte) (a : Access) : Bool := has e PTE_V && has e PTE_U && has e a.flag

/-- A leaf `e` lets a process make the access: directly, or after `cowfault` has made a new leaf of it, or after
`vmfault` has, which wants the address to be below the size. -/
def Grants (e : Pte) (below : Prop) (a : Access) : Prop :=
  allows e a = true ∨ (has e PTE_V = true ∧ has e PTE_COW = true ∧ ∃ p, allows (cowPte e p) a = true) ∨
    has e PTE_V = false ∧ below ∧ ∃ p, allows (lazyPte p) a = true

def Can (s : Kernel) (i va : Nat) (a : Access) : Prop :=
  Grants (pte s.mem (s.proc i).pagetable (va / PGSIZE)) (va < (s.proc i).sz) a

theorem Access.flag_small (a : Access) : Small a.flag := by
  cases a <;> decide

theorem allows_lazyPte (p : Nat) (a : Access) : allows (lazyPte p) a = decide (a ≠ .fetch) := by
  have hV : has (lazyPte p) PTE_V = true := by
    rw [has_or, Bool.or_eq_true]
    exact .inr (by decide)
  have hU : has (lazyPte p) PTE_U = true := by
    rw [has_mapped small_U (by decide)]
    decide
  rw [allows, hV, hU, has_mapped a.flag_small (by cases a <;> decide)]
  cases a <;> decide

theorem allows_cowPte {e : Pte} (p : Nat) (a : Access) :
    allows (cowPte e p) a = (has e PTE_V && has e PTE_U && (has e a.flag || decide (a = .store))) := by
  rw [allows, has_cowPte small_V (by decide) (by decide), has_cowPte small_U (by decide) (by decide)]
  cases a with
  | store =>
    have hW : has (cowPte e p) PTE_W = true := by
      rw [has_or, Bool.or_eq_true]
      exact .inr (by decide)
    simp [Access.flag, hW]
  | load => simp [Access.flag, has_cowPte small_R (show PTE_R &&& PTE_COW = 0#64 by decide) (by decide)]
  | fetch => simp [Access.flag, has_cowPte small_X (show PTE_X &&& PTE_COW = 0#64 by decide) (by decide)]

theorem allows_iff {e : Pte} {a : Access} :
    allows e a = true ↔ has e PTE_V = true ∧ has e PTE_U = true ∧ has e a.flag = true := by
  rw [allows, Bool.and_eq_true, Bool.and_eq_true, and_assoc]

theorem grants_valid {e : Pte} {below : Prop} {a : Access} (hV : has e PTE_V = true) :
    Grants e below a ↔ has e PTE_U = true ∧ (has e a.flag = true ∨ a = .store ∧ has e PTE_COW = true) := by
  constructor
  · rintro (hdirect | ⟨-, hC, p, hp⟩ | ⟨hV', -⟩)
    · obtain ⟨-, hU, hf⟩ := allows_iff.mp hdirect
      exact ⟨hU, .inl hf⟩
    · rw [allows_cowPte, Bool.and_eq_true, Bool.and_eq_true, Bool.or_eq_true, decide_eq_true_eq] at hp
      exact ⟨hp.1.2, hp.2.imp_right fun ha => ⟨ha, hC⟩⟩
    · rw [hV] at hV'
      cases hV'
  · rintro ⟨hU, hf | ⟨rfl, hC⟩⟩
    · exact .inl (allows_iff.mpr ⟨hV, hU, hf⟩)
    · refine .inr (.inl ⟨hV, hC, 0, ?_⟩)
      rw [allows_cowPte, hV, hU]
      simp

theorem grants_invalid {e : Pte} {below : Prop} {a : Access} (hV : has e PTE_V = false) :
    Grants e below a ↔ below ∧ a ≠ .fetch := by
  constructor
  · rintro (hdirect | ⟨hV', -⟩ | ⟨-, hlt, p, hp⟩)
    · rw [(allows_iff.mp hdirect).1] at hV
      cases hV
    · rw [hV] at hV'
      cases hV'
    · rw [allows_lazyPte, decide_eq_true_eq] at hp
      exact ⟨hlt, hp⟩
  · rintro ⟨hlt, ha⟩
    refine .inr (.inr ⟨hV, hlt, 0, ?_⟩)
    rw [allows_lazyPte, decide_eq_true_eq]
    exact ha

variable [Image] {n₀ : Nat} {L : Prop} {s s' t : Kernel} {T H C : Finset Nat} {i j va v pa : Nat} {a : Access}

/-! ## Fork -/

omit [Image] in
theorem Inherits.grants {e c : Pte} {below below' : Prop} (h : Inherits e c) (hc : Grants c below a) :
    Grants e below' a := by
  rw [grants_valid h.valid] at hc
  rw [grants_valid h.parent_valid]
  obtain ⟨hU, hf⟩ := hc
  rw [h.same _ (.inl rfl)] at hU
  refine ⟨hU, ?_⟩
  cases a with
  | load => exact hf.imp (fun hR => (h.same PTE_R (.inr (.inl rfl))).symm.trans hR) fun hbad => by cases hbad.1
  | fetch => exact hf.imp (fun hX => (h.same PTE_X (.inr (.inr rfl))).symm.trans hX) fun hbad => by cases hbad.1
  | store =>
    rcases hf with hW | ⟨-, hC⟩
    · exact absurd (h.readonly.symm.trans hW) (by decide)
    · rw [h.cow, Bool.or_eq_true] at hC
      exact hC.symm.imp_right fun hC => ⟨rfl, hC⟩

/-- The child `j` can do below the size of its parent `i` what the parent could do. -/
def Protects (s s' : Kernel) (i j : Nat) : Prop := ∀ va < (s.proc i).sz, ∀ a, Can s' j va a → Can s i va a

def Open (e : Pte) : Prop :=
  has e PTE_U = true ∧ has e PTE_R = true ∧ (has e PTE_W = true ∨ has e PTE_COW = true)

omit [Image] in
theorem lt_npages {sz : Nat} : v < npages sz ↔ v * PGSIZE < sz := by
  simp only [npages, PGSIZE]
  omega

omit [Image] in
theorem protects_iff (hsize : (s'.proc j).sz = (s.proc i).sz) (hleaf : ∀ v < npages (s.proc i).sz,
      has (pte s'.mem (s'.proc j).pagetable v) PTE_V = true →
        Inherits (pte s.mem (s.proc i).pagetable v) (pte s'.mem (s'.proc j).pagetable v)) :
    Protects s s' i j ↔ ∀ v < npages (s.proc i).sz, has (pte s.mem (s.proc i).pagetable v) PTE_V = true →
      has (pte s'.mem (s'.proc j).pagetable v) PTE_V = true ∨ Open (pte s.mem (s.proc i).pagetable v) := by
  constructor
  · intro h v hv hV
    by_contra! hno
    obtain ⟨hno, hopen⟩ := hno
    have hva : v * PGSIZE < (s.proc i).sz := lt_npages.mp hv
    have hdiv : v * PGSIZE / PGSIZE = v := Nat.mul_div_cancel _ (by decide)
    have hcan : ∀ a, a ≠ .fetch → Can s i (v * PGSIZE) a := by
      refine fun a ha => h _ hva a ?_
      rw [Can, hdiv, grants_invalid (eq_false_of_ne_true hno), hsize]
      exact ⟨hva, ha⟩
    have hload := hcan .load (by decide)
    have hstore := hcan .store (by decide)
    rw [Can, hdiv, grants_valid hV] at hload hstore
    refine hopen ⟨hload.1, ?_, ?_⟩
    · exact hload.2.resolve_right fun h => by cases h.1
    · exact hstore.2.imp_right And.right
  · intro h va hva a hcan
    have hv : va / PGSIZE < npages (s.proc i).sz := by
      rw [lt_npages]
      exact (Nat.div_mul_le_self _ _).trans_lt hva
    cases hc : has (pte s'.mem (s'.proc j).pagetable (va / PGSIZE)) PTE_V with
    | true => exact (hleaf _ hv hc).grants hcan
    | false =>
      rw [Can, grants_invalid hc] at hcan
      cases hV : has (pte s.mem (s.proc i).pagetable (va / PGSIZE)) PTE_V with
      | false => exact (grants_invalid hV).mpr ⟨hva, hcan.2⟩
      | true =>
        rcases h _ hv hV with hbad | ⟨hU, hR, hW⟩
        · rw [hc] at hbad
          cases hbad
        · rw [Can, grants_valid hV]
          refine ⟨hU, ?_⟩
          cases a with
          | load => exact .inl hR
          | store => exact hW.imp_right fun hC => ⟨rfl, hC⟩
          | fetch => exact absurd rfl hcan.2

/-- A fork keeps the protection of the parent's memory exactly if every page that the child has no leaf for is open in the
parent: with enough free pages, or if nothing is swapped out meanwhile, if no page of the parent is mapped without
`PTE_U`. -/
theorem fork_protects_iff {pid : Int} (h : Good 0 False s C) (hi : i < NPROC) (hu : (s.proc i).state ≠ .UNUSED)
    (hrun : kfork i s = .ok (pid, s')) (hpid : pid ≠ -1) :
    ∃ j < NPROC, (s.proc j).state = .UNUSED ∧ (s'.proc j).state ≠ .UNUSED ∧ (s'.proc j).parent = some i ∧
      (Protects s s' i j ↔ ∀ v < npages (s.proc i).sz, has (pte s.mem (s.proc i).pagetable v) PTE_V = true →
        has (pte s'.mem (s'.proc j).pagetable v) PTE_V = true ∨ Open (pte s.mem (s.proc i).pagetable v)) ∧
      (fork_pages s i ≤ s.freelist.length ∨ s'.stats.swap_outs = s.stats.swap_outs →
        (Protects s s' i j ↔ ∀ v < npages (s.proc i).sz, has (pte s.mem (s.proc i).pagetable v) PTE_V = true →
          has (pte s.mem (s.proc i).pagetable v) PTE_U = true)) := by
  obtain ⟨hbad, -⟩ | ⟨-, j, hfork, hoff⟩ :=
    ((kfork_ends (Z := False) h False.elim (.inl (Nat.zero_le _)) hi hu).of_ok hrun).ends
  · exact absurd hbad hpid
  have hle := npages_le (h.sized i hi)
  have hiff := protects_iff hfork.size fun v hv hV =>
    (hoff.leaves v (hv.trans_le hle) (by simp [present, hV])).2
  refine ⟨j, hoff.lt, hoff.unused, hoff.used, hfork.parent, hiff, fun hfree => ?_⟩
  have hsw : s'.stats.swap_outs = s.stats.swap_outs := hfree.elim (h.kfork_swaps hu hrun) id
  rw [hiff]
  refine forall₂_congr fun v hv => ⟨fun hall hV => ?_, fun hall hV => .inl (hoff.copied hsw v hv hV (hall hV))⟩
  rcases hall hV with hc | hopen
  · obtain ⟨-, hinh⟩ := hoff.leaves v (hv.trans_le hle) (by simp [present, hc])
    rw [← hinh.same _ (.inl rfl), hinh.user]
  · exact hopen.1

def guardRun : List Action :=
  [.userinit, .schedule 0 .RUNNING, .call 0 (.exec [] (some readOnlyProgram) [])]

omit [Image] in
theorem guardRun_fork : ∃ (y : System) (pid : Int) (s' w : Kernel) (pa : Nat),
    @run smallImage guardRun bootSystem = some y ∧ @kfork smallImage 0 y.kernel = .ok (pid, s') ∧ pid ≠ -1 ∧
    (y.kernel.proc 0).state = .RUNNING ∧ (y.kernel.proc 1).state = .UNUSED ∧ (s'.proc 1).parent = some 0 ∧
    PGSIZE < (y.kernel.proc 0).sz ∧ (s'.proc 1).sz = (y.kernel.proc 0).sz ∧
    has (pte y.kernel.mem (y.kernel.proc 0).pagetable 1) PTE_V = true ∧
    has (pte y.kernel.mem (y.kernel.proc 0).pagetable 1) PTE_U = false ∧
    has (pte s'.mem (s'.proc 1).pagetable 1) PTE_V = false ∧
    @vmfault smallImage 1 (s'.proc 1).pagetable PGSIZE s' = .ok (pa, w) ∧ pa ≠ 0 ∧
    allows (pte w.mem (s'.proc 1).pagetable 1) .store = true := by
  have heval : ((@run smallImage guardRun bootSystem).bind fun y =>
      (@kfork smallImage 0 y.kernel).toOption.bind fun x =>
      (@vmfault smallImage 1 (x.2.proc 1).pagetable PGSIZE x.2).toOption.map fun x' => decide
        (x.1 ≠ -1 ∧ (y.kernel.proc 0).state = .RUNNING ∧ (y.kernel.proc 1).state = .UNUSED ∧
          (x.2.proc 1).parent = some 0 ∧ PGSIZE < (y.kernel.proc 0).sz ∧ (x.2.proc 1).sz = (y.kernel.proc 0).sz ∧
          has (pte y.kernel.mem (y.kernel.proc 0).pagetable 1) PTE_V = true ∧
          has (pte y.kernel.mem (y.kernel.proc 0).pagetable 1) PTE_U = false ∧
          has (pte x.2.mem (x.2.proc 1).pagetable 1) PTE_V = false ∧ x'.1 ≠ 0 ∧
          allows (pte x'.2.mem (x.2.proc 1).pagetable 1) .store = true)) = some true := by
    simp only [run, guardRun, List.foldlM_cons, List.foldlM_nil, step, perform, kexec, proc_freepagetable, uvmfree,
      freewalk_eq]
    decide +kernel
  obtain ⟨y, hy, heval⟩ := Option.bind_eq_some_iff.mp heval
  obtain ⟨⟨pid, s'⟩, hs', heval⟩ := Option.bind_eq_some_iff.mp heval
  obtain ⟨⟨pa, w⟩, hw, hval⟩ := Option.map_eq_some_iff.mp heval
  rw [toOption_eq_some] at hs' hw
  obtain ⟨hpid, hst, hun, hpar, hlt, hsz, hV, hU, hV', hpa, hstore⟩ := of_decide_eq_true hval
  exact ⟨y, pid, s', w, pa, hy, hs', hpid, hst, hun, hpar, hlt, hsz, hV, hU, hV', hw, hpa, hstore⟩

omit [Image] in
theorem fork_protects_iff_guard : ∃ y pid s', @run smallImage guardRun bootSystem = some y ∧
    @kfork smallImage 0 y.kernel = .ok (pid, s') ∧ ∃ j < NPROC, (y.kernel.proc j).state = .UNUSED ∧
      (Protects y.kernel s' 0 j ↔ ∀ v < npages (y.kernel.proc 0).sz,
        has (pte y.kernel.mem (y.kernel.proc 0).pagetable v) PTE_V = true →
        has (pte s'.mem (s'.proc j).pagetable v) PTE_V = true ∨ Open (pte y.kernel.mem (y.kernel.proc 0).pagetable v)) := by
  obtain ⟨y, pid, s', w, pa, hy, hs', hpid, hst, -⟩ := guardRun_fork
  let : Image := smallImage
  have hg := bootSystem_booted.run_good hy
  obtain ⟨j, hj, hun, -, -, hiff, -⟩ := fork_protects_iff hg (by decide) (by rw [hst]; decide) hs' hpid
  exact ⟨y, pid, s', hy, hs', j, hj, hun, hiff⟩

omit [Image] in
theorem guard_open_in_child : ∃ (y : System) (pid : Int) (s' w : Kernel) (pa : Nat),
    @run smallImage guardRun bootSystem = some y ∧ @kfork smallImage 0 y.kernel = .ok (pid, s') ∧ pid ≠ -1 ∧
    (y.kernel.proc 1).state = .UNUSED ∧ (s'.proc 1).parent = some 0 ∧
    has (pte y.kernel.mem (y.kernel.proc 0).pagetable 1) PTE_V = true ∧
    has (pte y.kernel.mem (y.kernel.proc 0).pagetable 1) PTE_U = false ∧
    @vmfault smallImage 1 (s'.proc 1).pagetable PGSIZE s' = .ok (pa, w) ∧ pa ≠ 0 ∧
    allows (pte w.mem (s'.proc 1).pagetable 1) .store = true ∧ ¬ Protects y.kernel s' 0 1 := by
  obtain ⟨y, pid, s', w, pa, hy, hs', hpid, -, hun, hpar, hlt, hsz, hV, hU, hV', hw, hpa, hstore⟩ := guardRun_fork
  refine ⟨y, pid, s', w, pa, hy, hs', hpid, hun, hpar, hV, hU, hw, hpa, hstore, fun hprot => ?_⟩
  have hcan : Can y.kernel 0 PGSIZE .store := by
    refine hprot PGSIZE hlt .store ((grants_invalid hV').mpr ⟨?_, by decide⟩)
    rw [hsz]
    exact hlt
  have hbad := ((grants_valid hV).mp hcan).1
  rw [hU] at hbad
  cases hbad

end Xv6
