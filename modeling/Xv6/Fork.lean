import Xv6.Contents
import Xv6.Locks

/-!
# What fork copies

The contents of an address space are in memory, on disk, or nowhere for pages that were never
touched. `uvmcopy` only looks at the pages in memory.
-/

open Xv6.Lib Op Radix

namespace Xv6

variable [Image] {n₀ : Nat} {L : Prop} {s s' : Kernel} {T H C : Finset Nat} {r v va P i j : Nat}

/-! ## Fork without a swap-out -/

def NoTableLeaf (s : Kernel) (T : Finset Nat) : Prop :=
  ∀ r ∈ T, ∀ v < UPAGES, ∀ P, points (pte s.mem r v) = some P → ∀ r' ∈ T, ∀ n, node s.mem r' n ≠ some P

theorem Inv.rebase (h : Inv n₀ L s T H) (hno : NoTableLeaf s T) (m : Nat) : Inv m L s T H := by
  refine ⟨⟨h.books.mem, ?_, h.books.exact, h.books.free_ok, h.books.nodup, h.books.full⟩, h.flags, h.plain⟩
  intro x y P hx hy
  refine (h.books.apart x y P hx hy).imp_right fun hc => ?_
  cases x with
  | leaf r v =>
    cases y with
    | leaf r' v' => exact hc
    | table r' n =>
      obtain ⟨⟨hr, hv⟩, hp⟩ := of_goal_leaf hx
      exact absurd (of_goal_table hy).2 (hno r hr v hv P hp r' (of_goal_table hy).1 n)
    | held p => exact hc
  | table r' n =>
    cases y with
    | leaf r v =>
      obtain ⟨⟨hr, hv⟩, hp⟩ := of_goal_leaf hy
      exact absurd (of_goal_table hx).2 (hno r hr v hv P hp r' (of_goal_table hx).1 n)
    | table _ _ => exact hc
    | held p => exact hc
  | held p => exact absurd hc not_compat_held

theorem Inv.noTableLeaf (h : Inv n₀ L s T H) (h0 : s.stats.swap_outs ≤ n₀) : NoTableLeaf s T := by
  intro r hr v hv P hp r' hr' n hn
  rcases h.books.apart (.leaf r v) (.table r' n) P (by rw [goal_leaf hr hv, hp])
    (by rw [goal_table hr', hn]) with he | hc
  · cases he
  · have := hc.2
    omega

theorem Evicted.noTableLeaf (h : Evicted T s s' r v) (hr : r ∈ T) (hno : NoTableLeaf s T) :
    NoTableLeaf s' T := by
  obtain ⟨k, hset, -⟩ := h.set
  intro r₁ hr₁ v₁ hv₁ P hp r₂ hr₂ n
  rw [hset.tables r₂ hr₂]
  by_cases hrv : r₁ = r ∧ v₁ = v
  · rw [hrv.1, hrv.2, hset.self hr (h.user.trans UPAGES_lt), points_swapblock] at hp
    cases hp
  · rw [hset.other hr₁ (hv₁.trans UPAGES_lt) hrv] at hp
    exact hno r₁ hr₁ v₁ hv₁ P hp r₂ hr₂ n

theorem swapout_noTableLeaf {y y' : System} (h : Good n₀ L y.kernel y.client)
    (h0 : y.kernel.stats.swap_outs = n₀) (hstep : step y (.call i (.swapout va)) = some y') :
    NoTableLeaf y'.kernel (roots y'.kernel.proc) := by
  have hno := h.inv.noTableLeaf h0.le
  simp only [step] at hstep
  split_ifs at hstep with hg
  obtain ⟨_, hcall, -⟩ := lift_some hstep
  simp only [perform, bind_ok, getProc, gets_ok] at hcall
  obtain ⟨_, s, ⟨rfl, rfl⟩, _, _, hout, hend⟩ := hcall
  rw [(pure_ok.mp hend).2]
  have hr := h.root_mem hg.1 (by rw [hg.2]; simp)
  rcases swapout_spec h.inv hr hout with ⟨-, he⟩ | ⟨-, hev, -⟩
  · rw [he]
    exact hno
  · rw [hev.proc]
    exact hev.noTableLeaf hr hno

theorem Good.rebase (h : Good n₀ L s C) (hno : NoTableLeaf s (roots s.proc)) (m : Nat) :
    Good m L s C :=
  ⟨⟨h.inv.rebase hno m, h.ownRoot, h.ownFrame, h.apart⟩, h.slots⟩

/-- The child `j` has what the parent `i` had at each address of its size, and the parent still
has it. -/
def Faithful (s s' : Kernel) (i j : Nat) : Prop :=
  ∀ va < (s.proc i).sz, ∀ b, logical s i va = some b → logical s' j va = some b ∧ logical s' i va = some b

def ZerosSaved (s : Kernel) (i : Nat) : Prop :=
  ∀ va < (s.proc i).sz,
    has (pte s.mem (s.proc i).pagetable (va / PGSIZE)) PTE_SWAPPED = true →
      saved_byte s (pte s.mem (s.proc i).pagetable (va / PGSIZE)) (va % PGSIZE) = 0

section twin

variable {old new n off : Nat} {b : Byte}

section
omit [Image]

theorem Twin.child_zero (h : Twin old new n s s') (hv : v < UPAGES)
    (hV : has (pte s.mem old v) PTE_V = false) : leaf_byte s' (pte s'.mem new v) off = some 0 := by
  refine leaf_byte_absent (h.absent v hv ?_)
  rintro ⟨-, hV', -⟩
  rw [hV] at hV'
  cases hV'

theorem Twin.parent_same (h : Twin old new n s s') (hv : v < UPAGES)
    (hV : has (pte s.mem old v) PTE_V = false) : pte s'.mem old v = pte s.mem old v := by
  refine (h.parent v (hv.trans UPAGES_lt)).resolve_right ?_
  rintro ⟨hV', -⟩
  rw [hV] at hV'
  cases hV'

theorem Twin.parent_user (h : Twin old new n s s') (hv : v < UPAGES) {f : Pte}
    (hW : f &&& PTE_W = 0#64) (hC : PTE_COW &&& f = 0#64) :
    points (pte s'.mem old v) = points (pte s.mem old v) ∧
      has (pte s'.mem old v) f = has (pte s.mem old v) f := by
  rcases h.parent v (hv.trans UPAGES_lt) with he | ⟨-, -, he⟩
  · rw [he]
    exact ⟨rfl, rfl⟩
  · rw [he, points_marked, has_marked hW hC]
    exact ⟨rfl, rfl⟩

theorem Twin.resident (h : Twin old new n s s') (hn : v < n) (hv : v < UPAGES)
    (hV : has (pte s.mem old v) PTE_V = true) (hU : has (pte s.mem old v) PTE_U = true)
    (hoff : off < PGSIZE) :
    leaf_byte s' (pte s'.mem new v) off = leaf_byte s (pte s.mem old v) off ∧
      leaf_byte s' (pte s'.mem old v) off = leaf_byte s (pte s.mem old v) off := by
  have hP := points_some hV
  obtain ⟨hcp, hcU⟩ := h.child v hn hV hU
  obtain ⟨hpp, hpU⟩ := h.parent_user hv (f := PTE_U) (by decide) (by decide)
  rw [hP] at hcp hpp
  rw [hU] at hpU
  rw [leaf_byte_user hV hU, leaf_byte_user (valid_of_points hcp).1 hcU,
    leaf_byte_user (valid_of_points hpp).1 hpU, (valid_of_points hcp).2, (valid_of_points hpp).2,
    h.bytes v hv _ hP off hoff]
  exact ⟨rfl, rfl⟩

end

end twin

omit [Image] in
theorem Forked.child_unique {k : Nat} (h : Forked n₀ i j s s') (hk : (s.proc k).state = .UNUSED)
    (hk' : (s'.proc k).state ≠ .UNUSED) : k = j := by
  by_contra hne
  rw [h.others k hne] at hk'
  exact hk' hk

/-- A fork with enough free pages, or one that swaps nothing out, makes a faithful copy if and only if the parent has
saved nothing but zeros. -/
theorem fork_faithful_iff {pid : Int} (h : Good n₀ L s C) (hno : NoTableLeaf s (roots s.proc))
    (hi : i < NPROC) (hu : (s.proc i).state ≠ .UNUSED) (hrun : kfork i s = .ok (pid, s'))
    (hpid : pid ≠ -1) (hfree : fork_pages s i ≤ s.freelist.length ∨ s'.stats.swap_outs = s.stats.swap_outs) :
    (∃ j < NPROC, (s.proc j).state = .UNUSED ∧ (s'.proc j).state ≠ .UNUSED ∧ Faithful s s' i j) ↔
      ZerosSaved s i := by
  have hswap : s'.stats.swap_outs = s.stats.swap_outs := hfree.elim (h.kfork_swaps hu hrun) id
  have hfork := (kfork_ends (Z := False) (h.rebase hno _) False.elim (.inl (Nat.le_refl _)) hi hu).of_ok hrun
  obtain ⟨-, j, hf, -⟩ := hfork.ends.resolve_left fun hbad => hpid hbad.1
  have ht := hf.twin rfl hswap
  have hpi := hfork.alive i hu
  have hused := (h.slots i hi).used hu
  obtain ⟨hd, hb, ha⟩ := (Later.forks.kfork i s pid s' hrun).blocks hswap
  have hpage : ∀ va < (s.proc i).sz, va / PGSIZE < npages (s.proc i).sz ∧ va / PGSIZE < UPAGES := by
    intro va hva
    have hle := npages_le hused.size
    have : va / PGSIZE < npages (s.proc i).sz := by
      simp only [npages, PGSIZE]
      omega
    exact ⟨this, by omega⟩
  constructor
  · rintro ⟨k, -, hk, hk', hfaith⟩ va hva hS
    obtain rfl := hf.child_unique hk hk'
    obtain ⟨-, hv⟩ := hpage va hva
    have hV : has (pte s.mem (s.proc i).pagetable (va / PGSIZE)) PTE_V = false := by
      by_contra hV
      have := h.inv.not_swapped (h.root_mem hi hu) hv (by simpa using hV)
      rw [hS] at this
      cases this
    have := (hfaith va hva _ (leaf_byte_swapped hV hS)).1
    rw [logical, ht.child_zero hv hV, Option.some.injEq] at this
    exact this.symm
  · intro hz
    refine ⟨j, hf.lt, hf.unused, by rw [hf.state]; simp, fun va hva b hlog => ?_⟩
    obtain ⟨hn, hv⟩ := hpage va hva
    have hoff : va % PGSIZE < PGSIZE := Nat.mod_lt _ (by decide)
    rw [logical] at hlog
    rw [logical, logical, hpi]
    cases hV : has (pte s.mem (s.proc i).pagetable (va / PGSIZE)) PTE_V with
    | true =>
      obtain ⟨hc, hp⟩ := ht.resident hn hv hV (user_of_leaf_byte hV hlog) hoff
      rw [hc, hp]
      exact ⟨hlog, hlog⟩
    | false =>
      rw [ht.child_zero hv hV, ht.parent_same hv hV]
      cases hS : has (pte s.mem (s.proc i).pagetable (va / PGSIZE)) PTE_SWAPPED with
      | true =>
        rw [leaf_byte_swapped hV hS, hz va hva hS] at hlog
        rw [leaf_byte_swapped hV hS, saved_byte_congr hd hb ha, hz va hva hS]
        exact ⟨hlog, hlog⟩
      | false =>
        have habs := present_false.mpr ⟨hV, hS⟩
        rw [leaf_byte_absent habs] at hlog ⊢
        exact ⟨hlog, hlog⟩

/-! ## A page on disk -/

def storeRun : List Action :=
  [.userinit, .schedule 0 .RUNNING, .call 0 (.sbrk PGSIZE SBRK_EAGER), .call 0 (.store 8 7)]

omit [Image] in
theorem fork_swapped : ∃ y y' pid s', @run smallImage storeRun bootSystem = some y ∧
    @step smallImage y (.call 0 (.swapout 0)) = some y' ∧
    @run smallImage (storeRun ++ [.call 0 (.swapout 0)]) bootSystem = some y' ∧
    @kfork smallImage 0 y'.kernel = .ok (pid, s') ∧ y.kernel.stats.swap_outs = 0 ∧ pid ≠ -1 ∧
    fork_pages y'.kernel 0 ≤ y'.kernel.freelist.length ∧ (y'.kernel.proc 0).state = .RUNNING ∧
    (y'.kernel.proc 0).sz = PGSIZE ∧ (y'.kernel.proc 1).state = .UNUSED ∧
    (s'.proc 1).parent = some 0 ∧ logical y'.kernel 0 8 = some 7 ∧ logical s' 1 8 = some 0 := by
  have heval : ((@run smallImage storeRun bootSystem).bind fun y =>
      (@step smallImage y (.call 0 (.swapout 0))).bind fun y' =>
      (@kfork smallImage 0 y'.kernel).toOption.map fun x => decide
        (y.kernel.stats.swap_outs = 0 ∧ x.1 ≠ -1 ∧
        fork_pages y'.kernel 0 ≤ y'.kernel.freelist.length ∧ (y'.kernel.proc 0).state = .RUNNING ∧
        (y'.kernel.proc 0).sz = PGSIZE ∧ (y'.kernel.proc 1).state = .UNUSED ∧
        (x.2.proc 1).parent = some 0 ∧ logical y'.kernel 0 8 = some 7 ∧
        logical x.2 1 8 = some 0)) = some true := by decide +kernel
  obtain ⟨y, hy, heval⟩ := Option.bind_eq_some_iff.mp heval
  obtain ⟨y', hy', heval⟩ := Option.bind_eq_some_iff.mp heval
  obtain ⟨⟨pid, s'⟩, hs', hval⟩ := Option.map_eq_some_iff.mp heval
  have hall : @run smallImage (storeRun ++ [.call 0 (.swapout 0)]) bootSystem = some y' := by
    simp only [run, List.foldlM_append, List.foldlM_cons, List.foldlM_nil] at hy ⊢
    simp [hy, hy']
  exact ⟨y, y', pid, s', hy, hy', hall, toOption_eq_some.mp hs', of_decide_eq_true hval⟩

omit [Image] in
theorem fork_faithful_swapped : ∃ y pid s',
    @run smallImage (storeRun ++ [.call 0 (.swapout 0)]) bootSystem = some y ∧
    @kfork smallImage 0 y.kernel = .ok (pid, s') ∧
    ((∃ j < NPROC, (y.kernel.proc j).state = .UNUSED ∧ (s'.proc j).state ≠ .UNUSED ∧
      Faithful y.kernel s' 0 j) ↔ ZerosSaved y.kernel 0) := by
  obtain ⟨y, y', pid, s', hy, hy', hall, hs', h0, hpid, hfree, hst, -⟩ := fork_swapped
  have hg := @Booted.run_good smallImage _ _ _ bootSystem_booted hy
  have hg' := @Booted.run_good smallImage _ _ _ bootSystem_booted hall
  have hu : (y'.kernel.proc 0).state ≠ .UNUSED := by simp [hst]
  exact ⟨y', pid, s', hall, hs', @fork_faithful_iff smallImage _ _ _ _ _ _ _ hg'
    (@swapout_noTableLeaf smallImage _ _ _ _ _ _ hg h0 hy') (by decide) hu hs' hpid (.inl hfree)⟩

omit [Image] in
theorem fork_loses_swapped : ∃ y pid s',
    @run smallImage (storeRun ++ [.call 0 (.swapout 0)]) bootSystem = some y ∧
    @kfork smallImage 0 y.kernel = .ok (pid, s') ∧ pid ≠ -1 ∧ (y.kernel.proc 1).state = .UNUSED ∧
    (s'.proc 1).parent = some 0 ∧ ¬ Faithful y.kernel s' 0 1 := by
  obtain ⟨y, y', pid, s', hy, hy', hall, hs', -, hpid, -, -, hsz, hun, hpar, h7, hzero⟩ := fork_swapped
  refine ⟨y', pid, s', hall, hs', hpid, hun, hpar, fun hf => ?_⟩
  have := (hf 8 (by rw [hsz]; decide) 7 h7).1
  rw [hzero] at this
  cases this

end Xv6
