import Xv6.Runs
import Xv6.Boot

/-!
# Pages in every reachable state

Reference counts are exact, pages with two references are read-only, and a page is lost exactly by
the copy of a copy-on-write page that nobody shares any more.
-/

open Xv6.Lib Xv6.Lib.Radix

namespace Xv6

/-! ## A small machine -/

theorem kernbase_le_small : KERNBASE ≤ PHYSTOP - 16 * PGSIZE := by decide

theorem small_le_phystop : PHYSTOP - 16 * PGSIZE ≤ PHYSTOP := by decide

theorem small_trampoline_aligned : 0x80007000 % PGSIZE = 0 := by decide

theorem small_trampoline_lt : 0x80007000 < PHYSTOP := by decide

abbrev smallImage : Image where
  kend := PHYSTOP - 16 * PGSIZE
  trampoline := 0x80007000
  kernbase_le_kend := kernbase_le_small
  kend_le_phystop := small_le_phystop
  trampoline_aligned := small_trampoline_aligned
  trampoline_lt := small_trampoline_lt

def bootSystem : System where
  kernel := { zeroKernel with
    freelist := (List.range 16).map fun k => PHYSTOP - 16 * PGSIZE + k * PGSIZE
    swap := { nfree := SWAP_MAX_BLOCKS }
    bufdata := fun n => 1112 * n }
  client := ∅

theorem bootSystem_booted : @Booted smallImage bootSystem := by
  refine @Booted.mk smallImage _ (by decide) ?_ (fun _ _ => rfl) (fun _ _ => ⟨rfl, rfl, rfl, rfl⟩) rfl
  have hend : @kend smallImage = 0x87ff0000 := rfl
  intro P
  simp only [bootSystem, List.mem_map, List.mem_range]
  constructor
  · rintro ⟨k, hk, rfl⟩
    refine @Page.mk smallImage _ ?_ ?_ ?_
    all_goals
      simp only [hend, PHYSTOP, KERNBASE, PGSIZE]
      omega
  · rintro ⟨ha, hge, hlt⟩
    rw [hend] at hge
    simp only [PHYSTOP, KERNBASE, PGSIZE] at *
    exact ⟨(P - 0x87ff0000) / 4096, by omega, by omega⟩

def forkRun : List Action :=
  [.userinit, .schedule 0 .RUNNING, .call 0 (.sbrk PGSIZE SBRK_EAGER), .call 0 .fork]

theorem forkRun_ends : (@run smallImage forkRun bootSystem).isSome = true := by decide +kernel

variable [Image] {n₀ : Nat} {L : Prop} {s s' t : Kernel} {T H C : Finset Nat} {r v va p P i : Nat} {e : Pte}

/-! ## Counts -/

def leaves (s : Kernel) (P : Nat) : Finset (Nat × Nat) :=
  (roots s.proc ×ˢ Finset.range UPAGES).filter fun x => points (pte s.mem x.1 x.2) = some P

omit [Image] in
theorem mem_leaves {x : Nat × Nat} : x ∈ leaves s P ↔
    (x.1 ∈ roots s.proc ∧ x.2 < UPAGES) ∧ points (pte s.mem x.1 x.2) = some P := by
  simp [leaves]

omit [Image] in
theorem leaves_eq (s : Kernel) (P : Nat) : leaves s P =
    (roots s.proc ×ˢ Finset.range UPAGES).filter fun x => points (pte s.mem x.1 x.2) = some P := rfl

-- Never to be computed.
attribute [irreducible] leaves

/-- The kernel has the page for itself: a trapframe, a page of another part of the kernel, or a
table of a page-table tree. -/
def KernelPage (y : System) (P : Nat) : Prop :=
  P ∈ held y.kernel.proc y.client ∨ ∃ r ∈ roots y.kernel.proc, ∃ n, node y.kernel.mem r n = some P

instance (y : System) (P : Nat) : Decidable (KernelPage y P) := inferInstanceAs (Decidable (_ ∨ _))

def Ref.isLeaf : Ref → Bool
  | .leaf _ _ => true
  | _ => false

omit [Image] in
theorem not_compat_of_not_leaf {x y : Ref} (hx : x.isLeaf = false) (hy : y.isLeaf = false) :
    ¬ Compat n₀ s x y := by
  cases x <;> cases y <;> simp_all [Ref.isLeaf, Compat]

theorem Inv.card_leaves (h : Inv n₀ L s T H) (P : Nat) :
    ((Ref.all.filter fun x => goal s.mem T H x = some P).filter fun x => x.isLeaf).card =
      ((T ×ˢ Finset.range UPAGES).filter fun x => points (pte s.mem x.1 x.2) = some P).card := by
  rw [← Finset.card_image_of_injective
    ((T ×ˢ Finset.range UPAGES).filter fun x => points (pte s.mem x.1 x.2) = some P)
    (f := fun x => Ref.leaf x.1 x.2) (by
      rintro ⟨a, b⟩ ⟨c, d⟩ he
      cases he
      rfl)]
  congr 1
  ext x
  simp only [Finset.mem_filter, Finset.mem_image, Finset.mem_product, Finset.mem_range, Prod.exists]
  constructor
  · rintro ⟨⟨-, hx⟩, hl⟩
    cases x with
    | leaf r v =>
      obtain ⟨⟨hr, hv⟩, hp⟩ := of_goal_leaf hx
      exact ⟨r, v, ⟨⟨hr, hv⟩, hp⟩, rfl⟩
    | table _ _ => cases hl
    | held _ => cases hl
  · rintro ⟨r, v, ⟨⟨hr, hv⟩, hp⟩, rfl⟩
    have hg : goal s.mem T H (.leaf r v) = some P := by rw [goal_leaf hr hv, hp]
    exact ⟨⟨(h.books.mem _ _ hg).1, hg⟩, rfl⟩

theorem Inv.card_kernel (h : Inv n₀ L s T H) (P : Nat)
    [Decidable (P ∈ H ∨ ∃ r ∈ T, ∃ n, node s.mem r n = some P)] :
    ((Ref.all.filter fun x => goal s.mem T H x = some P).filter fun x => ¬ x.isLeaf = true).card =
      if P ∈ H ∨ ∃ r ∈ T, ∃ n, node s.mem r n = some P then 1 else 0 := by
  have hmem : ∀ x, x ∈ ((Ref.all.filter fun x => goal s.mem T H x = some P).filter
      fun x => ¬ x.isLeaf = true) ↔ goal s.mem T H x = some P ∧ x.isLeaf = false := by
    intro x
    simp only [Finset.mem_filter, Bool.not_eq_true]
    exact ⟨fun hx => ⟨hx.1.2, hx.2⟩, fun hx => ⟨⟨(h.books.mem _ _ hx.1).1, hx.1⟩, hx.2⟩⟩
  split_ifs with hk
  · apply le_antisymm
    · apply Finset.card_le_one.mpr
      intro x hx y hy
      rw [hmem] at hx hy
      exact (h.books.apart x y P hx.1 hy.1).resolve_right (not_compat_of_not_leaf hx.2 hy.2)
    · apply Finset.card_pos.mpr
      rcases hk with hp | ⟨r, hr, n, hn⟩
      · exact ⟨.held P, (hmem _).mpr ⟨goal_held hp, rfl⟩⟩
      · exact ⟨.table r n, (hmem _).mpr ⟨by rw [goal_table hr, hn], rfl⟩⟩
  · rw [Finset.card_eq_zero, Finset.eq_empty_iff_forall_notMem]
    intro x hx
    rw [hmem] at hx
    obtain ⟨hx, hl⟩ := hx
    cases x with
    | leaf _ _ => cases hl
    | table r n => exact hk (.inr ⟨r, (of_goal_table hx).1, n, (of_goal_table hx).2⟩)
    | held q =>
      obtain ⟨hq, rfl⟩ := of_goal_held hx
      exact hk (.inl hq)

theorem Good.count_eq {y : System} (h : Good n₀ L y.kernel y.client) (hP : Page P) :
    refs y.kernel P = (leaves y.kernel P).card + if KernelPage y P then 1 else 0 := by
  have hcard := Finset.card_filter_add_card_filter_not
    (s := Ref.all.filter fun x => goal y.kernel.mem (roots y.kernel.proc)
      (held y.kernel.proc y.client) x = some P) (fun x => x.isLeaf = true)
  rw [h.inv.card_leaves P, h.inv.card_kernel P] at hcard
  rw [h.inv.books.exact P hP, refCount, ← hcard]
  rw [leaves_eq]
  simp only [KernelPage]
  push_cast
  rfl

/-- In every reachable state the count of a page is the number of user leaves that map it, and one
more if the kernel has it. -/
theorem refcount_exact {acts : List Action} {y₀ y : System} (hb : Booted y₀)
    (hrun : run acts y₀ = some y) (hP : Page P) :
    y.kernel.count ((P - KERNBASE) / PGSIZE) =
      (leaves y.kernel P).card + if KernelPage y P then 1 else 0 :=
  (run_good (hb.good _ False) (fun hl => hl.elim) (Nat.le_refl _) hrun).count_eq hP

omit [Image] in
theorem refcount_exact_fork : ∃ y, @run smallImage forkRun bootSystem = some y ∧
    y.kernel.count ((0x87ff4000 - KERNBASE) / PGSIZE) =
      (leaves y.kernel 0x87ff4000).card + if KernelPage y 0x87ff4000 then 1 else 0 := by
  obtain ⟨y, hy⟩ := Option.isSome_iff_exists.mp forkRun_ends
  exact ⟨y, hy, @refcount_exact smallImage _ _ _ _ bootSystem_booted hy
    (@Page.mk smallImage _ (by decide) (by decide) (by decide))⟩

/-! ## Free pages -/

def Accounted (y : System) (P : Nat) : Prop :=
  (y.kernel.freelist.count P = 1 ∧ refs y.kernel P = 0) ∨
    (P ∉ y.kernel.freelist ∧ 0 < refs y.kernel P ∧ ((leaves y.kernel P).Nonempty ∨ KernelPage y P))

/-- If every copy-on-write page that is replaced by a copy has another reference, then no page is
lost. -/
theorem no_page_lost {acts : List Action} {y₀ y : System} (hb : Booted y₀)
    (hsafe : RunSafe acts y₀) (hrun : run acts y₀ = some y) (hP : Page P) : Accounted y P := by
  have h := run_good (hb.good _ True) (fun _ => hsafe) (Nat.le_refl _) hrun
  have hcount := h.count_eq hP
  by_cases h0 : refs y.kernel P = 0
  · have hfree := h.inv.books.full trivial P hP h0
    exact .inl ⟨List.count_eq_one_of_mem h.inv.books.nodup hfree, h0⟩
  · have hpos : 0 < refs y.kernel P := by
      split_ifs at hcount <;> omega
    refine .inr ⟨fun hfree => h0 (h.inv.books.free_ok P hfree).2, hpos, ?_⟩
    by_contra hno
    rw [not_or, Finset.not_nonempty_iff_eq_empty] at hno
    rw [hno.1, if_neg hno.2] at hcount
    exact h0 (by simpa using hcount)

theorem runSafe_append {as bs : List Action} {y : System} (has : RunSafe as y)
    (hbs : ∀ y', run as y = some y' → RunSafe bs y') : RunSafe (as ++ bs) y := by
  induction as generalizing y with
  | nil => exact hbs y rfl
  | cons a as ih =>
    refine ⟨has.1, fun y' hstep => ih (has.2 y' hstep) fun y'' hrun => hbs y'' ?_⟩
    simp only [run, List.foldlM_cons, hstep]
    exact hrun

omit [Image] in
theorem no_page_lost_cow : ∃ y, @run smallImage (forkRun ++ [.call 0 (.cowfault 0)]) bootSystem = some y ∧
    Accounted y 0x87ff4000 := by
  have hends : (@run smallImage (forkRun ++ [.call 0 (.cowfault 0)]) bootSystem).isSome = true := by
    decide +kernel
  have htwo : (@run smallImage forkRun bootSystem).map (fun y => decide
      (2 ≤ refs y.kernel (PTE2PA (pte y.kernel.mem (y.kernel.proc 0).pagetable 0)))) = some true := by
    decide +kernel
  obtain ⟨y, hy⟩ := Option.isSome_iff_exists.mp hends
  refine ⟨y, hy, @no_page_lost smallImage _ _ _ _ bootSystem_booted ?_ hy
    (@Page.mk smallImage _ (by decide) (by decide) (by decide))⟩
  refine @runSafe_append smallImage _ _ _ ?_ ?_
  · exact ⟨trivial, fun _ _ => ⟨trivial, fun _ _ => ⟨trivial, fun _ _ => ⟨trivial, fun _ _ => trivial⟩⟩⟩⟩
  · intro y' hy'
    refine ⟨fun P hP _ => ?_, fun _ _ => trivial⟩
    rw [hy', Option.map_some, Option.some.injEq, decide_eq_true_eq] at htwo
    rw [Nat.zero_div] at hP
    rwa [(valid_of_points hP).2] at htwo

omit [Image] in
theorem last_reference_lost : ∃ y, @run smallImage
    (forkRun ++ [.call 0 (.cowfault 0), .schedule 1 .RUNNING, .call 1 (.cowfault 0)]) bootSystem = some y ∧
    ¬ Accounted y 0x87ff4000 := by
  have hlost : (@run smallImage
      (forkRun ++ [.call 0 (.cowfault 0), .schedule 1 .RUNNING, .call 1 (.cowfault 0)]) bootSystem).map
      (fun y => (y.kernel.freelist.count 0x87ff4000, refs y.kernel 0x87ff4000)) = some (0, 0) := by
    decide +kernel
  obtain ⟨y, hy, hval⟩ := Option.map_eq_some_iff.mp hlost
  simp only [Prod.mk.injEq] at hval
  refine ⟨y, hy, ?_⟩
  rintro (⟨h1, -⟩ | ⟨-, h1, -⟩)
  · omega
  · omega

/-! ## Isolation -/

def user_byte (s : Kernel) (k va : Nat) : Option Byte :=
  let e := pte s.mem (s.proc k).pagetable (va / PGSIZE)
  if va < MAXVA ∧ has e PTE_V = true ∧ has e PTE_U = true then
    some (s.mem (PTE2PA e + va % PGSIZE))
  else none

/-- What a process does leaves the memory of every other process as it is. -/
theorem Acts.user_byte {k : Nat} (h : Good n₀ L s C) (ha : Acts n₀ L C i s s')
    (h0 : s.stats.swap_outs = n₀) (h1 : s'.stats.swap_outs = n₀) (hk : k < NPROC) (hki : k ≠ i)
    (hlive : (s.proc k).live) (va : Nat) : user_byte s' k va = user_byte s k va := by
  have hr : (s.proc k).pagetable ∈ others i s.proc := mem_others.mpr ⟨k, hk, hki, hlive, rfl⟩
  simp only [Xv6.user_byte, (ha.same k hk hki hlive).1]
  by_cases hva : va < MAXVA
  · rw [ha.kept.quiet h0 h1 _ hr _ (page_number_lt hva)]
    split_ifs with hvu
    · obtain ⟨-, hV, hU⟩ := hvu
      have hv := h.inv.user_of_U (h.root_mem hk hlive.1) (page_number_lt hva) hU
      rw [ha.kept.bytes h0 h1 _ (.inr ⟨_, hr, _, hv, points_some hV⟩) _
        (by simp only [PGSIZE]; omega)]
    · rfl
  · simp [hva]

/-- Copy-on-write isolation: in a run without swap-outs, a page with two user leaves is read-only in
both, and no call of a process changes a byte that another live process reads. -/
theorem cow_isolation {acts : List Action} {y₀ y : System} (hb : Booted y₀)
    (hrun : run acts y₀ = some y) (hswap : y.kernel.stats.swap_outs = y₀.kernel.stats.swap_outs) :
    (∀ P, ∀ x ∈ leaves y.kernel P, ∀ x' ∈ leaves y.kernel P, x ≠ x' →
      has (pte y.kernel.mem x.1 x.2) PTE_W = false ∧ has (pte y.kernel.mem x'.1 x'.2) PTE_W = false) ∧
    ∀ i c y', step y (.call i c) = some y' →
      y'.kernel.stats.swap_outs = y₀.kernel.stats.swap_outs →
      ∀ k < NPROC, k ≠ i → (y.kernel.proc k).live →
        ∀ va, user_byte y'.kernel k va = user_byte y.kernel k va := by
  have h := run_good (hb.good _ False) (fun hl => hl.elim) (Nat.le_refl _) hrun
  constructor
  · rintro P ⟨r, v⟩ hx ⟨r', v'⟩ hx' hne
    obtain ⟨⟨hr, hv⟩, hp⟩ := mem_leaves.mp hx
    obtain ⟨⟨hr', hv'⟩, hp'⟩ := mem_leaves.mp hx'
    rcases h.inv.books.apart (.leaf r v) (.leaf r' v') P (by rw [goal_leaf hr hv, hp])
      (by rw [goal_leaf hr' hv', hp']) with he | hc
    · cases he
      exact absurd rfl hne
    · exact ⟨hc.2.1, hc.2.2.1⟩
  · intro i c y' hstep hswap' k hk hki hlive va
    simp only [step] at hstep
    split_ifs at hstep with hg
    obtain ⟨_, hcall, -⟩ := lift_some hstep
    exact (perform_acts h hg.1 hg.2 (fun hl => hl.elim) (.inl hswap.ge) hcall).user_byte h hswap hswap' hk
      hki hlive va

omit [Image] in
theorem store_after_fork : ∃ y y',
    @run smallImage (forkRun ++ [.call 0 (.cowfault 0)]) bootSystem = some y ∧
    @step smallImage y (.call 0 (.store 8 7)) = some y' ∧ y.kernel.stats.swap_outs = 0 ∧
    y'.kernel.stats.swap_outs = 0 ∧ (y.kernel.proc 1).live ∧ user_byte y'.kernel 0 8 = some 7 := by
  have heval : ((@run smallImage (forkRun ++ [.call 0 (.cowfault 0)]) bootSystem).bind fun y =>
      (@step smallImage y (.call 0 (.store 8 7))).map fun y' => decide
        (y.kernel.stats.swap_outs = 0 ∧ y'.kernel.stats.swap_outs = 0 ∧ (y.kernel.proc 1).live ∧
          user_byte y'.kernel 0 8 = some 7)) = some true := by decide +kernel
  obtain ⟨y, hy, hstep⟩ := Option.bind_eq_some_iff.mp heval
  obtain ⟨y', hy', hval⟩ := Option.map_eq_some_iff.mp hstep
  exact ⟨y, y', hy, hy', of_decide_eq_true hval⟩

omit [Image] in
theorem cow_isolation_store : ∃ y y',
    @run smallImage (forkRun ++ [.call 0 (.cowfault 0)]) bootSystem = some y ∧
    @step smallImage y (.call 0 (.store 8 7)) = some y' ∧
    user_byte y'.kernel 0 8 = some 7 ∧ user_byte y'.kernel 1 8 = user_byte y.kernel 1 8 := by
  obtain ⟨y, y', hy, hy', hs, hs', hlive, hbyte⟩ := store_after_fork
  exact ⟨y, y', hy, hy', hbyte, (@cow_isolation smallImage _ _ _ bootSystem_booted hy hs).2 0 _ y' hy' hs'
    1 (by decide) (by decide) hlive 8⟩

theorem Inv.eq_of_writable {x : Ref} (h : Inv n₀ L s T H) (hr : r ∈ T) (hv : v < UPAGES)
    (hp : points (pte s.mem r v) = some P) (hw : has (pte s.mem r v) PTE_W = true) (hx : goal s.mem T H x = some P) :
    x = .leaf r v := by
  refine (h.books.apart x (.leaf r v) P hx (by rw [goal_leaf hr hv, hp])).resolve_right fun hc => ?_
  cases x with
  | leaf r' v' => simp [hc.2.2.1] at hw
  | table r' n => simp [hc.1] at hw
  | held q => exact hc

/-- Whatever is swapped out, a page that a process may write to is its own: nothing else maps it, the kernel does not have
it for itself, and it is not free. -/
theorem writable_page_private {acts : List Action} {y₀ y : System} (hb : Booted y₀) (hrun : run acts y₀ = some y)
    (hr : r ∈ roots y.kernel.proc) (hv : v < UPAGES) (hp : points (pte y.kernel.mem r v) = some P)
    (hw : has (pte y.kernel.mem r v) PTE_W = true) :
    leaves y.kernel P = {(r, v)} ∧ ¬ KernelPage y P ∧ P ∉ y.kernel.freelist ∧ refs y.kernel P = 1 := by
  have h := run_good (hb.good _ False) (fun hl => hl.elim) (Nat.le_refl _) hrun
  have hleaves : leaves y.kernel P = {(r, v)} := by
    ext ⟨r', v'⟩
    rw [mem_leaves, Finset.mem_singleton]
    constructor
    · rintro ⟨⟨hr', hv'⟩, hp'⟩
      cases h.inv.eq_of_writable hr hv hp hw (x := .leaf r' v') (by rw [goal_leaf hr' hv', hp'])
      rfl
    · rintro ⟨⟩
      exact ⟨⟨hr, hv⟩, hp⟩
  have hkernel : ¬ KernelPage y P := by
    rintro (hq | ⟨r', hr', n, hn⟩)
    · cases h.inv.eq_of_writable hr hv hp hw (goal_held hq)
    · cases h.inv.eq_of_writable hr hv hp hw (x := .table r' n) (by rw [goal_table hr', hn])
  have hone : refs y.kernel P = 1 := by
    have hx := goal_leaf (m := y.kernel.mem) (H := held y.kernel.proc y.client) hr hv
    rw [h.count_eq (h.inv.books.mem _ _ (hx.trans hp)).2, hleaves, if_neg hkernel]
    rfl
  refine ⟨hleaves, hkernel, fun hfree => ?_, hone⟩
  rw [(h.inv.books.free_ok P hfree).2] at hone
  cases hone

omit [Image] in
theorem writable_page_private_copied : ∃ y P, @run smallImage (forkRun ++ [.call 0 (.cowfault 0)]) bootSystem = some y ∧
    points (pte y.kernel.mem (y.kernel.proc 0).pagetable 0) = some P ∧ refs y.kernel P = 1 := by
  have heval : (@run smallImage (forkRun ++ [.call 0 (.cowfault 0)]) bootSystem).map (fun y =>
      let e := pte y.kernel.mem (y.kernel.proc 0).pagetable 0
      decide ((y.kernel.proc 0).pagetable ≠ 0 ∧ has e PTE_V = true ∧ has e PTE_W = true)) = some true := by decide +kernel
  obtain ⟨y, hy, hval⟩ := Option.map_eq_some_iff.mp heval
  obtain ⟨hroot, hV, hW⟩ := of_decide_eq_true hval
  have hr : (y.kernel.proc 0).pagetable ∈ roots y.kernel.proc := mem_addrs.mpr ⟨hroot, 0, by decide, rfl⟩
  exact ⟨y, _, hy, points_some hV,
    (@writable_page_private smallImage _ _ _ _ _ _ bootSystem_booted hy hr (by decide) (points_some hV) hW).2.2.2⟩

end Xv6
