import Xv6.Frame
import Xv6.Reachable
import Xv6.Shape

/-!
# Tearing down an address space

The tree of a process goes with all that only it has, and with nothing else.
-/

open Xv6.Lib Xv6.Lib.Radix

namespace Xv6

variable [Image] {n₀ : Nat} {L : Prop} {s s' t : Kernel} {T H : Finset Nat} {r sz P : Nat}

/-! ## What is given back -/

/-- A page that loses its last reference goes to the free list, where it stays. -/
structure Yields (s t : Kernel) : Prop where
  stay : ∀ P ∈ s.freelist, P ∈ t.freelist
  given : ∀ P, Page P → refs s P ≠ 0 → refs t P = 0 → P ∈ t.freelist
  fixed : ∀ j, (∀ P, Page P → (P - KERNBASE) / PGSIZE ≠ j) → t.count j = s.count j

instance : IsPreorder Kernel Yields where
  refl _ := ⟨fun _ h => h, fun _ _ h0 h1 => absurd h1 h0, fun _ _ => rfl⟩
  trans s u t h h' := by
    refine ⟨fun P hP => h'.stay P (h.stay P hP), fun P hP h0 h1 => ?_, fun j hj => ?_⟩
    · by_cases hu : refs u P = 0
      · exact h'.stay P (h.given P hP h0 hu)
      · exact h'.given P hP hu h1
    · rw [h'.fixed j hj, h.fixed j hj]

theorem Yields.freed (hP : Page P) (s : Kernel) : Yields s (freed P s) := by
  refine ⟨fun Q hQ => ?_, fun Q hQ h0 h1 => ?_, fun j hj => ?_⟩
  · rw [freed_freelist]
    split_ifs
    · exact List.mem_cons_of_mem P hQ
    · exact hQ
  · rw [freed_refs hP hQ] at h1
    split_ifs at h1 with hQP
    · rw [freed_freelist, if_pos (by rw [← hQP]; omega), hQP]
      exact List.mem_cons_self
    · exact absurd h1 h0
  · by_cases h1 : refs s P = 1 <;> simp only [Xv6.freed, h1, if_true, if_false, if_neg (Ne.symm (hj P hP))]

theorem Yields.empties : Empties Yields where
  write s m := ⟨fun _ h => h, fun _ _ h0 h1 => absurd h1 h0, fun _ _ => rfl⟩
  give P s u t hrun := by
    obtain ⟨hP, -, rfl⟩ := kfree_ok hrun
    exact .freed hP s
  block k s u t hrun := by
    obtain ⟨-, rfl⟩ := swapfree_ok hrun
    exact ⟨fun _ h => h, fun _ _ h0 h1 => absurd h1 h0, fun _ _ => rfl⟩

/-! ## Counts -/

theorem Removed.goal (h : Removed n₀ L T H r s t) (hsw : t.stats.swap_outs = s.stats.swap_outs) (x : Ref) :
    goal t.mem (T.erase r) H x = goal s.mem T H x ∨
      goal t.mem (T.erase r) H x = none ∧ ((∃ v, x = .leaf r v) ∨ ∃ n, x = .table r n) := by
  cases x with
  | leaf r' v =>
    by_cases hr : r' = r
    · exact .inr ⟨by simp [Xv6.goal, hr], .inl ⟨v, by rw [hr]⟩⟩
    · refine .inl ?_
      simp only [Xv6.goal, Finset.mem_erase, ne_eq, hr, not_false_eq_true, true_and]
      split_ifs with hin
      · rw [h.fixed.calm hsw r' (Finset.mem_erase.mpr ⟨hr, hin.1⟩) v (hin.2.trans UPAGES_lt)]
      · rfl
  | table r' n =>
    by_cases hr : r' = r
    · exact .inr ⟨by simp [Xv6.goal, hr], .inr ⟨n, by rw [hr]⟩⟩
    · refine .inl ?_
      simp only [Xv6.goal, Finset.mem_erase, ne_eq, hr, not_false_eq_true, true_and]
      split_ifs with hin
      · exact h.fixed.tables r' (Finset.mem_erase.mpr ⟨hr, hin⟩) n
      · rfl
  | held p => exact .inl rfl

def mappers (m : Mem) (r n P : Nat) : Finset Nat := (Finset.range n).filter fun v => points (pte m r v) = some P

theorem Removed.refs (h : Removed n₀ L T H r s t) (hs : Inv n₀ L s T H) (hr : r ∈ T)
    (hsw : t.stats.swap_outs = s.stats.swap_outs) (hsz : sz ≤ TRAPFRAME) (hb : Bound s.mem r (npages sz)) (hP : Page P)
    (htable : ∀ n, node s.mem r n ≠ some P) : refs t P = refs s P - (mappers s.mem r (npages sz) P).card := by
  have hdrop := refCount_drop (U := Ref.all) (P := P) fun x _ => (h.goal hsw x).imp_right And.left
  have hgone : (Ref.all.filter fun x => Xv6.goal s.mem T H x = some P ∧ Xv6.goal t.mem (T.erase r) H x = none) =
      (mappers s.mem r (npages sz) P).image (Ref.leaf r) := by
    ext x
    simp only [Finset.mem_filter, Finset.mem_image, mappers, Finset.mem_range]
    constructor
    · rintro ⟨-, hx, hnone⟩
      obtain he | ⟨-, ⟨v, rfl⟩ | ⟨n, rfl⟩⟩ := h.goal hsw x
      · rw [he, hx] at hnone
        cases hnone
      · obtain ⟨⟨-, hv⟩, hp⟩ := of_goal_leaf hx
        refine ⟨v, ⟨hb v hv ?_, hp⟩, rfl⟩
        rw [present, (valid_of_points hp).1, Bool.true_or]
      · exact absurd (of_goal_table hx).2 (htable n)
    · rintro ⟨v, ⟨hv, hp⟩, rfl⟩
      have hv' := hv.trans_le (npages_le hsz)
      have hx : Xv6.goal s.mem T H (.leaf r v) = some P := by rw [goal_leaf hr hv', hp]
      exact ⟨(hs.books.mem _ _ hx).1, hx, by simp [Xv6.goal]⟩
  rw [hgone, Finset.card_image_of_injective _ fun v w hvw => (Ref.leaf.inj hvw).2] at hdrop
  rw [hs.books.exact P hP, h.inv.books.exact P hP, hdrop]
  omega

theorem Removed.table {n : Node} (h : Removed s.stats.swap_outs L T H r s t) (hs : Inv s.stats.swap_outs L s T H)
    (hr : r ∈ T) (hsw : t.stats.swap_outs = s.stats.swap_outs) (hP : node s.mem r n = some P) : Xv6.refs t P = 0 := by
  have hgoal : Xv6.goal s.mem T H (.table r n) = some P := by rw [goal_table hr, hP]
  rw [h.inv.books.exact P (hs.page_table hr hP), Int.natCast_eq_zero, refCount_eq_zero]
  intro x _ hx
  obtain he | ⟨he, -⟩ := h.goal hsw x
  · rw [he] at hx
    obtain rfl | hc := hs.books.apart x (.table r n) P hx hgoal
    · rw [hgoal] at he
      simp [Xv6.goal] at he
    · cases x with
      | leaf r' v => exact absurd hc.2 (Nat.lt_irrefl _)
      | table r' n' => exact hc
      | held p => exact hc
  · rw [he] at hx
    cases hx

/-! ## Swap space -/

omit [Image] in
theorem foldl_release (ks : List Nat) (sw : Swap) : (ks.foldl Swap.release sw).nfree = sw.nfree + ks.length ∧
    ∀ k, inuse (ks.foldl Swap.release sw) k = true ↔ inuse sw k = true ∧ k ∉ ks := by
  induction ks generalizing sw with
  | nil => simp
  | cons j ks ih =>
    obtain ⟨hn, hu⟩ := ih (sw.release j)
    refine ⟨?_, fun k => ?_⟩
    · rw [List.foldl_cons, hn, List.length_cons, Swap.release]
      dsimp only
      omega
    · rw [List.foldl_cons, hu, inuse_release, List.mem_cons]
      simp only [Bool.and_eq_true, Bool.not_eq_true', decide_eq_false_iff_not, not_or]
      tauto

omit [Image] in
theorem Slots.blocks_nodup {n : Nat} (h : Slots T s) (hr : r ∈ T) (hn : n ≤ UPAGES) : (blocks s.mem r 0 n).Nodup := by
  rw [blocks, List.Nodup, List.pairwise_filterMap]
  refine List.Pairwise.imp_of_mem ?_ (List.nodup_range' : (List.range' 0 n).Nodup)
  rintro v w hv hw hne k hk k' hk' rfl
  have hv := (List.mem_range'_1.mp hv).2
  have hw := (List.mem_range'_1.mp hw).2
  have hlt := UPAGES_lt
  exact hne (h.own r hr w (by omega) r hr v (by omega) k hk' hk).2

/-! ## The whole tree -/

/-- Each valid leaf gives back one reference and each swapped leaf its block, each table goes to the free list once, and
nothing else changes. -/
theorem proc_freepagetable_exact (h : Inv s.stats.swap_outs L s T H) (hz : Slots T s) (hr : r ∈ T)
    (hsz : sz ≤ TRAPFRAME) (hb : Bound s.mem r (npages sz)) :
    Op.Ends (proc_freepagetable r sz) s (fun _ t =>
      (∀ P, Page P → (∀ n, node s.mem r n ≠ some P) →
        refs t P = refs s P - (mappers s.mem r (npages sz) P).card ∧
          (refs t P = 0 → refs s P ≠ 0 → t.freelist.count P = 1)) ∧
      (∀ n P, node s.mem r n = some P → refs t P = 0 ∧ s.freelist.count P = 0 ∧ t.freelist.count P = 1) ∧
      ((blocks s.mem r 0 (npages sz)).Nodup ∧
        t.swap.nfree = s.swap.nfree + (blocks s.mem r 0 (npages sz)).length ∧
        ∀ k, inuse t.swap k = true ↔ inuse s.swap k = true ∧ k ∉ blocks s.mem r 0 (npages sz)) ∧
      (∀ P ∈ H, refs t P = refs s P ∧ ∀ k < PGSIZE, t.mem (P + k) = s.mem (P + k)) ∧
      ((∀ j, (∀ P, Page P → (P - KERNBASE) / PGSIZE ≠ j) → t.count j = s.count j) ∧ ∀ a < kend, t.mem a = s.mem a) ∧
      ∀ r' ∈ T.erase r, (∀ n, node t.mem r' n = node s.mem r' n) ∧ ∀ v < 512 ^ 3, pte t.mem r' v = pte s.mem r' v)
      fun _ => False := by
  have hle := npages_le hsz
  refine ((proc_freepagetable_ends (Z := True) h (fun _ => hz) hr hsz hb).weaken ?_).with_run.mono ?_
  · exact fun msg hstray => hstray.1 trivial
  rintro _ t ⟨⟨hrem, hswap⟩, hrun⟩
  have hret : Yields s t := Yields.empties.proc_freepagetable r sz s () t hrun
  have honce : ∀ P, Page P → refs t P = 0 → refs s P ≠ 0 → t.freelist.count P = 1 := fun P hP h1 h0 =>
    List.count_eq_one_of_mem hrem.inv.books.nodup (hret.given P hP h0 h1)
  obtain ⟨hfree, hused⟩ := foldl_release (blocks s.mem r 0 (npages sz)) s.swap
  rw [← hswap] at hfree hused
  refine ⟨fun P hP hnot => ⟨hrem.refs h hr hrem.swaps hsz hb hP hnot, honce P hP⟩, fun n P hP => ?_,
    ⟨hz.blocks_nodup hr hle, hfree, hused⟩, fun P hP => ⟨?_, fun k hk => ?_⟩, ⟨hret.fixed, hrem.text⟩,
    fun r' hr' => ⟨hrem.fixed.tables r' hr', hrem.fixed.calm hrem.swaps r' hr'⟩⟩
  · have hgoal : goal s.mem T H (.table r n) = some P := by rw [goal_table hr, hP]
    have hpos := h.books.pos hgoal
    have h0 := hrem.table h hr hrem.swaps hP
    refine ⟨h0, List.count_eq_zero.mpr fun hin => ?_, honce P (h.page_table hr hP) h0 (by omega)⟩
    have := (h.books.free_ok P hin).2
    omega
  · rw [hrem.refs h hr hrem.swaps hsz hb (h.page_held hP) fun n hn => h.held_not_table hP hr hn]
    have hnone : mappers s.mem r (npages sz) P = ∅ := by
      refine Finset.filter_eq_empty_iff.mpr fun v hv hp => ?_
      exact h.held_not_mapped hP hr ((Finset.mem_range.mp hv).trans_le hle) hp
    rw [hnone, Finset.card_empty]
    omega
  · exact hrem.evolve.bytes rfl hrem.swaps P (.inl hP) k hk

omit [Image] in
theorem proc_freepagetable_exact_fork : ∃ y T H, @run smallImage forkRun bootSystem = some y ∧
    @Inv smallImage y.kernel.stats.swap_outs False y.kernel T H ∧ (y.kernel.proc 0).pagetable ∈ T ∧
    Op.Ends (@proc_freepagetable smallImage (y.kernel.proc 0).pagetable (y.kernel.proc 0).sz) y.kernel
      (fun _ t => t.freelist.count (y.kernel.proc 0).pagetable = 1) fun _ => False := by
  have heval : (@run smallImage forkRun bootSystem).map (fun y =>
      decide (y.kernel.stats.swap_outs = 0 ∧ (y.kernel.proc 0).state ≠ .UNUSED)) = some true := by decide +kernel
  obtain ⟨y, hy, hfacts⟩ := Option.map_eq_some_iff.mp heval
  obtain ⟨hsw, hused⟩ := of_decide_eq_true hfacts
  let : Image := smallImage
  have hg := bootSystem_booted.run_good hy
  have hslots := bootSystem_booted.run_slots (by simp [forkRun, Action.Fits, Call.Fits]) hy
  have hinv := hg.inv
  rw [← hsw] at hinv
  have hr := hg.root_mem (i := 0) (by decide) hused
  have hslot := (hg.slots 0 (by decide)).used hused
  refine ⟨y, _, _, hy, hinv, hr, ?_⟩
  exact (proc_freepagetable_exact hinv hslots hr hslot.size hslot.bound).mono
    fun _ t ht => (ht.2.1 .top _ rfl).2.2

end Xv6
