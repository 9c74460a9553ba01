import Xv6.Contents
import Xv6.Locks
import Xv6.Protection
import Xv6.Shape
import Xv6.Supply

/-!
# Calls that fail as a whole

A fork that runs out of memory leaves the parent as it was, and so does a request for more memory.
-/

open Xv6.Lib Xv6.Lib.Radix

namespace Xv6

variable [Image] {n₀ : Nat} {L : Prop} {s s' t : Kernel} {T H C : Finset Nat} {i j r va v old new : Nat}

/-! ## A fork that fails -/

omit [Image] in
theorem grants_marked {e : Pte} {below : Prop} {a : Access} (hV : has e PTE_V = true) (hW : has e PTE_W = true) :
    Grants (marked e) below a ↔ Grants e below a := by
  have hmarked : ∀ f, f &&& PTE_W = 0#64 → PTE_COW &&& f = 0#64 → has (marked e) f = has e f := fun f h1 h2 =>
    has_marked h1 h2 e
  rw [grants_valid hV, grants_valid (by rw [hmarked _ (by decide) (by decide), hV]), hmarked PTE_U (by decide) (by decide),
    marked_COW]
  refine and_congr_right fun _ => ?_
  cases a with
  | load => rw [Access.flag, hmarked _ (by decide) (by decide)]; simp
  | store => simp [Access.flag, hW]
  | fetch => rw [Access.flag, hmarked _ (by decide) (by decide)]; simp

/-- After a failed fork of process `i` the counts, the free pages, the process table and its memory are as before. -/
structure Reverted (i : Nat) (s s' : Kernel) : Prop where
  refs : ∀ P, Page P → refs s' P = refs s P
  free : ∀ P ∈ s.freelist, P ∈ s'.freelist
  procs : ∀ k, s'.proc k = s.proc k ∨ (s.proc k).state = .UNUSED ∧ (s'.proc k).state = .UNUSED
  rights : ∀ va < MAXVA, ∀ a, Can s' i va a ↔ Can s i va a
  memory : NoTableLeaf s (roots s.proc) → ∀ va < MAXVA, logical s' i va = logical s i va

section reverted
variable (h : Good 0 False s C) (hi : i < NPROC) (hu : (s.proc i).state ≠ .UNUSED)
  (hrolled : Rolled (roots s.proc) (s.proc i).pagetable s s') (hempty : Emptied s s')
  (hsw : s'.stats.swap_outs = s.stats.swap_outs)
include h hi hu hrolled hempty hsw

omit hi hu in
theorem reverted_refs (h' : Good 0 False s' C) : ∀ P, Page P → refs s' P = refs s P := by
  have hgoal : goal s'.mem (roots s.proc) (held s.proc C) = goal s.mem (roots s.proc) (held s.proc C) := by
    refine goal_points hrolled.tables fun r hr v hv => ?_
    by_cases hold : r = (s.proc i).pagetable
    · rw [hold]
      rcases hrolled.parent hsw v (hv.trans UPAGES_lt) with he | ⟨-, -, he⟩
      · rw [he]
      · rw [he, points_marked]
    · rw [hrolled.others hsw r hr hold v (hv.trans UPAGES_lt)]
  have hinv := h'.inv
  rw [hempty.roots h, hempty.held h] at hinv
  intro P hP
  rw [hinv.books.exact P hP, h.inv.books.exact P hP, hgoal]

omit [Image] h hi in
theorem reverted_rights : ∀ va < MAXVA, ∀ a, Can s' i va a ↔ Can s i va a := by
  intro va hva a
  have hproc : s'.proc i = s.proc i := (hempty.proc i).resolve_right fun hbad => hu hbad.1
  rw [Can, Can, hproc]
  rcases hrolled.parent hsw _ (page_number_lt hva) with he | ⟨hV, hW, he⟩
  · rw [he]
  · rw [he, grants_marked hV hW]

theorem reverted_memory (hlater : Later s s') (hpages : Pages s.stats.swap_outs (s.proc i).pagetable s s') :
    ∀ va < MAXVA, logical s' i va = logical s i va := by
  intro va hva
  have hproc : s'.proc i = s.proc i := (hempty.proc i).resolve_right fun hbad => hu hbad.1
  have hv3 := page_number_lt hva
  obtain ⟨hd, hb, ha⟩ := hlater.blocks hsw
  rw [logical, logical, hproc]
  cases hV : has (pte s.mem (s.proc i).pagetable (va / PGSIZE)) PTE_V with
  | true =>
    have hsame : ∀ f, f = PTE_V ∨ f = PTE_U → has (pte s'.mem (s.proc i).pagetable (va / PGSIZE)) f =
        has (pte s.mem (s.proc i).pagetable (va / PGSIZE)) f := by
      intro f hf
      rcases hrolled.parent hsw _ hv3 with he | ⟨-, -, he⟩
      · rw [he]
      · rw [he]
        rcases hf with rfl | rfl <;> exact has_marked (by decide) (by decide) _
    cases hU : has (pte s.mem (s.proc i).pagetable (va / PGSIZE)) PTE_U with
    | true =>
      have hv := h.inv.user_of_U (h.root_mem hi hu) hv3 hU
      have hP := points_some hV
      obtain ⟨hP', hbytes⟩ := hpages rfl hsw _ hv _ hP
      rw [points_some (by rw [hsame _ (.inl rfl), hV]), Option.some.injEq] at hP'
      rw [leaf_byte_user hV hU, leaf_byte_user (by rw [hsame _ (.inl rfl), hV]) (by rw [hsame _ (.inr rfl), hU]), hP',
        hbytes _ (Nat.mod_lt _ (by decide))]
    | false => simp [leaf_byte, hsame, hV, hU]
  | false =>
    have he : pte s'.mem (s.proc i).pagetable (va / PGSIZE) = pte s.mem (s.proc i).pagetable (va / PGSIZE) := by
      rcases hrolled.parent hsw _ hv3 with he | ⟨hV', -⟩
      · exact he
      · rw [hV] at hV'
        cases hV'
    rw [he, leaf_byte, leaf_byte, saved_byte_congr hd hb ha, hV]
    rfl

end reverted

theorem fork_reverted (h : Good 0 False s C) (hi : i < NPROC) (hu : (s.proc i).state ≠ .UNUSED)
    (hrun : kfork i s = .ok (-1, s')) (hsw : s'.stats.swap_outs = s.stats.swap_outs) : Reverted i s s' := by
  have hf := (kfork_ends (Z := False) h False.elim (.inl (Nat.zero_le _)) hi hu).of_ok hrun
  obtain ⟨-, hempty⟩ := hf.ends.resolve_right fun hbad => hbad.1 rfl
  have hrolled := hf.rolled
  have hrefs := reverted_refs h hrolled hempty hsw hf.good
  refine ⟨hrefs, fun P hP => ?_, hempty.proc, reverted_rights hu hrolled hempty hsw, fun hno => ?_⟩
  · obtain ⟨hpage, hzero⟩ := h.inv.books.free_ok P hP
    refine (Retains.forks.kfork i s _ s' hrun P hpage (.inl hP)).resolve_right ?_
    have := hrefs P hpage
    omega
  · have hpages := ((kfork_ends (Z := False) (h.rebase hno s.stats.swap_outs) False.elim (.inl (Nat.le_refl _)) hi
      hu).of_ok hrun).pages
    exact reverted_memory h hi hu hrolled hempty hsw (Later.forks.kfork i s _ s' hrun) hpages

end Xv6
