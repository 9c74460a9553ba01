import Xv6.Locks
import Xv6.Shape
import Xv6.Supply

/-!
# Page faults of user code

Which page faults stop the kernel. Every reachable state is `Good` and its swapped leaves are
`Slots` (`run_good`, `run_slots`).
-/

open Xv6.Lib Op Radix

namespace Xv6

variable [Image] {s t : Kernel} {C T H : Finset Nat} {n₀ i r va scause stval sepc : Nat} {L Z kill : Prop} {u : Unit}

/-! ## The allocations of a fault -/

/-- The process table is as before. -/
structure SameProcs (s t : Kernel) : Prop where
  proc : t.proc = s.proc
  init : t.initproc = s.initproc

instance : IsPreorder Kernel SameProcs where
  refl _ := ⟨rfl, rfl⟩
  trans _ _ _ h h' := ⟨h'.proc.trans h.proc, h'.init.trans h.init⟩

omit [Image] in
theorem freed_procs (P : Nat) (s : Kernel) : SameProcs s (freed P s) := by
  unfold freed
  split <;> exact ⟨rfl, rfl⟩

theorem paged_procs : Paged SameProcs where
  write _ _ := ⟨rfl, rfl⟩
  give pa s u s' h := by
    obtain ⟨-, -, rfl⟩ := kfree_ok h
    exact freed_procs pa s
  take := by
    intro s r s' h
    have hout : ∀ r va, Keeps SameProcs (swapout r va) := by
      intro r va s res s' h
      rcases swapout_ok h with ⟨-, rfl⟩ | ⟨-, -, q, k, -, -, -, -, t, ht, rfl⟩
      · exact refl _
      · have hst : SameProcs s t := by
          rw [ht]
          exact ⟨rfl, rfl⟩
        have hfreed := trans_of SameProcs hst (freed_procs (PTE2PA (pte s.mem r (va / PGSIZE))) t)
        exact ⟨hfreed.proc, hfreed.init⟩
    rcases kalloc_ok h with ⟨p, rest, -, -, rfl⟩ | ⟨-, v, t, hvictim, hend⟩
    · exact ⟨rfl, rfl⟩
    · refine trans_of SameProcs (victim_keeps hout _ _ _ hvictim) ?_
      rcases hend with ⟨-, -, rfl⟩ | ⟨-, p, rest, -, -, rfl⟩ <;> exact ⟨rfl, rfl⟩

theorem kalloc_paid {res : Option Nat} (h : Sane n₀ L Z T H s) (hfree : 0 < s.freelist.length)
    (hrun : kalloc s = .ok (res, t)) : ∃ p, res = some p ∧ p ≠ 0 ∧ s.freelist.length = t.freelist.length + 1 := by
  rcases kalloc_ok hrun with ⟨p, rest, hcons, rfl, rfl⟩ | ⟨hnil, -⟩
  · obtain ⟨-, hinv⟩ := (kalloc_spec h.inv h.procsIn hrun).2.2.2 p rfl
    refine ⟨p, rfl, (hinv.page_held (Finset.mem_insert_self p H)).ne_zero, ?_⟩
    rw [hcons]
    rfl
  · rw [hnil] at hfree
    cases hfree

theorem mappages_paid {pa : Nat} {perm : Pte} {res : Int} (hfree : 2 ≤ s.freelist.length)
    (hrun : mappages r va PGSIZE pa perm s = .ok (res, t)) : res = 0 := by
  have hheld : ∀ s, UnderLocks True 1 (kalloc_locked 0 [0]) kalloc s :=
    kalloc_locked_mirrors fun _ => ⟨0, by decide, List.mem_singleton_self 0⟩
  have hcalm := ((mappages_mirrors hheld r va PGSIZE pa perm s).draws res t hrun hfree).2
  by_contra hres
  exact (mappages_counts hrun).iff_ne.mp hres (hcalm.failures trivial)

theorem swapin_paid {res : Nat} (h : Sane n₀ L Z T H s) (hS : has (pte s.mem r (va / PGSIZE)) PTE_SWAPPED = true)
    (hfree : 0 < s.freelist.length) (hrun : swapin r va s = .ok (res, t)) : res ≠ 0 ∧ SameProcs s t := by
  obtain ⟨-, ⟨-, -, hno⟩ | ⟨-, ⟨-, halloc⟩ | ⟨q, a, u, w, -, -, halloc, rfl, rfl⟩⟩⟩ := swapin_ok hrun
  · rw [hS] at hno
    cases hno
  · obtain ⟨p, hp, -⟩ := kalloc_paid h hfree halloc
    cases hp
  · obtain ⟨p, hp, hne, -⟩ := kalloc_paid h hfree halloc
    cases hp
    have hsame := paged_procs.take _ _ _ halloc
    exact ⟨hne, hsame.proc, hsame.init⟩

theorem cowfault_paid {res : Int} (h : Sane n₀ L Z T H s) (hV : has (pte s.mem r (va / PGSIZE)) PTE_V = true)
    (hC : has (pte s.mem r (va / PGSIZE)) PTE_COW = true) (hfree : 0 < s.freelist.length)
    (hrun : cowfault r va s = .ok (res, t)) : res = 0 ∧ SameProcs s t := by
  have hdrop : ∀ pa, Keeps SameProcs (krefdec pa) := by
    intro pa s c s' hdec
    obtain ⟨-, -, -, rfl⟩ := krefdec_ok hdec
    exact ⟨rfl, rfl⟩
  refine ⟨?_, paged_procs.cowfault hdrop r va s res t hrun⟩
  rw [cowfault, walk_false, bind_ok] at hrun
  obtain ⟨slot, s₁, hwalk, hrun⟩ := hrun
  obtain ⟨-, rfl, rfl⟩ := walk0_ok hwalk
  rw [low_down, PGROUNDDOWN_div] at hrun
  cases hlow : low s₁.mem r va with
  | none =>
    rw [pte_of_low_none hlow, has_zero] at hV
    cases hV
  | some q =>
    simp only [hlow, Option.map_some, bind_ok, load64_ok] at hrun
    obtain ⟨e, s₂, ⟨rfl, rfl⟩, hrun⟩ := hrun
    rw [pte_of_low hlow, hV, hC, if_neg (by decide), if_neg (by decide), bind_ok] at hrun
    obtain ⟨mem, s₃, halloc, hrun⟩ := hrun
    obtain ⟨p, rfl, -, -⟩ := kalloc_paid h hfree halloc
    simp only [bind_ok, pure_ok] at hrun
    obtain ⟨_, _, -, _, _, -, _, _, -, rfl, -⟩ := hrun
    rfl

theorem vmfault_paid {res : Nat} (h : Sane n₀ L Z T H s) (hva : va < MAXVA)
    (hfree : va < (s.proc i).sz → has (pte s.mem r (va / PGSIZE)) PTE_V = false → 3 ≤ s.freelist.length)
    (hrun : vmfault i r va s = .ok (res, t)) :
    (res ≠ 0 ↔ va < (s.proc i).sz ∧ has (pte s.mem r (va / PGSIZE)) PTE_V = false) ∧ SameProcs s t := by
  refine ⟨?_, paged_procs.vmfault i r va s res t hrun⟩
  rw [vmfault, run_bind (run_gets _)] at hrun
  split_ifs at hrun with hsz
  · exact iff_of_false (not_not.mpr (pure_ok.mp hrun).1) fun hlt => absurd hlt.1 (not_lt.mpr hsz)
  rw [run_bind (ismapped_run (PGROUNDDOWN_lt.mpr hva)), PGROUNDDOWN_div] at hrun
  split_ifs at hrun with hV
  · refine iff_of_false (not_not.mpr (pure_ok.mp hrun).1) fun hno => ?_
    rw [hV] at hno
    cases hno.2
  · have hno := eq_false_of_ne_true hV
    have hpages := hfree (not_le.mp hsz) hno
    refine iff_of_true ?_ ⟨not_le.mp hsz, hno⟩
    simp only [bind_ok] at hrun
    obtain ⟨mem, s₁, halloc, hrun⟩ := hrun
    obtain ⟨p, rfl, hne, hlen⟩ := kalloc_paid h (by omega) halloc
    simp only [bind_ok, memset_ok] at hrun
    obtain ⟨_, s₂, hs₂, c, s₃, hmap, hrun⟩ := hrun
    have hlen₂ : s₂.freelist.length = s₁.freelist.length := by rw [hs₂]
    rw [mappages_paid (by omega) hmap, if_neg (by decide)] at hrun
    rw [(pure_ok.mp hrun).1]
    exact hne

/-! ## Who is killed -/

def fault_entry (s : Kernel) (i va : Nat) : Pte := pte s.mem (s.proc i).pagetable (va / PGSIZE)

/-- The page lies below the size and was never allocated. -/
def Unallocated (s : Kernel) (i va : Nat) : Prop :=
  va < (s.proc i).sz ∧ has (fault_entry s i va) PTE_V = false ∧ has (fault_entry s i va) PTE_SWAPPED = false

instance (s : Kernel) (i va : Nat) : Decidable (Unallocated s i va) := inferInstanceAs (Decidable (_ ∧ _))

/-- With so many free pages the handler never looks for a page to swap out. -/
def fault_pages (s : Kernel) (i scause va : Nat) : Nat :=
  if has (fault_entry s i va) PTE_SWAPPED then 1
  else if scause = 15 ∧ has (fault_entry s i va) PTE_V ∧ has (fault_entry s i va) PTE_COW then 1
  else if Unallocated s i va then 3
  else 0

structure Handled (i : Nat) (kill : Prop) (s t : Kernel) : Prop where
  init : t.initproc = s.initproc
  killed : (t.proc i).killed = true ↔ (s.proc i).killed = true ∨ kill

omit [Image] in
theorem Handled.of_run {b : Prop} [Decidable b] {w : Kernel}
    (hrun : (if b then setkilled i else pure () : K Unit) t = .ok (u, w)) (hp : t.proc = s.proc)
    (hinit : t.initproc = s.initproc) (hb : b ↔ kill) : Handled i kill s w := by
  split_ifs at hrun with hpos
  · rw [setkilled, modifyProc_ok] at hrun
    rw [hrun]
    exact ⟨hinit, by simp [hb.mp hpos]⟩
  · rw [(pure_ok.mp hrun).2]
    refine ⟨hinit, ?_⟩
    rw [hp, or_iff_left (mt hb.mpr hpos)]

theorem bumped_does {f : MemStats → MemStats} (hrun : bump f s = .ok (u, t)) (h : Good n₀ L s C)
    (hz : Z → Slots (roots s.proc) s) (hf : ∀ m, (f m).swap_outs = m.swap_outs) :
    Does n₀ L Z C i s t ∧ t = { s with stats := f s.stats } :=
  (bump_does (E := fun _ => True) h hz hf).of_ok hrun

section handled
variable (h : Good n₀ L s C) (hz : Z → Slots (roots s.proc) s) (hva : va < MAXVA)
include h hz

theorem swapped_fault_handled (hS : has (fault_entry s i va) PTE_SWAPPED = true) (hfree : 0 < s.freelist.length)
    (hrun : swapped_fault i va s = .ok (u, t)) : Handled i False s t := by
  rw [swapped_fault, memstats_inc_swap_in, bind_ok] at hrun
  obtain ⟨_, s₁, hbump, hrun⟩ := hrun
  obtain ⟨hdoes, rfl⟩ := bumped_does (i := i) hbump h hz fun _ => rfl
  rw [getProc, run_bind (run_gets _), bind_ok] at hrun
  obtain ⟨res, s₂, hin, hrun⟩ := hrun
  obtain ⟨hne, hsame⟩ := swapin_paid (hdoes.good.sane hdoes.swapped) hS hfree hin
  exact .of_run hrun hsame.proc hsame.init (iff_of_false hne id)

theorem cow_store_fault_handled (hV : has (fault_entry s i va) PTE_V = true)
    (hC : has (fault_entry s i va) PTE_COW = true) (hfree : 0 < s.freelist.length)
    (hrun : cow_store_fault i va s = .ok (u, t)) : Handled i False s t := by
  rw [cow_store_fault, memstats_inc_cow_fault, bind_ok] at hrun
  obtain ⟨_, s₁, hbump, hrun⟩ := hrun
  obtain ⟨hdoes, rfl⟩ := bumped_does (i := i) hbump h hz fun _ => rfl
  rw [getProc, run_bind (run_gets _), bind_ok] at hrun
  obtain ⟨res, s₂, hcow, hrun⟩ := hrun
  obtain ⟨hzero, hsame⟩ := cowfault_paid (hdoes.good.sane hdoes.swapped) hV hC hfree hcow
  exact .of_run hrun hsame.proc hsame.init (iff_of_false (not_not.mpr hzero) id)

include hva

/-- A `vmfault` that finds a page is what kills the process. -/
theorem lazy_fault_handled (hS : has (fault_entry s i va) PTE_SWAPPED = false)
    (hfree : Unallocated s i va → 3 ≤ s.freelist.length) (hrun : lazy_fault i va s = .ok (u, t)) :
    Handled i (Unallocated s i va) s t := by
  rw [lazy_fault, getProc, run_bind (run_gets _), memstats_inc_lazy_alloc, bind_ok] at hrun
  obtain ⟨res, s₁, hfault, hrun⟩ := hrun
  obtain ⟨hne, hsame⟩ := vmfault_paid (h.sane hz) hva (fun hlt hV => hfree ⟨hlt, hV, hS⟩) hfault
  rw [bump, run_bind (run_update _)] at hrun
  refine .of_run hrun hsame.proc hsame.init (hne.trans ⟨fun hno => ?_, fun hno => ?_⟩)
  · exact ⟨hno.1, hno.2, hS⟩
  · exact ⟨hno.1, hno.2.1⟩

theorem handler_handled (hs : scause = 15 ∨ scause = 13) (hfree : fault_pages s i scause va ≤ s.freelist.length)
    (hrun : (if scause = 15 then store_fault i va else load_fault i va) s = .ok (u, t)) :
    Handled i (Unallocated s i va) s t := by
  have hbumped : ∀ {w b}, Handled i (Unallocated s i va) s w → memstats_inc_page_fault b w = .ok (u, t) →
      Handled i (Unallocated s i va) s t := by
    intro w b hh hbump
    rw [memstats_inc_page_fault, bump, update_ok] at hbump
    rw [hbump]
    exact ⟨hh.init, hh.killed⟩
  have hspared : ∀ {w}, Handled i False s w → has (fault_entry s i va) PTE_V = true ∨
      has (fault_entry s i va) PTE_SWAPPED = true → Handled i (Unallocated s i va) s w := by
    intro w hh hno
    refine ⟨hh.init, hh.killed.trans (or_congr_right (iff_of_false id fun hun => ?_))⟩
    rcases hno with hno | hno
    · rw [hun.2.1] at hno
      cases hno
    · rw [hun.2.2] at hno
      cases hno
  have hentry : fault_pte (s.proc i).pagetable va s = .ok (fault_entry s i va, s) := fault_pte_run hva
  unfold fault_pages at hfree
  rcases hs with rfl | rfl
  · rw [if_pos rfl, store_fault, store_handler, bind_ok] at hrun
    obtain ⟨_, w, hhandle, hbump⟩ := hrun
    refine hbumped ?_ hbump
    rw [getProc, run_bind (run_gets _), run_bind hentry] at hhandle
    split_ifs at hhandle with hS hcow
    · rw [if_pos hS] at hfree
      exact hspared (swapped_fault_handled h hz hS hfree hhandle) (.inr hS)
    · rw [if_neg hS, if_pos ⟨rfl, hcow⟩] at hfree
      exact hspared (cow_store_fault_handled h hz hcow.1 hcow.2 hfree hhandle) (.inl hcow.1)
    · rw [if_neg hS, if_neg fun hc => hcow hc.2] at hfree
      exact lazy_fault_handled h hz hva (eq_false_of_ne_true hS) (fun hun => by rwa [if_pos hun] at hfree) hhandle
  · rw [if_neg (by decide), load_fault, load_handler, bind_ok] at hrun
    obtain ⟨_, w, hhandle, hbump⟩ := hrun
    refine hbumped ?_ hbump
    rw [getProc, run_bind (run_gets _), run_bind hentry] at hhandle
    split_ifs at hhandle with hS
    · rw [if_pos hS] at hfree
      exact hspared (swapped_fault_handled h hz hS hfree hhandle) (.inr hS)
    · rw [if_neg hS, if_neg (by simp)] at hfree
      exact lazy_fault_handled h hz hva (eq_false_of_ne_true hS) (fun hun => by rwa [if_pos hun] at hfree) hhandle

end handled

theorem dispatch_handled (h : Good n₀ L s C) (hz : Z → Slots (roots s.proc) s) (hi : i < NPROC)
    (hu : (s.proc i).state ≠ .UNUSED) (hs : scause = 15 ∨ scause = 13) (hva : stval < MAXVA)
    (hfree : fault_pages s i scause stval ≤ s.freelist.length)
    (hrun : trap_dispatch (pure ()) i scause stval sepc s = .ok (u, t)) : Handled i (Unallocated s i stval) s t := by
  rw [trap_dispatch, getProc, run_bind (run_gets _), bind_ok] at hrun
  obtain ⟨_, s₁, hepc, hrun⟩ := hrun
  obtain ⟨hdoes, hp, hoff, -⟩ := epc_does h hz hi hu hepc
  rw [store64_ok] at hepc
  have hentry : fault_entry s₁ i stval = fault_entry s i stval := by
    rw [fault_entry, fault_entry, hp, hoff.pte (h.root_mem hi hu)]
  have hun : Unallocated s₁ i stval ↔ Unallocated s i stval := by
    rw [Unallocated, Unallocated, hentry, hp]
  have hpages : fault_pages s₁ i scause stval ≤ s₁.freelist.length := by
    simp only [fault_pages, hentry, hun] at hfree ⊢
    rw [hepc]
    exact hfree
  have hrun' : (if scause = 15 then store_fault i stval else load_fault i stval) s₁ = .ok (u, t) := by
    rcases hs with rfl | rfl <;> exact hrun
  have hh := handler_handled hdoes.good hdoes.swapped hva hs hpages hrun'
  refine ⟨hh.init.trans (by rw [hepc]), hh.killed.trans ?_⟩
  rw [hp, hun]

/-! ## Panics -/

omit [Image] in
theorem kexit_error_iff {status : Int} : (∃ msg, kexit i status s = .error msg) ↔ s.initproc = some i := by
  rw [kexit, run_bind (run_gets _)]
  split
  · rename_i hinit
    exact iff_of_true ⟨_, rfl⟩ hinit
  · rename_i hinit
    refine iff_of_false ?_ hinit
    rintro ⟨msg, hmsg⟩
    cases hmsg

theorem dispatch_error_iff (h : Good 0 False s C) (hz : Slots (roots s.proc) s) (hi : i < NPROC)
    (hu : (s.proc i).state ≠ .UNUSED) (hs : scause = 15 ∨ scause = 13) :
    (∃ msg, trap_dispatch (pure ()) i scause stval sepc s = .error msg) ↔ MAXVA ≤ stval := by
  refine ⟨?_, fun hva => ⟨"walk", dispatch_error hs hva⟩⟩
  rintro ⟨msg, hmsg⟩
  by_contra hva
  have hstray : Stray True msg := (trap_dispatch_does h (fun _ => hz) hi hu (fun _ => id) False.elim
    (fun _ hge => absurd hge hva) (by omega)).of_error hmsg
  exact hstray.1 trivial

omit [Image] in
theorem return_error_iff : (∃ msg, (do
      let k ← killed i
      if k then do
        kexit i (-1)
        pure none
      else do
        let p ← getProc i
        pure (some (SATP_SV39 + p.pagetable / PGSIZE)) : K (Option Nat)) t = .error msg) ↔
    t.initproc = some i ∧ (t.proc i).killed = true := by
  rw [killed, run_bind (run_gets _)]
  cases hk : (t.proc i).killed with
  | false => simp [getProc, run_bind (run_gets _), pure_error]
  | true =>
    rw [if_pos rfl]
    cases hexit : kexit i (-1) t with
    | error msg =>
      have hinit := kexit_error_iff.mp ⟨msg, hexit⟩
      exact iff_of_true ⟨msg, run_bind_error hexit⟩ ⟨hinit, rfl⟩
    | ok res =>
      have hinit : t.initproc ≠ some i := by
        rw [Ne, ← @kexit_error_iff t i (-1), hexit]
        simp
      refine iff_of_false ?_ fun h => hinit h.1
      rw [run_bind hexit]
      simp [pure_error]

def lazyRun : List Action :=
  forkRun ++ [.schedule 1 .RUNNING, .call 0 (.sbrk PGSIZE SBRK_LAZY),
    .call 1 (.sbrk PGSIZE SBRK_LAZY)]

end Xv6
