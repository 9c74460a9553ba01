import Xv6.Pressure
import Xv6.Shape

/-!
# Page entries and pages under swapping

What an entry is after `swapout` and after the `swapin` that follows, and when the page that
`select_victim_page` writes to disk gives `kalloc` a page.
-/

open Xv6.Lib Op Radix

namespace Xv6

variable [Image] {n₀ n₁ : Nat} {L L' : Prop} {s t u w : Kernel} {T H T' H' : Finset Nat} {r v va i k n pa P : Nat}
  {E : String → Prop}

/-! ## The entry -/

def permissions : List Pte := [PTE_R, PTE_W, PTE_X, PTE_U]

omit [Image] in
theorem has_inPte_swapblock {f : Pte} (hf : f ∈ permissions) : has (inPte (swapblock_to_pte k) pa) f = false := by
  simp only [permissions, List.mem_cons, List.not_mem_nil, or_false] at hf
  have hsmall : Small f ∧ PTE_SWAPPED &&& f = 0#64 ∧ has PTE_V f = false := by
    rcases hf with rfl | rfl | rfl | rfl <;> decide
  obtain ⟨hsmall, hne, hV⟩ := hsmall
  rw [has_or, has_or, has_PA2PTE pa hsmall, hV, has_and_not (by rw [BitVec.and_comm]; exact hne)]
  show (false || has (PTE_FLAGS _) f || false) = false
  rw [has_FLAGS _ hsmall, small_of_swapblock k hsmall hne]
  rfl

/-- The entry after `swapout` names the block and nothing else; the entry after a later `swapin` names the new page,
and has the permissions of the first entry exactly if that had none. -/
theorem swap_entry_iff (h : Inv n₀ L s T H) (hr : r ∈ T) (hout : swapout r va s = .ok (0, t))
    (h' : Inv n₁ L' u T' H') (hin : ProcsIn u T') (hr' : r ∈ T')
    (hsame : pte u.mem r (va / PGSIZE) = pte t.mem r (va / PGSIZE)) (hback : swapin r va u = .ok (pa, w))
    (hpa : pa ≠ 0) :
    (∃ k < SWAP_MAX_BLOCKS, has (pte t.mem r (va / PGSIZE)) PTE_V = false ∧
      has (pte t.mem r (va / PGSIZE)) PTE_SWAPPED = true ∧ pte_to_swapblock (pte t.mem r (va / PGSIZE)) = k ∧
      inuse s.swap k = false ∧ inuse t.swap k = true) ∧
    has (pte w.mem r (va / PGSIZE)) PTE_V = true ∧ PTE2PA (pte w.mem r (va / PGSIZE)) = pa ∧
    ((∀ f ∈ permissions, has (pte w.mem r (va / PGSIZE)) f = has (pte s.mem r (va / PGSIZE)) f) ↔
      ∀ f ∈ permissions, has (pte s.mem r (va / PGSIZE)) f = false) := by
  rcases swapout_spec h hr hout with ⟨h0, -⟩ | ⟨-, hevict, -⟩
  · cases h0
  obtain ⟨k, hset, hspare, hsw⟩ := hevict.set
  have hself : pte t.mem r (va / PGSIZE) = swapblock_to_pte k := hset.self hr (hevict.user.trans UPAGES_lt)
  rcases swapin_spec h' hin hr' hback with ⟨h0, -⟩ | ⟨hpage, -, -, -, hnew⟩
  · exact absurd h0 hpa
  rw [hsame, hself] at hnew
  rw [hself, hnew]
  refine ⟨⟨k, hspare.lt, small_of_swapblock k small_V (by decide), swapped_swapblock k,
    pte_to_swapblock_to_pte hspare.lt, hspare.free, ?_⟩, ?_, ?_, ?_⟩
  · rw [hsw, inuse_mark]
    simp
  · rw [has_or, Bool.or_eq_true]
    exact .inr (by decide)
  · have hsmall : Small (swapblock_to_pte k &&& 0x3FF#64 &&& ~~~PTE_SWAPPED) := (small_flags _).and
    rw [PTE2PA_or small_V, PTE2PA_or hsmall, PTE2PA_PA2PTE hpage.aligned hpage.small]
  · refine ⟨fun hall f hf => ?_, fun hall f hf => ?_⟩
    · rw [← hall f hf, has_inPte_swapblock hf]
    · rw [has_inPte_swapblock hf, hall f hf]

section
omit [Image]

theorem swapped_and_back : ∃ (y y' : System) (w : Kernel) (pa r : Nat), @run smallImage storeRun bootSystem = some y ∧
    r = (y.kernel.proc 0).pagetable ∧ r ≠ 0 ∧ @swapout smallImage r 0 y.kernel = .ok (0, y'.kernel) ∧
    @step smallImage y (.call 0 (.swapout 0)) = some y' ∧ (y'.kernel.proc 0).pagetable = r ∧
    @swapin smallImage r 0 y'.kernel = .ok (pa, w) ∧ pa ≠ 0 ∧
    has (pte y.kernel.mem r 0) PTE_U = true ∧ has (pte w.mem r 0) PTE_U = false := by
  have heval : ((@run smallImage storeRun bootSystem).bind fun y =>
      (@swapout smallImage (y.kernel.proc 0).pagetable 0 y.kernel).toOption.bind fun x₁ =>
      (@swapin smallImage (y.kernel.proc 0).pagetable 0 x₁.2).toOption.map fun x₂ => decide
        ((y.kernel.proc 0).pagetable ≠ 0 ∧ (y.kernel.proc 0).state = .RUNNING ∧ x₁.1 = 0 ∧
          (x₁.2.proc 0).pagetable = (y.kernel.proc 0).pagetable ∧ x₂.1 ≠ 0 ∧
          has (pte y.kernel.mem (y.kernel.proc 0).pagetable 0) PTE_U = true ∧
          has (pte x₂.2.mem (y.kernel.proc 0).pagetable 0) PTE_U = false)) = some true := by decide +kernel
  obtain ⟨y, hy, heval⟩ := Option.bind_eq_some_iff.mp heval
  obtain ⟨⟨_, s₁⟩, h₁, heval⟩ := Option.bind_eq_some_iff.mp heval
  obtain ⟨⟨pa, s₂⟩, h₂, hval⟩ := Option.map_eq_some_iff.mp heval
  rw [toOption_eq_some] at h₁ h₂
  obtain ⟨hroot, hrunning, rfl, hproc, hpa, hold, hnew⟩ := of_decide_eq_true hval
  refine ⟨y, { y with kernel := s₁ }, s₂, pa, _, hy, rfl, hroot, h₁, ?_, hproc, h₂, hpa, hold, hnew⟩
  have hcall : @perform smallImage 0 (.swapout 0) y.kernel = .ok ((), s₁) :=
    (run_bind (run_gets _)).trans ((run_bind h₁).trans rfl)
  simp [step, hrunning, System.lift, hcall, NPROC]

theorem swap_entry_iff_back : ∃ (y y' : System) (w : Kernel) (pa r : Nat), @run smallImage storeRun bootSystem = some y ∧
    @swapout smallImage r 0 y.kernel = .ok (0, y'.kernel) ∧ @swapin smallImage r 0 y'.kernel = .ok (pa, w) ∧
    PTE2PA (pte w.mem r 0) = pa ∧
    ((∀ f ∈ permissions, has (pte w.mem r 0) f = has (pte y.kernel.mem r 0) f) ↔
      ∀ f ∈ permissions, has (pte y.kernel.mem r 0) f = false) := by
  obtain ⟨y, y', w, pa, r, hy, hr, h0, hout, hstep, hr', hback, hpa, -, -⟩ := swapped_and_back
  let : Image := smallImage
  have hg := bootSystem_booted.run_good hy
  have hg' := (step_good hg False.elim (.inl (Nat.zero_le _)) hstep).1
  have hmem : r ∈ roots y.kernel.proc := mem_addrs.mpr ⟨h0, 0, by decide, hr.symm⟩
  have hmem' : r ∈ roots y'.kernel.proc := mem_addrs.mpr ⟨h0, 0, by decide, hr'⟩
  obtain ⟨-, -, hpage, hiff⟩ := swap_entry_iff hg.inv hmem hout hg'.inv hg'.procsIn hmem' rfl hback hpa
  exact ⟨y, y', w, pa, r, hy, hout, hback, hpage, hiff⟩

theorem swapin_drops_permissions : ∃ (y y' : System) (w : Kernel) (pa r : Nat), @run smallImage storeRun bootSystem = some y ∧
    @swapout smallImage r 0 y.kernel = .ok (0, y'.kernel) ∧ @swapin smallImage r 0 y'.kernel = .ok (pa, w) ∧
    pa ≠ 0 ∧ has (pte y.kernel.mem r 0) PTE_U = true ∧ has (pte w.mem r 0) PTE_U = false := by
  obtain ⟨y, y', w, pa, r, hy, -, -, hout, -, -, hback, hpa, hold, hnew⟩ := swapped_and_back
  exact ⟨y, y', w, pa, r, hy, hout, hback, hpa, hold, hnew⟩

/-! ## The victim -/

/-- A page of process `i` that `select_victim_page` may write to disk. -/
structure Candidate (s : Kernel) (i v : Nat) : Prop where
  lt : i < NPROC
  used : (s.proc i).state ≠ .UNUSED
  root : (s.proc i).pagetable ≠ 0
  below : v < npages (s.proc i).sz
  evictable : Evictable (pte s.mem (s.proc i).pagetable v)

structure First (s : Kernel) (i v : Nat) : Prop extends Candidate s i v where
  process : ∀ j < i, ∀ w, ¬ Candidate s j w
  page : ∀ w < v, ¬ Candidate s i w

def victim_page (s : Kernel) (i v : Nat) : Nat := PTE2PA (pte s.mem (s.proc i).pagetable v)

theorem Candidate.first (h : Candidate s i v) : ∃ j w, First s j w := by
  classical
  have hproc : ∃ j w, Candidate s j w := ⟨i, v, h⟩
  have hpage := Nat.find_spec hproc
  exact ⟨Nat.find hproc, Nat.find hpage, Nat.find_spec hpage,
    fun j hj w hw => Nat.find_min hproc hj ⟨w, hw⟩, fun w hw hc => Nat.find_min hpage hw hc⟩

theorem First.unique {j w : Nat} (h : First s i v) (h' : First s j w) : i = j ∧ v = w := by
  obtain rfl : i = j := by
    rcases Nat.lt_trichotomy i j with hlt | heq | hgt
    · exact absurd h.toCandidate (h'.process i hlt v)
    · exact heq
    · exact absurd h'.toCandidate (h.process j hgt w)
  refine ⟨rfl, ?_⟩
  rcases Nat.lt_trichotomy v w with hlt | heq | hgt
  · exact absurd h.toCandidate (h'.page v hlt)
  · exact heq
  · exact absurd h'.toCandidate (h.page w hgt)

def Took (P : Nat) (s t : Kernel) : Prop :=
  Page P ∧ 0 < refs s P ∧ t.freelist = if refs s P = 1 then P :: s.freelist else s.freelist

theorem swapalloc_takes (hslot : ∃ k, s.swap.Spare k) :
    Ends swapalloc s (fun res t => ∃ k, res = some k ∧ t = { s with swap := s.swap.mark k }) E := by
  refine swapalloc_safe.ends fun res t halloc => ?_
  obtain ⟨k, hk⟩ := hslot
  rcases swapalloc_ok halloc with ⟨rfl, -⟩ | ⟨j, rfl, -, rfl⟩
  · unfold swapalloc at halloc
    rw [run_bind (run_gets _), if_neg hk.some] at halloc
    cases hfind : (List.range SWAP_MAX_BLOCKS).find? fun i => !inuse s.swap i with
    | none =>
      have hall := List.find?_eq_none.mp hfind k (List.mem_range.mpr hk.lt)
      simp [hk.free] at hall
    | some j =>
      rw [hfind] at halloc
      dsimp only at halloc
      rw [run_bind (run_update _)] at halloc
      cases halloc
  · exact ⟨j, rfl, rfl⟩

end

theorem kfree_takes (hc : u.count = s.count) (hf : u.freelist = s.freelist) :
    Ends (kfree P) u (fun _ t => Took P s t) (fun _ => ¬ (Page P ∧ 0 < refs s P)) := by
  have hrefs : refs u P = refs s P := by
    unfold refs
    rw [hc]
  by_cases hP : Page P ∧ 0 < refs u P
  · refine (ends_of_run (kfree_run hP.1 hP.2)).mpr ⟨hP.1, hrefs ▸ hP.2, ?_⟩
    rw [freed_freelist, hrefs, hf]
  · rw [← hrefs]
    cases hrun : kfree P u with
    | error msg => exact (ends_of_error hrun).mpr hP
    | ok res =>
      obtain ⟨hpage, hpos, -⟩ := kfree_ok hrun
      exact absurd ⟨hpage, hpos⟩ hP

/-- A call that takes the page `P` and returns `a`, or stops where `kfree` does not take the page. -/
def Takes {α : Type} (x : K α) (P : Nat) (a : α) (s : Kernel) : Prop :=
  Ends x s (fun res t => res = a ∧ Took P s t) (fun _ => ¬ (Page P ∧ 0 < refs s P))

theorem swapout_takes (hva : va < MAXVA) (he : Evictable (pte s.mem r (va / PGSIZE)))
    (hslot : ∃ k, s.swap.Spare k) : Takes (swapout r va) (PTE2PA (pte s.mem r (va / PGSIZE))) 0 s := by
  obtain ⟨hV, hU, hC⟩ := he
  unfold Takes swapout swapout_with
  rw [ends_bind, ends_of_run (walk0_run (PGROUNDDOWN_lt.mpr hva)), low_down, PGROUNDDOWN_div]
  cases hlow : low s.mem r va with
  | none =>
    rw [pte_of_low_none hlow, has_zero] at hV
    cases hV
  | some q =>
    rw [Option.map_some]
    dsimp only
    rw [ends_bind, load64, ends_gets, pte_of_low hlow, if_neg (by simp [hV]), if_neg (by simp [hC]),
      if_neg (by simp [hU]), ends_bind]
    refine (swapalloc_takes hslot).mono ?_
    rintro _ _ ⟨k, rfl, rfl⟩
    simp only [ends_bind, bread, ends_gets, ends_pure, move_to_buf, bwrite, store64, ends_update,
      memstats_inc_swap_out, ends_bump]
    exact (kfree_takes (by rfl) (by rfl)).mono fun _ t ht => ⟨trivial, ht⟩

theorem victim_loop_skip (hva : va < MAXVA) (hno : ¬ Evictable (pte s.mem r (va / PGSIZE))) :
    victim_loop r (n + 1) va s = victim_loop r n (va + PGSIZE) s := by
  rw [victim_loop, victim_loop_with, run_bind (walk0_run hva)]
  cases hlow : low s.mem r va with
  | none => rfl
  | some q =>
    dsimp only [Option.map_some]
    rw [load64, run_bind (run_gets _), pte_of_low hlow, if_neg]
    intro he
    exact hno ⟨he.1, he.2.1, by simpa using he.2.2⟩

theorem victim_loop_take (hva : va < MAXVA) (he : Evictable (pte s.mem r (va / PGSIZE)))
    (hslot : ∃ k, s.swap.Spare k) : Takes (victim_loop r (n + 1) va) (PTE2PA (pte s.mem r (va / PGSIZE))) true s := by
  have htake := swapout_takes hva he hslot
  obtain ⟨hV, hU, hC⟩ := he
  rw [Takes, victim_loop, victim_loop_with, ends_bind, ends_of_run (walk0_run hva)]
  cases hlow : low s.mem r va with
  | none =>
    rw [pte_of_low_none hlow, has_zero] at hV
    cases hV
  | some q =>
    dsimp only [Option.map_some]
    rw [ends_bind, load64, ends_gets, pte_of_low hlow, if_pos ⟨hV, hU, by simp [hC]⟩, ends_bind]
    refine htake.mono ?_
    rintro _ t ⟨rfl, ht⟩
    exact ⟨rfl, ht⟩

omit [Image] in
theorem page_lt (h : va + (n + 1) * PGSIZE ≤ MAXVA) : va < MAXVA ∧ va + PGSIZE + n * PGSIZE ≤ MAXVA := by
  simp only [PGSIZE] at *
  omega

theorem victim_loop_none (hn : va + n * PGSIZE ≤ MAXVA)
    (hno : ∀ v, va / PGSIZE ≤ v → v < va / PGSIZE + n → ¬ Evictable (pte s.mem r v)) :
    victim_loop r n va s = .ok (false, s) := by
  induction n generalizing va with
  | zero => rfl
  | succ n ih =>
    obtain ⟨hva, hrest⟩ := page_lt hn
    rw [victim_loop_skip hva (hno _ (Nat.le_refl _) (by omega))]
    refine ih hrest fun v hle hlt => hno v ?_ ?_
    all_goals
      rw [next_page] at hle hlt
      omega

theorem victim_loop_first (hn : va + n * PGSIZE ≤ MAXVA) (hle : va / PGSIZE ≤ v) (hlt : v < va / PGSIZE + n)
    (he : Evictable (pte s.mem r v)) (hno : ∀ x, va / PGSIZE ≤ x → x < v → ¬ Evictable (pte s.mem r x))
    (hslot : ∃ k, s.swap.Spare k) : Takes (victim_loop r n va) (PTE2PA (pte s.mem r v)) true s := by
  induction n generalizing va with
  | zero => omega
  | succ n ih =>
    obtain ⟨hva, hrest⟩ := page_lt hn
    rcases hle.eq_or_lt with rfl | hlater
    · exact victim_loop_take hva he hslot
    · unfold Takes Ends
      rw [victim_loop_skip hva (hno _ (Nat.le_refl _) hlater)]
      refine ih hrest ?_ ?_ fun x hx => hno x ?_
      all_goals
        rw [next_page] at *
        omega

omit [Image] in
theorem pages_lt (hsz : Sized s) (hi : i < NPROC) : 0 + npages (s.proc i).sz * PGSIZE ≤ MAXVA := by
  have := hsz i hi
  simp only [npages, PGSIZE, TRAPFRAME, TRAMPOLINE, MAXVA] at *
  omega

theorem victim_scan_skip (hsz : Sized s) (hn : n + 1 ≤ NPROC) (hno : ∀ v, ¬ Candidate s (NPROC - (n + 1)) v) :
    victim_scan (n + 1) s = victim_scan n s := by
  have hi : NPROC - (n + 1) < NPROC := by omega
  rw [victim_scan, run_bind (run_gets _)]
  split_ifs with huse
  · refine run_bind (victim_loop_none (pages_lt hsz hi) fun v _ hlt he => ?_)
    rw [Nat.zero_div, Nat.zero_add] at hlt
    exact hno v ⟨hi, huse.1, huse.2, hlt, he⟩
  · rfl

theorem victim_scan_take (hsz : Sized s) (hfirst : First s (NPROC - (n + 1)) v)
    (hslot : ∃ k, s.swap.Spare k) : Takes (victim_scan (n + 1)) (victim_page s (NPROC - (n + 1)) v) 0 s := by
  have hc := hfirst.toCandidate
  rw [Takes, victim_scan, ends_bind, ends_gets, if_pos ⟨hc.used, hc.root⟩, ends_bind]
  refine (victim_loop_first (v := v) (pages_lt hsz hc.lt) (Nat.zero_le _) ?_ hc.evictable ?_ hslot).mono ?_
  · rw [Nat.zero_div, Nat.zero_add]
    exact hc.below
  · exact fun x _ hx he => hfirst.page x hx { hc with below := hx.trans hc.below, evictable := he }
  · rintro _ t ⟨rfl, ht⟩
    exact ⟨rfl, ht⟩

theorem victim_scan_first (hsz : Sized s) (hfirst : First s i v) (hslot : ∃ k, s.swap.Spare k) (hn : n ≤ NPROC)
    (hi : NPROC - n ≤ i) : Takes (victim_scan n) (victim_page s i v) 0 s := by
  induction n with
  | zero =>
    have := hfirst.lt
    omega
  | succ n ih =>
    rcases hi.eq_or_lt with rfl | hlater
    · exact victim_scan_take hsz hfirst hslot
    · unfold Takes Ends
      rw [victim_scan_skip hsz hn (hfirst.process _ hlater)]
      exact ih (by omega) (by omega)

omit [Image] in
theorem popfree_nil (hnil : s.freelist = []) : popfree s = .ok (none, s) := by
  rw [popfree, run_bind (run_gets _), hnil]
  rfl

omit [Image] in
theorem popfree_cons {rest : List Nat} (hcons : s.freelist = P :: rest) :
    popfree s = .ok (some P, { s with freelist := rest }) := by
  rw [popfree, run_bind (run_gets _), hcons]
  rfl

theorem kalloc_victim_ends (hnil : s.freelist = []) (hsel : select_victim_page s = .ok (0, t)) (hP : Page P)
    (hlist : t.freelist = [P]) : Ends kalloc s (fun res _ => res = some P) (fun _ => False) := by
  rw [kalloc, kalloc_with, ends_bind, ends_of_run (popfree_nil hnil)]
  dsimp only
  rw [ends_bind, ends_of_run hsel, if_pos rfl, ends_bind, ends_of_run (popfree_cons hlist)]
  dsimp only
  rw [ends_bind, memset, ends_update, ends_bind, ends_of_run (pageindex_run hP.kern hP.lt _), ends_bind,
    setcount, ends_update, ends_bind, memstats_inc_pages_allocated, ends_bump, ends_pure]

/-- With the free list empty and a block on disk free, `kalloc` returns a page exactly if the first page that the scan
comes to is not shared. -/
theorem kalloc_returns_iff (hsz : Sized s) (hnil : s.freelist = []) (hslot : ∃ k, s.swap.Spare k)
    (hc : ∃ i v, Candidate s i v ∧ refs s (victim_page s i v) = 1) :
    ((∃ p t, kalloc s = .ok (some p, t)) ↔
      ∀ i v, First s i v → Page (victim_page s i v) ∧ refs s (victim_page s i v) = 1) ∧
    ∀ t, select_victim_page s = .ok (0, t) →
      (t.freelist ≠ [] ↔ ∀ i v, First s i v → refs s (victim_page s i v) = 1) := by
  obtain ⟨_, _, hcand, -⟩ := hc
  obtain ⟨i, v, hfirst⟩ := hcand.first
  have htake : Takes select_victim_page (victim_page s i v) 0 s :=
    victim_scan_first hsz hfirst hslot (Nat.le_refl _) (by omega)
  have honly : ∀ {p : Nat → Nat → Prop}, (∀ j w, First s j w → p j w) ↔ p i v := by
    refine fun {p} => ⟨fun h => h i v hfirst, fun h j w hjw => ?_⟩
    obtain ⟨rfl, rfl⟩ := hfirst.unique hjw
    exact h
  rw [honly]
  refine ⟨⟨?_, ?_⟩, fun t hrun => ?_⟩
  · rintro ⟨p, t, halloc⟩
    rcases kalloc_ok halloc with ⟨_, _, hcons, -⟩ | ⟨-, res, t₁, hsel, ⟨-, hnone, -⟩ | ⟨rfl, _, _, hcons, -⟩⟩
    · rw [hnil] at hcons
      cases hcons
    · cases hnone
    · obtain ⟨-, hP, -, hlist⟩ := htake.of_ok hsel
      refine ⟨hP, ?_⟩
      by_contra hne
      rw [if_neg hne, hnil, hcons] at hlist
      cases hlist
  · rintro ⟨hP, hone⟩
    cases hsel : select_victim_page s with
    | error msg => exact absurd ⟨hP, by omega⟩ (htake.of_error hsel)
    | ok res =>
      obtain ⟨res, t⟩ := res
      obtain ⟨rfl, -, -, hlist⟩ := htake.of_ok hsel
      rw [if_pos hone, hnil] at hlist
      have hends := kalloc_victim_ends hnil hsel hP hlist
      cases halloc : kalloc s with
      | error msg => exact (hends.of_error halloc).elim
      | ok res =>
        obtain ⟨res, t'⟩ := res
        obtain rfl := hends.of_ok halloc
        exact ⟨_, t', rfl⟩
  · obtain ⟨-, hP, -, hlist⟩ := htake.of_ok hrun
    rw [honly, hlist]
    split_ifs with hone
    · simp [hone]
    · simp [hone, hnil]

def sharedRun : List Action :=
  [.userinit, .schedule 0 .RUNNING, .call 0 (.exec [] (some readOnlyProgram) []), .call 0 .fork,
    .call 0 (.sbrk PGSIZE SBRK_EAGER)]

omit [Image] in
theorem sharedRun_spec : ∃ (y : System) (s t : Kernel), @run smallImage sharedRun bootSystem = some y ∧
    y.kernel.freelist = [] ∧ y.kernel.swap.Spare 0 ∧ Candidate y.kernel 0 3 ∧
    refs y.kernel (victim_page y.kernel 0 3) = 1 ∧ @select_victim_page smallImage y.kernel = .ok (0, s) ∧
    s.freelist = [] ∧ @kalloc smallImage y.kernel = .ok (none, t) := by
  have heval : ((@run smallImage sharedRun bootSystem).bind fun y =>
      (@select_victim_page smallImage y.kernel).toOption.bind fun x =>
      (@kalloc smallImage y.kernel).toOption.map fun x' => decide
        (y.kernel.freelist = [] ∧ (0 < SWAP_MAX_BLOCKS ∧ inuse y.kernel.swap 0 = false ∧ y.kernel.swap.nfree ≠ 0) ∧
          ((y.kernel.proc 0).state ≠ .UNUSED ∧ (y.kernel.proc 0).pagetable ≠ 0 ∧ 3 < npages (y.kernel.proc 0).sz ∧
            has (pte y.kernel.mem (y.kernel.proc 0).pagetable 3) PTE_V = true ∧
            has (pte y.kernel.mem (y.kernel.proc 0).pagetable 3) PTE_U = true ∧
            has (pte y.kernel.mem (y.kernel.proc 0).pagetable 3) PTE_COW = false) ∧
          refs y.kernel (victim_page y.kernel 0 3) = 1 ∧ x.1 = 0 ∧ x.2.freelist = [] ∧ x'.1 = none)) = some true := by
    simp only [run, sharedRun, List.foldlM_cons, List.foldlM_nil, step, perform, kexec, proc_freepagetable, uvmfree,
      freewalk_eq]
    decide +kernel
  obtain ⟨y, hy, heval⟩ := Option.bind_eq_some_iff.mp heval
  obtain ⟨⟨_, s⟩, hs, heval⟩ := Option.bind_eq_some_iff.mp heval
  obtain ⟨⟨_, t⟩, ht, hval⟩ := Option.map_eq_some_iff.mp heval
  rw [toOption_eq_some] at hs ht
  obtain ⟨hnil, ⟨hlt, hfree, hsome⟩, ⟨hu, hroot, hbelow, hev⟩, hone, rfl, hnil', rfl⟩ := of_decide_eq_true hval
  exact ⟨y, s, t, hy, hnil, ⟨hlt, hfree, hsome⟩, ⟨by decide, hu, hroot, hbelow, hev⟩, hone, hs, hnil', ht⟩

omit [Image] in
theorem kalloc_returns_iff_shared : ∃ y, @run smallImage sharedRun bootSystem = some y ∧
    ((∃ p t, @kalloc smallImage y.kernel = .ok (some p, t)) ↔ ∀ i v, First y.kernel i v →
      @Page smallImage (victim_page y.kernel i v) ∧ refs y.kernel (victim_page y.kernel i v) = 1) := by
  obtain ⟨y, -, -, hy, hnil, hspare, hcand, hone, -⟩ := sharedRun_spec
  let : Image := smallImage
  have hg := bootSystem_booted.run_good hy
  exact ⟨y, hy, (kalloc_returns_iff hg.sized hnil ⟨0, hspare⟩ ⟨0, 3, hcand, hone⟩).1⟩

omit [Image] in
theorem kalloc_fails_beside_candidate : ∃ (y : System) (s t : Kernel), @run smallImage sharedRun bootSystem = some y ∧
    y.kernel.freelist = [] ∧ y.kernel.swap.Spare 0 ∧ Candidate y.kernel 0 3 ∧
    refs y.kernel (victim_page y.kernel 0 3) = 1 ∧ @select_victim_page smallImage y.kernel = .ok (0, s) ∧
    s.freelist = [] ∧ @kalloc smallImage y.kernel = .ok (none, t) := sharedRun_spec

end Xv6
