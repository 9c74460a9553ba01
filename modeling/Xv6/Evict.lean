import Xv6.Lib.Bitmap
import Xv6.Swap
import Xv6.Moves

/-!
# Allocation and the pages it evicts

`kalloc` takes the first free page, or evicts a user page and takes that. What this does to everything else is `Evolve`.
-/

open Xv6.Lib Op Radix

namespace Xv6

/-! ## What the small steps do -/

section primitives
variable {s s' : Kernel} {u : Unit} {a n i : Nat} {w : BitVec 64}

@[simp] theorem load64_ok : load64 a s = .ok (w, s') ↔ w = s.mem.load64 a ∧ s' = s := gets_ok _

@[simp] theorem store64_ok :
    store64 a w s = .ok (u, s') ↔ s' = { s with mem := s.mem.store64 a w } := update_ok _ _

@[simp] theorem memset_ok {c : Byte} :
    memset a c n s = .ok (u, s') ↔ s' = { s with mem := s.mem.fill a n c } := update_ok _ _

@[simp] theorem setcount_ok {c : Int} : setcount i c s = .ok (u, s') ↔
    s' = { s with count := fun j => if j = i then c else s.count j } := update_ok _ _

@[simp] theorem pushfree_ok :
    pushfree a s = .ok (u, s') ↔ s' = { s with freelist := a :: s.freelist } := update_ok _ _

@[simp] theorem bump_ok {f : MemStats → MemStats} :
    bump f s = .ok (u, s') ↔ s' = { s with stats := f s.stats } := update_ok _ _

@[simp] theorem pageindex_ok : pageindex a s = .ok (i, s') ↔
    (KERNBASE ≤ a ∧ a < PHYSTOP) ∧ i = (a - KERNBASE) / PGSIZE ∧ s' = s := by
  unfold pageindex
  split_ifs with h
  · simp only [panic_ok, false_iff]
    omega
  · simp only [pure_ok]
    constructor
    · intro h'
      exact ⟨by omega, h'⟩
    · exact And.right

end primitives

variable [Image] {n₀ : Nat} {L : Prop} {s s' t : Kernel} {T H : Finset Nat} {r v va p P : Nat}

omit [Image] in
theorem popfree_ok {res : Option Nat} : popfree s = .ok (res, s') →
    (s.freelist = [] ∧ res = none ∧ s' = s) ∨
      ∃ p rest, s.freelist = p :: rest ∧ res = some p ∧ s' = { s with freelist := rest } := by
  unfold popfree
  simp only [bind_ok, gets_ok]
  rintro ⟨l, t, ⟨rfl, rfl⟩, h⟩
  cases hl : t.freelist with
  | nil =>
    simp only [hl, pure_ok] at h
    exact .inl ⟨rfl, h⟩
  | cons p rest =>
    simp only [hl, bind_ok, update_ok, pure_ok] at h
    obtain ⟨_, s1, rfl, rfl, rfl⟩ := h
    exact .inr ⟨p, rest, rfl, rfl, rfl⟩

/-! ## Freeing a page -/

def freed (P : Nat) (s : Kernel) : Kernel :=
  let s₁ := { s with
    count := fun j => if j = (P - KERNBASE) / PGSIZE then refs s P - 1 else s.count j }
  if refs s P = 1 then { s₁ with
    stats := { s.stats with
      pages_freed := s.stats.pages_freed + 1
      current_pages :=
        if s.stats.current_pages > 0 then s.stats.current_pages - 1 else s.stats.current_pages }
    mem := s.mem.fill P PGSIZE 1
    freelist := P :: s.freelist }
  else s₁

omit [Image] in
theorem krefdec_ok {c : Int} (h : krefdec P s = .ok (c, s')) :
    (P % PGSIZE = 0 ∧ KERNBASE ≤ P ∧ P < PHYSTOP) ∧ 0 < refs s P ∧ c = refs s P - 1 ∧
      s' = { s with
        count := fun j => if j = (P - KERNBASE) / PGSIZE then refs s P - 1 else s.count j } := by
  unfold krefdec at h
  split_ifs at h with hbad
  · simp at h
  · simp only [bind_ok, pageindex_ok, gets_ok] at h
    obtain ⟨i, t, ⟨-, rfl, rfl⟩, n, t', ⟨rfl, rfl⟩, h⟩ := h
    split_ifs at h with hpos
    · simp at h
    · simp only [bind_ok, setcount_ok, pure_ok] at h
      obtain ⟨_, t', rfl, rfl, rfl⟩ := h
      exact ⟨by omega, by unfold refs; omega, rfl, rfl⟩

theorem kfree_ok {u : Unit} (h : kfree P s = .ok (u, s')) :
    Page P ∧ 0 < refs s P ∧ s' = freed P s := by
  unfold kfree at h
  split_ifs at h with hbad
  · simp at h
  · obtain ⟨hal, hge, hlt⟩ := not_or.mp hbad |>.imp_right not_or.mp
    have hP : Page P := ⟨not_not.mp hal, not_lt.mp hge, not_le.mp hlt⟩
    simp only [bind_ok] at h
    obtain ⟨c, t, hdec, h⟩ := h
    obtain ⟨-, hpos, rfl, rfl⟩ := krefdec_ok hdec
    split_ifs at h with hc
    · simp only [pure_ok] at h
      refine ⟨hP, hpos, ?_⟩
      rw [h.2, freed, if_neg (by omega)]
    · simp only [bind_ok, memstats_inc_pages_freed, bump_ok, memset_ok, pushfree_ok] at h
      obtain ⟨_, t₁, rfl, _, t₂, rfl, rfl⟩ := h
      refine ⟨hP, hpos, ?_⟩
      have h1 : refs s P = 1 := by omega
      simp only [freed, h1, if_true]

section freed

section
omit [Image]

@[simp] theorem freed_proc : (freed P s).proc = s.proc := by
  by_cases h1 : refs s P = 1 <;> simp only [freed, h1, if_true, if_false]

@[simp] theorem freed_swap_outs : (freed P s).stats.swap_outs = s.stats.swap_outs := by
  by_cases h1 : refs s P = 1 <;> simp only [freed, h1, if_true, if_false]

@[simp] theorem freed_swap : (freed P s).swap = s.swap := by
  by_cases h1 : refs s P = 1 <;> simp only [freed, h1, if_true, if_false]

@[simp] theorem freed_freelist :
    (freed P s).freelist = if refs s P = 1 then P :: s.freelist else s.freelist := by
  by_cases h1 : refs s P = 1 <;> simp only [freed, h1, if_true, if_false]

end

theorem freed_refs (hP : Page P) {Q : Nat} (hQ : Page Q) :
    refs (freed P s) Q = if Q = P then refs s Q - 1 else refs s Q := by
  have hcount : (freed P s).count =
      fun j => if j = (P - KERNBASE) / PGSIZE then refs s P - 1 else s.count j := by
    by_cases h1 : refs s P = 1 <;> simp only [freed, h1, if_true, if_false]
  rw [refs_setcount hP hcount hQ]
  split_ifs with hQP
  · rw [hQP]
  · rfl

omit [Image] in
theorem freed_on_page : OnPage P s.mem (freed P s).mem := by
  by_cases h1 : refs s P = 1
  · simp only [freed, h1, if_true]
    exact OnPage.fill s.mem P 1
  · simp only [freed, h1, if_false]
    exact OnPage.refl s.mem

omit [Image] in
theorem freed_mem_of_shared (h : refs s P ≠ 1) : (freed P s).mem = s.mem := by
  unfold freed
  rw [if_neg h]

theorem Inv.freed_off (h : Inv n₀ L s T H) (hr : r ∈ T) (hv : v < UPAGES)
    (hP : points (pte s.mem r v) = some P) {m : Mem}
    (hn : ∀ r ∈ T, ∀ n, node m r n = node s.mem r n) (ht : t.mem = m) (hc : refs t P = refs s P) :
    Off T m (freed P t).mem := by
  subst ht
  by_cases h1 : refs s P = 1
  · refine Off.of_page ?_ (h.page_leaf hr hv hP).aligned ?_ freed_on_page
    · intro r' hr' n p hp
      rw [hn r' hr'] at hp
      exact h.forest.aligned r' hr' n p hp
    · intro r' hr' n hp
      rw [hn r' hr'] at hp
      have := h.only_leaf hr hv hP h1.le (x := .table r' n) (by rw [goal_table hr', hp])
      cases this
  · rw [freed_mem_of_shared (by rwa [hc])]
    exact Off.refl _

end freed

theorem Inv.kfree_held (h : Inv n₀ L s T H) (hp : p ∈ H) {u : Unit}
    (hrun : kfree p s = .ok (u, s')) : Inv n₀ L s' T (H.erase p) := by
  obtain ⟨hP, -, rfl⟩ := kfree_ok hrun
  exact h.release hp freed_on_page (fun Q hQ => freed_refs hP hQ) freed_freelist freed_swap_outs

/-! ## Looking an entry up -/

section lookup

section
omit [Image]

theorem PX_hi (va : Nat) : PX 2 va = hi (va / PGSIZE) := by
  rw [PX_eq]
  simp only [hi, PGSIZE]
  omega

theorem PX_md (va : Nat) : PX 1 va = md (va / PGSIZE) := by
  rw [PX_eq]
  simp only [md, PGSIZE]
  omega

theorem PX_lo (va : Nat) : PX 0 va = lo (va / PGSIZE) := by
  rw [PX_eq]
  simp only [lo, PGSIZE]
  omega

theorem walk_level_none (level va : Nat) :
    walk_level none p level va s = .ok (points (s.mem.load64 (p + 8 * PX level va)), s) := by
  unfold walk_level load64
  rw [run_bind (run_gets _)]
  by_cases h : has (s.mem.load64 (p + 8 * PX level va)) PTE_V
  · simp only [h, if_true, points]
    rfl
  · simp only [h, points]
    rfl

abbrev low (m : Mem) (r va : Nat) : Option Nat :=
  node m r (.low (hi (va / PGSIZE)) (md (va / PGSIZE)))

theorem walk0_run (hva : va < MAXVA) :
    walk0 r va s = .ok ((low s.mem r va).map (· + 8 * (lo (va / PGSIZE) : Nat)), s) := by
  have hlow : low s.mem r va =
      (points (s.mem.load64 (r + 8 * PX 2 va))).bind fun p => points (s.mem.load64 (p + 8 * PX 1 va)) := by
    rw [PX_hi, PX_md]
    rfl
  unfold walk0 walk_with
  rw [if_neg (by omega), run_bind (walk_level_none 2 va), hlow]
  cases points (s.mem.load64 (r + 8 * PX 2 va)) with
  | none => rfl
  | some t1 =>
    simp only [Option.bind_some]
    rw [run_bind (walk_level_none 1 va)]
    cases points (s.mem.load64 (t1 + 8 * PX 1 va)) with
    | none => rfl
    | some t0 =>
      simp only [PX_lo]
      rfl

theorem walk0_error (hva : MAXVA ≤ va) : walk0 r va s = .error "walk" := by
  rw [walk0, walk_with, if_pos hva]
  rfl

theorem walk0_ok {res : Option Nat} (h : walk0 r va s = .ok (res, s')) :
    va < MAXVA ∧ s' = s ∧ res = (low s.mem r va).map (· + 8 * (lo (va / PGSIZE) : Nat)) := by
  by_cases hva : va < MAXVA
  · rw [walk0_run hva] at h
    cases h
    exact ⟨hva, rfl, rfl⟩
  · rw [walk0_error (not_lt.mp hva)] at h
    cases h

theorem pte_of_low {m : Mem} (h : low m r va = some p) :
    m.load64 (p + 8 * (lo (va / PGSIZE) : Nat)) = pte m r (va / PGSIZE) := (entry_some h).symm

theorem pte_of_low_none {m : Mem} (h : low m r va = none) : pte m r (va / PGSIZE) = 0#64 :=
  entry_none h

/-- A walk to an entry that is read. Where there is no table, the rest does as for an empty entry. -/
theorem entry_run {α : Type} {f : Option Nat → K α} (g : Pte → K α) (hva : va < MAXVA) (hnone : f none s = g 0#64 s)
    (hsome : ∀ a, f (some a) s = g (s.mem.load64 a) s) : (walk0 r va >>= f) s = g (pte s.mem r (va / PGSIZE)) s := by
  rw [run_bind (walk0_run hva)]
  cases hlow : low s.mem r va with
  | none => rw [pte_of_low_none hlow, Option.map_none, hnone]
  | some q => rw [← pte_of_low hlow, Option.map_some, hsome]

theorem page_number_lt (h : va < MAXVA) : va / PGSIZE < 512 ^ 3 := by
  simp only [MAXVA, PGSIZE] at *
  omega

theorem PGROUNDDOWN_div (va : Nat) : PGROUNDDOWN va / PGSIZE = va / PGSIZE := by
  simp only [PGROUNDDOWN, PGSIZE]
  omega

end

end lookup

/-! ## Swapping a page out -/

def Evictable (e : Pte) : Prop :=
  has e PTE_V = true ∧ has e PTE_U = true ∧ has e PTE_COW = false

section
omit [Image]

theorem small_of_swapblock {f : Pte} (k : Nat) (hf : Small f) (h : PTE_SWAPPED &&& f = 0#64) :
    has (swapblock_to_pte k) f = false := by
  have hzero : (BitVec.ofNat 64 k <<< 10) &&& f = 0#64 := by
    apply BitVec.eq_of_getLsbD_eq
    intro i hi
    rw [BitVec.getLsbD_and, BitVec.getLsbD_shiftLeft]
    by_cases h10 : i < 10
    · simp [h10]
    · have hbit : f.getLsbD i = false := hf.bit (by omega)
      simp [hbit]
  rw [swapblock_to_pte, has_or]
  simp [has, hzero, h]

theorem points_swapblock (k : Nat) : points (swapblock_to_pte k) = none :=
  points_none (small_of_swapblock k small_V (by decide))

def Swap.mark (sw : Swap) (k : Nat) : Swap := { inuse := Bitmap.set sw.inuse k, nfree := sw.nfree - 1 }

structure Swap.Spare (sw : Swap) (k : Nat) : Prop where
  lt : k < SWAP_MAX_BLOCKS
  free : Xv6.inuse sw k = false
  some : sw.nfree ≠ 0

/-- The page of the leaf `v` of `r` has been written to disk. -/
structure Evicted (T : Finset Nat) (s s' : Kernel) (r v : Nat) : Prop where
  proc : s'.proc = s.proc
  user : v < UPAGES
  was : Evictable (pte s.mem r v)
  set : ∃ k, LeafSet T s.mem s'.mem r v (swapblock_to_pte k) ∧ s.swap.Spare k ∧ s'.swap = s.swap.mark k
  swaps : s'.stats.swap_outs = s.stats.swap_outs + 1
  free : s'.freelist =
    if refs s (PTE2PA (pte s.mem r v)) = 1 then PTE2PA (pte s.mem r v) :: s.freelist else s.freelist
  counts : ∀ Q, Page Q → refs s' Q = if Q = PTE2PA (pte s.mem r v) then refs s Q - 1 else refs s Q
  frame : ∀ Q, Page Q → Q ≠ PTE2PA (pte s.mem r v) → (∀ n, node s.mem r n ≠ some Q) →
    ∀ k < PGSIZE, s'.mem (Q + k) = s.mem (Q + k)

theorem low_down (m : Mem) (r va : Nat) : low m r (PGROUNDDOWN va) = low m r va := by
  simp only [low, PGROUNDDOWN_div]

theorem PGROUNDDOWN_lt : PGROUNDDOWN va < MAXVA ↔ va < MAXVA := by
  simp only [PGROUNDDOWN, PGSIZE, MAXVA]
  omega

theorem swapalloc_ok {res : Option Nat} (h : swapalloc s = .ok (res, s')) :
    (res = none ∧ s' = s) ∨ ∃ k, res = some k ∧ s.swap.Spare k ∧ s' = { s with swap := s.swap.mark k } := by
  unfold swapalloc at h
  simp only [bind_ok, gets_ok] at h
  obtain ⟨sw, t, ⟨rfl, rfl⟩, h⟩ := h
  split_ifs at h with hfull
  · exact .inl (by simpa using h)
  · cases hfind : (List.range SWAP_MAX_BLOCKS).find? fun i => !inuse t.swap i with
    | none =>
      rw [hfind] at h
      exact .inl (by simpa using h)
    | some i =>
      rw [hfind] at h
      simp only [bind_ok, update_ok, pure_ok] at h
      obtain ⟨_, t', rfl, rfl, rfl⟩ := h
      have hlt : i < SWAP_MAX_BLOCKS := List.mem_range.mp (List.mem_of_find?_eq_some hfind)
      have hfree := List.find?_some hfind
      exact .inr ⟨i, rfl, ⟨hlt, by simpa using hfree, hfull⟩, rfl⟩

theorem bread_ok {n : Nat} {b : Buf} (h : bread n s = .ok (b, s')) :
    b = ⟨n, s.bufdata n⟩ ∧ s' = { s with
      bmem := fun x =>
        if s.bufdata n ≤ x ∧ x < s.bufdata n + BSIZE then s.disk n (x - s.bufdata n) else s.bmem x } := by
  simp only [bread, bind_ok, gets_ok, update_ok, pure_ok] at h
  obtain ⟨_, _, ⟨rfl, rfl⟩, _, _, rfl, rfl, rfl⟩ := h
  exact ⟨rfl, rfl⟩

theorem leafOk_swapblock (hv : v < UPAGES) (k : Nat) : LeafOk v (swapblock_to_pte k) := by
  rw [LeafOk, if_pos hv, small_of_swapblock k small_V (by decide),
    small_of_swapblock k small_COW (by decide)]
  simp

end

def paged_out (P k a : Nat) (sw : Swap) (s : Kernel) : Kernel :=
  let blockno := swapblock_to_diskblock k
  let data := s.bufdata blockno
  let moved : Mem := fun x =>
    if data ≤ x ∧ x < data + PGSIZE then s.mem (P + (x - data))
    else if data ≤ x ∧ x < data + BSIZE then s.disk blockno (x - data) else s.bmem x
  { s with
    swap := sw
    bmem := moved
    disk := fun n off => if n = blockno ∧ off < BSIZE then moved (data + off) else s.disk n off
    accesses := ⟨blockno, PGSIZE⟩ :: s.accesses
    mem := s.mem.store64 a (swapblock_to_pte k) }

theorem swapout_ok {res : Int} (h : swapout r va s = .ok (res, s')) :
    (res = -1 ∧ s' = s) ∨ res = 0 ∧ va < MAXVA ∧ ∃ q k, low s.mem r va = some q ∧ s.swap.Spare k ∧
      Evictable (pte s.mem r (va / PGSIZE)) ∧ Page (PTE2PA (pte s.mem r (va / PGSIZE))) ∧
      ∃ t, t = paged_out (PTE2PA (pte s.mem r (va / PGSIZE))) k (q + 8 * (lo (va / PGSIZE) : Nat))
          (s.swap.mark k) s ∧
        s' = { freed (PTE2PA (pte s.mem r (va / PGSIZE))) t with
          stats := { (freed (PTE2PA (pte s.mem r (va / PGSIZE))) t).stats with
            swap_outs := (freed (PTE2PA (pte s.mem r (va / PGSIZE))) t).stats.swap_outs + 1
            swap_blocks_used :=
              (freed (PTE2PA (pte s.mem r (va / PGSIZE))) t).stats.swap_blocks_used + 1 } } := by
  unfold swapout swapout_with at h
  simp only [bind_ok] at h
  obtain ⟨slot, t, hwalk, h⟩ := h
  obtain ⟨hva, rfl, rfl⟩ := walk0_ok hwalk
  rw [low_down, PGROUNDDOWN_div] at h
  rw [PGROUNDDOWN_lt] at hva
  cases hlow : low t.mem r va with
  | none =>
    simp only [hlow, Option.map_none, pure_ok] at h
    exact .inl h
  | some q =>
    simp only [hlow, Option.map_some, bind_ok, load64_ok] at h
    obtain ⟨e, t, ⟨rfl, rfl⟩, h⟩ := h
    rw [pte_of_low hlow] at h
    split_ifs at h with hV hC hU
    · exact .inl (by simpa using h)
    · exact .inl (by simpa using h)
    · exact .inl (by simpa using h)
    · simp only [bind_ok] at h
      obtain ⟨k, t₁, halloc, h⟩ := h
      rcases swapalloc_ok halloc with ⟨rfl, rfl⟩ | ⟨k, rfl, hspare, rfl⟩
      · exact .inl (by simpa using h)
      · simp only [bind_ok, move_to_buf, bwrite, update_ok, store64_ok, memstats_inc_swap_out,
          bump_ok, pure_ok] at h
        obtain ⟨b, t₁, hread, _, t₂, rfl, _, t₃, rfl, _, _, ⟨-, rfl⟩, _, t₄, ht₄, _, t₅, hfree, _, t₆, rfl, rfl, rfl⟩ := h
        obtain ⟨rfl, rfl⟩ := bread_ok hread
        obtain ⟨hP, -, rfl⟩ := kfree_ok hfree
        simp only [Bool.not_eq_true', Bool.not_eq_false] at hV hC hU
        exact .inr ⟨rfl, hva, q, k, rfl, hspare, ⟨hV, hU, by simpa using hC⟩, hP, t₄, ht₄, rfl⟩

theorem swapout_spec (h : Inv n₀ L s T H) (hr : r ∈ T) {res : Int}
    (hrun : swapout r va s = .ok (res, s')) :
    (res = -1 ∧ s' = s) ∨
      (res = 0 ∧ Evicted T s s' r (va / PGSIZE) ∧ Inv n₀ L s' T H) := by
  rcases swapout_ok hrun with hfail | ⟨rfl, hva, q, k, hlow, hspare, hwas, hP, t, ht, rfl⟩
  · exact .inl hfail
  · have hv := h.user_of_U hr (page_number_lt hva) hwas.2.1
    have hpts := points_some hwas.1
    have hmem : t.mem = s.mem.store64 (q + 8 * (lo (va / PGSIZE) : Nat)) (swapblock_to_pte k) := by
      rw [ht]
      rfl
    have hrefs : refs t = refs s := by rw [ht]; rfl
    have hlist : t.freelist = s.freelist := by rw [ht]; rfl
    have hset := leafSet_store h.forest hr (page_number_lt hva) hlow (swapblock_to_pte k)
    have hset' := hset.off (h.freed_off hr hv hpts hset.tables hmem (by rw [hrefs]))
    have hfl := freed_freelist (P := PTE2PA (pte s.mem r (va / PGSIZE))) (s := t)
    rw [hrefs, hlist] at hfl
    have hsw := freed_swap_outs (P := PTE2PA (pte s.mem r (va / PGSIZE))) (s := t)
    rw [show t.stats.swap_outs = s.stats.swap_outs by rw [ht]; rfl] at hsw
    have hcounts : ∀ Q, Page Q → refs (freed (PTE2PA (pte s.mem r (va / PGSIZE))) t) Q =
        if Q = PTE2PA (pte s.mem r (va / PGSIZE)) then refs s Q - 1 else refs s Q := by
      intro Q hQ
      rw [← hrefs]
      exact freed_refs hP hQ
    have hblocks : (freed (PTE2PA (pte s.mem r (va / PGSIZE))) t).swap = s.swap.mark k := by
      rw [freed_swap, ht]
      rfl
    refine .inr ⟨rfl, ⟨?_, hv, hwas, ⟨k, hset', hspare, hblocks⟩, ?_, hfl, hcounts, ?_⟩, ?_⟩
    · exact freed_proc.trans (by rw [ht]; rfl)
    · simp only [hsw]
    · intro Q hQ hne hno i hi
      have hq : Q ≠ q := fun he => hno _ (he ▸ hlow)
      rw [freed_on_page.bytes hQ hP hne hi, hmem]
      exact (store_on_page _ _).bytes hQ (h.page_table hr hlow) hq hi
    · refine h.drop_leaf hr hv hset' hpts (points_swapblock k) (leafOk_swapblock hv k) hcounts hfl ?_
      simp only [hsw]
      omega

/-! ## Looking for a victim -/

def npages (sz : Nat) : Nat := (sz + PGSIZE - 1) / PGSIZE

omit [Image] in
theorem next_page (a : Nat) : (a + PGSIZE) / PGSIZE = a / PGSIZE + 1 := by
  simp only [PGSIZE]
  omega

theorem victim_loop_ok (n : Nat) {found : Bool} (hrun : victim_loop r n va s = .ok (found, s')) :
    (found = false ∧ s' = s) ∨
      (found = true ∧ ∃ a, a / PGSIZE < va / PGSIZE + n ∧ swapout r a s = .ok (0, s')) := by
  induction n generalizing va with
  | zero =>
    simp only [victim_loop, victim_loop_with, pure_ok] at hrun
    exact .inl hrun
  | succ n ih =>
    replace ih := @ih (va + PGSIZE)
    rw [next_page, Nat.add_right_comm, Nat.add_assoc] at ih
    simp only [victim_loop, victim_loop_with, bind_ok] at hrun
    obtain ⟨slot, t, hwalk, hrun⟩ := hrun
    obtain ⟨-, rfl, rfl⟩ := walk0_ok hwalk
    cases hlow : low t.mem r va with
    | none =>
      simp only [hlow, Option.map_none] at hrun
      exact ih hrun
    | some q =>
      simp only [hlow, Option.map_some, bind_ok, load64_ok] at hrun
      obtain ⟨e, t, ⟨rfl, rfl⟩, hrun⟩ := hrun
      split_ifs at hrun
      · simp only [bind_ok] at hrun
        obtain ⟨res, t₁, hout, hrun⟩ := hrun
        rcases swapout_ok hout with ⟨rfl, rfl⟩ | ⟨rfl, -⟩
        · rw [if_neg (by decide)] at hrun
          exact ih hrun
        · simp only [if_true, pure_ok] at hrun
          exact .inr ⟨hrun.1, va, by omega, hrun.2 ▸ hout⟩
      · exact ih hrun

theorem victim_scan_ok (n : Nat) (hn : n ≤ NPROC) {res : Int} (hrun : victim_scan n s = .ok (res, s')) :
    (res = -1 ∧ s' = s) ∨ (res = 0 ∧ ∃ i < NPROC, (s.proc i).state ≠ .UNUSED ∧ (s.proc i).pagetable ≠ 0 ∧
      ∃ a, a / PGSIZE < npages (s.proc i).sz ∧ swapout (s.proc i).pagetable a s = .ok (0, s')) := by
  induction n with
  | zero =>
    simp only [victim_scan, pure_ok] at hrun
    exact .inl hrun
  | succ n ih =>
    simp only [victim_scan, bind_ok, gets_ok] at hrun
    obtain ⟨q, t, ⟨rfl, rfl⟩, hrun⟩ := hrun
    split_ifs at hrun with huse
    · simp only [bind_ok] at hrun
      obtain ⟨found, t₁, hloop, hrun⟩ := hrun
      rcases victim_loop_ok _ hloop with ⟨rfl, rfl⟩ | ⟨rfl, a, hlt, hout⟩
      · exact ih (by omega) (by simpa using hrun)
      · simp only [if_true, pure_ok] at hrun
        rw [Nat.zero_div, Nat.zero_add] at hlt
        exact .inr ⟨hrun.1, _, by omega, huse.1, huse.2, a, hlt, hrun.2 ▸ hout⟩
    · exact ih (by omega) hrun

def ProcsIn (s : Kernel) (T : Finset Nat) : Prop :=
  ∀ i < NPROC, (s.proc i).state ≠ .UNUSED → (s.proc i).pagetable ≠ 0 → (s.proc i).pagetable ∈ T

theorem victim_spec (h : Inv n₀ L s T H) (hin : ProcsIn s T) {res : Int}
    (hrun : select_victim_page s = .ok (res, s')) :
    (res = -1 ∧ s' = s) ∨ (res = 0 ∧ ∃ i < NPROC, (s.proc i).state ≠ .UNUSED ∧
      (s.proc i).pagetable ∈ T ∧ ∃ v < npages (s.proc i).sz, Evicted T s s' (s.proc i).pagetable v ∧
        Inv n₀ L s' T H) := by
  refine (victim_scan_ok NPROC (Nat.le_refl _) hrun).imp_right ?_
  rintro ⟨rfl, i, hi, hused, hroot, a, hlt, hout⟩
  have hr := hin i hi hused hroot
  obtain ⟨hbad, -⟩ | ⟨-, hev, hinv⟩ := swapout_spec h hr hout
  · cases hbad
  · exact ⟨rfl, i, hi, hused, hr, _, hlt, hev, hinv⟩

/-! ## What allocation does to everything else -/

/-- Tables may have been added and user pages evicted. If the number of pages swapped out stays at `n₀`, the leaves, the pages
they map and the held pages are as before. -/
structure Evolve (n₀ : Nat) (T H : Finset Nat) (s s' : Kernel) : Prop where
  proc : s'.proc = s.proc
  swaps : s.stats.swap_outs ≤ s'.stats.swap_outs
  nodes : ∀ r ∈ T, ∀ n p, node s.mem r n = some p → node s'.mem r n = some p
  leaves : ∀ r ∈ T, ∀ v < 512 ^ 3, pte s'.mem r v = pte s.mem r v ∨
    (Evictable (pte s.mem r v) ∧ v < UPAGES) ∧ ∃ k, pte s'.mem r v = swapblock_to_pte k
  counts : ∀ r ∈ T, ∀ v < UPAGES, ∀ P, points (pte s'.mem r v) = some P → refs s' P ≤ refs s P
  quiet : s.stats.swap_outs = n₀ → s'.stats.swap_outs = n₀ →
    ∀ r ∈ T, ∀ v < 512 ^ 3, pte s'.mem r v = pte s.mem r v
  bytes : s.stats.swap_outs = n₀ → s'.stats.swap_outs = n₀ →
    ∀ P, (P ∈ H ∨ ∃ r ∈ T, ∃ v < UPAGES, points (pte s.mem r v) = some P) →
      ∀ k < PGSIZE, s'.mem (P + k) = s.mem (P + k)

namespace Evolve

section
omit [Image]

theorem refl (s : Kernel) : Evolve n₀ T H s s where
  proc := rfl
  swaps := Nat.le_refl _
  nodes := fun _ _ _ _ h => h
  leaves := fun _ _ _ _ => .inl rfl
  counts := fun _ _ _ _ _ _ => Int.le_refl _
  quiet := fun _ _ _ _ _ _ => rfl
  bytes := fun _ _ _ _ _ _ => rfl

theorem trans (h : Evolve n₀ T H s t) (h' : Evolve n₀ T H t s') : Evolve n₀ T H s s' := by
  have hle := h.swaps
  have hle' := h'.swaps
  -- A leaf that is valid at the end has been so all the time.
  have hback : ∀ r ∈ T, ∀ v < UPAGES, ∀ P, points (pte s'.mem r v) = some P →
      pte s'.mem r v = pte t.mem r v := by
    intro r hr v hv P hP
    rcases h'.leaves r hr v (hv.trans UPAGES_lt) with he | ⟨-, k, he⟩
    · exact he
    · rw [he, points_swapblock] at hP
      cases hP
  refine ⟨h'.proc.trans h.proc, hle.trans hle', ?_, ?_, ?_, ?_, ?_⟩
  · intro r hr n p hp
    exact h'.nodes r hr n p (h.nodes r hr n p hp)
  · intro r hr v hv
    rcases h.leaves r hr v hv with he | ⟨hev, k, he⟩
    · rw [← he]
      exact h'.leaves r hr v hv
    · rcases h'.leaves r hr v hv with he' | ⟨⟨hev', -⟩, -⟩
      · exact .inr ⟨hev, k, he'.trans he⟩
      · have hV := hev'.1
        rw [he, small_of_swapblock k small_V (by decide)] at hV
        cases hV
  · intro r hr v hv P hP
    have hcount := h'.counts r hr v hv P hP
    rw [hback r hr v hv P hP] at hP
    exact hcount.trans (h.counts r hr v hv P hP)
  · intro h0 h1 r hr v hv
    rw [h'.quiet (by omega) h1 r hr v hv, h.quiet h0 (by omega) r hr v hv]
  · intro h0 h1 P hP k hk
    have hP' : P ∈ H ∨ ∃ r ∈ T, ∃ v < UPAGES, points (pte t.mem r v) = some P := by
      refine hP.imp_right ?_
      rintro ⟨r, hr, v, hv, hp⟩
      refine ⟨r, hr, v, hv, ?_⟩
      rw [h.quiet h0 (by omega) r hr v (hv.trans UPAGES_lt), hp]
    rw [h'.bytes (by omega) h1 P hP' k hk, h.bytes h0 (by omega) P hP k hk]

theorem mono {T' H' : Finset Nat} (h : Evolve n₀ T' H' s s') (hT : T ⊆ T') (hH : H ⊆ H') :
    Evolve n₀ T H s s' where
  proc := h.proc
  swaps := h.swaps
  nodes := fun r hr => h.nodes r (hT hr)
  leaves := fun r hr => h.leaves r (hT hr)
  counts := fun r hr => h.counts r (hT hr)
  quiet := fun h0 h1 r hr => h.quiet h0 h1 r (hT hr)
  bytes := by
    intro h0 h1 P hP
    refine h.bytes h0 h1 P (hP.imp (@hH P) ?_)
    rintro ⟨r, hr, hv⟩
    exact ⟨r, hT hr, hv⟩

theorem procsIn (h : Evolve n₀ T H s s') {T' : Finset Nat} (hin : ProcsIn s T') : ProcsIn s' T' := by
  intro i hi
  rw [h.proc]
  exact hin i hi

end

end Evolve

theorem Evicted.evolve (h : Evicted T s s' r v)
    (hpage : ∀ r ∈ T, ∀ v < UPAGES, ∀ P, points (pte s'.mem r v) = some P → Page P) :
    Evolve n₀ T H s s' := by
  obtain ⟨k, hset, -⟩ := h.set
  have hsw := h.swaps
  refine ⟨h.proc, by omega, ?_, ?_, ?_, fun _ _ => by omega, fun _ _ => by omega⟩
  · intro r' hr' n p hp
    rw [hset.tables r' hr', hp]
  · intro r' hr' v' hv'
    by_cases hrv : r' = r ∧ v' = v
    · obtain ⟨rfl, rfl⟩ := hrv
      exact .inr ⟨⟨h.was, h.user⟩, k, hset.self hr' hv'⟩
    · exact .inl (hset.other hr' hv' hrv)
  · intro r' hr' v' hv' P hP
    rw [h.counts P (hpage r' hr' v' hv' P hP)]
    split_ifs <;> omega

theorem Evicted.free_of_nil (h : Evicted T s s' r v) (hnil : s.freelist = []) :
    s'.freelist = [] ∨ ∃ p, s'.freelist = [p] := by
  rw [h.free, hnil]
  split_ifs
  · exact .inr ⟨_, rfl⟩
  · exact .inl rfl

theorem Inv.evolve_page {T' H' : Finset Nat} (h : Inv n₀ L s T H') (hT : T' ⊆ T) (hsub : H ⊆ H')
    (hP : Page p) (hnode : ∀ r ∈ T, ∀ n, node s.mem r n ≠ some p)
    (hleaf : ∀ r ∈ T', ∀ v < UPAGES, points (pte s.mem r v) ≠ some p) (hp : p ∉ H)
    (hm : OnPage p s.mem s'.mem) (hproc : s'.proc = s.proc)
    (hc : ∀ Q, Page Q → Q ≠ p → refs s' Q = refs s Q)
    (hsw : s'.stats.swap_outs = s.stats.swap_outs) : Evolve n₀ T' H s s' := by
  have hoff : Off T s.mem s'.mem := h.off_page hP hnode hm
  refine ⟨hproc, hsw.ge, ?_, ?_, ?_, ?_, ?_⟩
  · intro r hr n q hq
    rw [hoff.node (hT hr), hq]
  · intro r hr v hv
    exact .inl (hoff.pte (hT hr) v)
  · intro r hr v hv P hpt
    rw [hoff.pte (hT hr)] at hpt
    have hne : P ≠ p := by
      rintro rfl
      exact hleaf r hr v hv hpt
    exact (hc P (h.page_leaf (hT hr) hv hpt) hne).le
  · intro _ _ r hr v _
    exact hoff.pte (hT hr) v
  · intro _ _ P hPin k hk
    have hne : P ≠ p := by
      rintro rfl
      rcases hPin with hin | ⟨r, hr, v, hv, hpt⟩
      · exact hp hin
      · exact hleaf r hr v hv hpt
    have hpage : Page P := by
      rcases hPin with hin | ⟨r, hr, v, hv, hpt⟩
      · exact h.page_held (hsub hin)
      · exact h.page_leaf (hT hr) hv hpt
    have hd := hpage.disjoint hP hne
    apply hm
    simp only [PGSIZE] at *
    omega

theorem Inv.held_not_mapped (h : Inv n₀ L s T H) (hp : p ∈ H) (hr : r ∈ T) (hv : v < UPAGES) :
    points (pte s.mem r v) ≠ some p := by
  intro hpt
  have := h.held_only hp (x := .leaf r v) (by rw [goal_leaf hr hv, hpt])
  cases this

/-! ## Allocation -/

def taken (p : Nat) (rest : List Nat) (s : Kernel) : Kernel :=
  { s with
    freelist := rest
    mem := s.mem.fill p PGSIZE 5
    count := fun j => if j = (p - KERNBASE) / PGSIZE then 1 else s.count j
    stats := { s.stats with
      pages_allocated := s.stats.pages_allocated + 1
      current_pages := s.stats.current_pages + 1 } }

def denied (s : Kernel) : Kernel := { s with kalloc_failures := s.kalloc_failures + 1 }

omit [Image] in
theorem kalloc_ok {select : K Int} {res : Option Nat} (h : kalloc_with select s = .ok (res, s')) :
    (∃ p rest, s.freelist = p :: rest ∧ res = some p ∧ s' = taken p rest s) ∨
      s.freelist = [] ∧ ∃ v t, select s = .ok (v, t) ∧
        ((v = 0 → t.freelist = []) ∧ res = none ∧ s' = denied t ∨
          v = 0 ∧ ∃ p rest, t.freelist = p :: rest ∧ res = some p ∧ s' = taken p rest t) := by
  unfold kalloc_with at h
  rw [bind_ok] at h
  obtain ⟨r, t, hpop, h⟩ := h
  rcases popfree_ok hpop with ⟨hnil, rfl, rfl⟩ | ⟨p, rest, hcons, rfl, rfl⟩
  · rw [bind_ok] at h
    obtain ⟨v, t₁, hvictim, h⟩ := h
    refine .inr ⟨hnil, v, t₁, hvictim, ?_⟩
    split_ifs at h with hv
    · rw [bind_ok] at h
      obtain ⟨r, t₂, hpop', h⟩ := h
      rcases popfree_ok hpop' with ⟨hnil', rfl, rfl⟩ | ⟨p, rest, hcons, rfl, rfl⟩
      · simp only [bind_ok, update_ok, pure_ok] at h
        obtain ⟨_, _, rfl, rfl, rfl⟩ := h
        exact .inl ⟨fun _ => hnil', rfl, rfl⟩
      · simp only [bind_ok, memset_ok, pageindex_ok, setcount_ok, memstats_inc_pages_allocated,
          bump_ok, pure_ok] at h
        obtain ⟨_, t₂, rfl, i, t₃, ⟨-, rfl, rfl⟩, _, t₄, rfl, _, t₅, rfl, rfl, rfl⟩ := h
        exact .inr ⟨hv, p, rest, hcons, rfl, rfl⟩
    · simp only [bind_ok, pure_ok] at h
      obtain ⟨_, _, ⟨rfl, rfl⟩, h⟩ := h
      simp only [bind_ok, update_ok, pure_ok] at h
      obtain ⟨_, _, rfl, rfl, rfl⟩ := h
      exact .inl ⟨fun h0 => absurd h0 hv, rfl, rfl⟩
  · simp only [bind_ok, pure_ok] at h
    obtain ⟨_, t', ⟨rfl, rfl⟩, h⟩ := h
    simp only [bind_ok, memset_ok, pageindex_ok, setcount_ok, memstats_inc_pages_allocated,
      bump_ok, pure_ok] at h
    obtain ⟨_, t₂, rfl, i, t₃, ⟨-, rfl, rfl⟩, _, t₄, rfl, _, t₅, rfl, rfl, rfl⟩ := h
    exact .inl ⟨p, rest, hcons, rfl, rfl⟩

theorem Inv.taken {rest : List Nat} (h : Inv n₀ L s T H) (hfree : s.freelist = p :: rest) :
    p ∉ H ∧ Inv n₀ L (taken p rest s) T (insert p H) ∧ Evolve n₀ T H s (taken p rest s) ∧
      ∀ r ∈ T, ∀ n, node (taken p rest s).mem r n = node s.mem r n := by
  have hp : p ∈ s.freelist := by simp [hfree]
  have hpage := h.page_free hp
  have hcount : ∀ Q, Page Q → refs (Xv6.taken p rest s) Q = if Q = p then 1 else refs s Q :=
    fun Q hQ => refs_setcount hpage rfl hQ
  have hmem : OnPage p s.mem (Xv6.taken p rest s).mem := OnPage.fill s.mem p 5
  obtain ⟨hinv, hnot⟩ := h.take hfree hmem hcount rfl rfl
  refine ⟨hnot, hinv, ?_, ?_⟩
  · refine h.evolve_page (Finset.Subset.refl T) (Finset.Subset.refl H) hpage
      (fun _ hr _ => h.free_not_table hp hr) ?_ hnot hmem rfl ?_ rfl
    · intro r hr v hv hpt
      exact h.books.free_none hp (.leaf r v) (by rw [goal_leaf hr hv, hpt])
    · intro Q hQ hne
      rw [hcount Q hQ, if_neg hne]
  · intro r hr n
    exact (h.off_page hpage (fun _ hr _ => h.free_not_table hp hr) hmem).node hr n

theorem Inv.denied (h : Inv n₀ L s T H) : Inv n₀ L (denied s) T H :=
  h.write (Off.refl _) rfl rfl rfl

omit [Image] in
theorem Evolve.denied (h : Evolve n₀ T H s t) : Evolve n₀ T H s (denied t) :=
  ⟨h.proc, h.swaps, h.nodes, h.leaves, h.counts, h.quiet, h.bytes⟩

def Apart (s : Kernel) (r : Nat) : Prop :=
  ∀ i < NPROC, (s.proc i).state ≠ .UNUSED → (s.proc i).pagetable ≠ r

end Xv6
