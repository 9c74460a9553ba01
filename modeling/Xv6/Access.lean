import Xv6.Spaces

/-!
# Page faults and copies to user space

`vmfault`, `cowfault` and `swapin` give one leaf a new page. `copyout` and the stores of the user
write to a page that the leaf at hand alone maps.
-/

open Xv6.Lib Op Radix

namespace Xv6

variable [Image] {n₀ : Nat} {L Z : Prop} {E : String → Prop} {s s' t : Kernel} {T H : Finset Nat}
  {r q v va p P i : Nat} {e : Pte}

/-! ## One leaf gets a page -/

/-- The leaf `v` of `r` may have changed, and `r` may have new tables. Other leaves are as they were or evicted. -/
structure Touches (n₀ : Nat) (L : Prop) (T H : Finset Nat) (r v : Nat) (s s' : Kernel) : Prop where
  inv : Inv n₀ L s' T H
  evolve : Evolve n₀ (T.erase r) H s s'
  nodes : ∀ r' ∈ T, ∀ n p, node s.mem r' n = some p → node s'.mem r' n = some p
  leaves : ∀ r' ∈ T, ∀ v' < 512 ^ 3, ¬ (r' = r ∧ v' = v) → pte s'.mem r' v' = pte s.mem r' v' ∨
    (Evictable (pte s.mem r' v') ∧ v' < UPAGES) ∧ ∃ k, pte s'.mem r' v' = swapblock_to_pte k
  only : Only T r {v} s s'
  slots : Slots T s → Slots T s'

namespace Touches

theorem of_grows (hinv : Inv n₀ L s' T H) (hg : Grows n₀ T H r s s') : Touches n₀ L T H r v s s' :=
  ⟨hinv, hg.evolve.mono (Finset.erase_subset r T) (Finset.Subset.refl H), hg.evolve.nodes,
    fun r' hr' v' hv' _ => hg.evolve.leaves r' hr' v' hv', hg.only.mono (Set.empty_subset _), hg.slots⟩

theorem of_set (hinv : Inv n₀ L s' T H) (hr : r ∈ T) (hg : Grows n₀ T H r s t)
    (hset : LeafSet T t.mem s'.mem r v e) (hev' : Evolve n₀ (T.erase r) H t s')
    (hsw : s'.stats.swap_outs = t.stats.swap_outs) (hslots : Slots T t → Slots T s') :
    Touches n₀ L T H r v s s' := by
  refine ⟨hinv, (hg.evolve.mono (Finset.erase_subset r T) (Finset.Subset.refl H)).trans hev', ?_, ?_, ?_,
    fun hs => hslots (hg.slots hs)⟩
  · intro r' hr' n p hp
    rw [hset.tables r' hr']
    exact hg.evolve.nodes r' hr' n p hp
  · intro r' hr' v' hv' hne
    rw [hset.other hr' hv' hne]
    exact hg.evolve.leaves r' hr' v' hv'
  · exact (hg.only.trans (.of_set hr hset hev'.proc hsw)).mono (by simp)

theorem proc (h : Touches n₀ L T H r v s s') : s'.proc = s.proc := h.evolve.proc

theorem sane (h : Touches n₀ L T H r v s s') (hs : Sane n₀ L Z T H s) : Sane n₀ L Z T H s' :=
  hs.next h.inv (Finset.Subset.refl T) h.proc fun hZ => h.slots (hs.slots hZ)

theorem top (h : Touches n₀ L T H r v s s') (hr : r ∈ T) (hv : v < UPAGES) :
    ∀ v' < 512 ^ 3, UPAGES ≤ v' → pte s'.mem r v' = pte s.mem r v' := by
  intro v' hv' hu
  rcases h.leaves r hr v' hv' (fun he => by omega) with he | ⟨⟨-, hlt⟩, -⟩
  · exact he
  · omega

theorem bound {n : Nat} (h : Touches n₀ L T H r v s s') (hr : r ∈ T) (hv : v < n)
    (hb : Bound s.mem r n) : Bound s'.mem r n := by
  intro v' hv' hp
  by_cases hvv : v' = v
  · omega
  · rcases h.leaves r hr v' (hv'.trans UPAGES_lt) (fun he => hvv he.2) with he | ⟨⟨hev, -⟩, -⟩
    · rw [he] at hp
      exact hb v' hv' hp
    · exact hb v' hv' (by simp [present, hev.1])

theorem grown (h : Touches n₀ L T H r v s s') (hr : r ∈ T) (hv : v < UPAGES) :
    Grown n₀ L T H r s s' := ⟨h.inv, h.evolve, h.top hr hv⟩

end Touches

theorem ismapped_run (hva : va < MAXVA) : ismapped r va s = .ok (has (pte s.mem r (va / PGSIZE)) PTE_V, s) :=
  entry_run (fun e => pure (has e PTE_V)) hva (by rw [has_zero]) fun _ => rfl

theorem walkaddr_run (hva : va < MAXVA) : walkaddr r va s = .ok (if has (pte s.mem r (va / PGSIZE)) PTE_V = true ∧
    has (pte s.mem r (va / PGSIZE)) PTE_U = true then PTE2PA (pte s.mem r (va / PGSIZE)) else 0, s) := by
  rw [walkaddr, if_neg (by omega)]
  refine (entry_run (fun e => if !has e PTE_V then pure 0 else if !has e PTE_U then pure 0 else pure (PTE2PA e)) hva
    (by rw [has_zero]; rfl) fun _ => rfl).trans ?_
  cases has (pte s.mem r (va / PGSIZE)) PTE_V <;> cases has (pte s.mem r (va / PGSIZE)) PTE_U <;> rfl

theorem walkaddr_ends : Ends (walkaddr r va) s (fun pa t => t = s ∧ (pa ≠ 0 → va < MAXVA ∧
    has (pte s.mem r (va / PGSIZE)) PTE_V = true ∧ has (pte s.mem r (va / PGSIZE)) PTE_U = true ∧
      pa = PTE2PA (pte s.mem r (va / PGSIZE)))) E := by
  by_cases hva : va < MAXVA
  · rw [ends_of_run (walkaddr_run hva)]
    refine ⟨rfl, fun h0 => ?_⟩
    split_ifs at h0 ⊢ with h
    · exact ⟨hva, h.1, h.2, rfl⟩
    · exact absurd rfl h0
  · rw [walkaddr, if_pos (by omega)]
    exact ⟨rfl, fun h0 => absurd rfl h0⟩

theorem Page.ne_zero (h : Page p) : p ≠ 0 := by
  have h1 := h.ge
  have h2 := Image.kernbase_le_kend
  simp only [KERNBASE] at h2
  omega

abbrev lazyPte (p : Nat) : Pte := PA2PTE p ||| (PTE_W ||| PTE_U ||| PTE_R) ||| PTE_V

theorem vmfault_ends (h : Sane n₀ L Z T H s) (hi : i < NPROC) (hq : (s.proc i).pagetable = q) (hqT : q ∈ T)
    (hrq : r ≠ q → E "mappages: remap") :
    Ends (vmfault i r va) s (fun res t => res = 0 ∧ Sane n₀ L Z T H t ∧ Grows n₀ T H q s t ∨
      Page res ∧ va / PGSIZE < npages (s.proc i).sz ∧ has (pte s.mem r (va / PGSIZE)) PTE_V = false ∧
        Touches n₀ L T H q (va / PGSIZE) s t ∧ pte t.mem q (va / PGSIZE) = lazyPte res) E := by
  have hsz := h.sized i hi
  simp only [vmfault, ends_bind, ends_gets, hq]
  refine ends_ite.mpr ⟨fun _ => .inl ⟨rfl, h, .refl _⟩, fun hge => ?_⟩
  have hnp : va / PGSIZE < npages (s.proc i).sz := by
    simp only [npages, PGSIZE]
    omega
  have hv := hnp.trans_le (npages_le hsz)
  have hva : PGROUNDDOWN va < MAXVA := by
    rw [PGROUNDDOWN_lt]
    simp only [TRAPFRAME, TRAMPOLINE, PGSIZE, MAXVA] at *
    omega
  rw [ends_bind, ends_of_run (ismapped_run hva), PGROUNDDOWN_div]
  refine ends_ite.mpr ⟨fun _ => .inl ⟨rfl, h, .refl _⟩, fun hno => ?_⟩
  have hV := eq_false_of_ne_true hno
  rw [ends_bind]
  refine (kalloc_ends h).mono ?_
  rintro mem t ⟨hun, _, hnone, hsome⟩
  cases mem with
  | none => exact .inl ⟨rfl, hnone rfl, .of_unseen hun hqT⟩
  | some p =>
    obtain ⟨hnot, hs⟩ := hsome p rfl
    rw [ends_bind]
    refine Safe.ends trivial fun _ t₁ hset => ?_
    obtain ⟨hinv₁, hun₁⟩ := hs.inv.memset_in_hand hnot hset
    have hun₁ := hun.trans hun₁
    have hself := Finset.mem_insert_self p H
    have hsub := Finset.subset_insert p H
    rw [ends_bind]
    refine (mappages_ends (h.unseen hinv₁ hun₁) hqT (by simp only [PGROUNDDOWN, PGSIZE]; omega) hva fun hbad =>
      hrq ?_).mono ?_
    · rintro rfl
      rw [PGROUNDDOWN_div, hun₁.evolve.not_valid hqT (hv.trans UPAGES_lt) hV] at hbad
      cases hbad
    rintro res t₃ ⟨t₂, hg, hs₂, _, hend⟩
    have hg' := (Grows.of_unseen hun₁ hqT).trans (hg.drop hsub)
    rcases hend with ⟨rfl, rfl⟩ | ⟨rfl, hV₂, ht, hent⟩
    · have hfree := hs₂.inv.kfree_run (goal_held hself)
      rw [if_pos (by decide), ends_bind, ends_of_run hfree]
      obtain ⟨hinv₃, hun₃⟩ := hs₂.inv.kfree_in_hand hnot hfree
      exact .inl ⟨rfl, hs₂.unseen hinv₃ hun₃, hg'.trans (.of_unseen hun₃ hqT)⟩
    · rw [if_neg (by decide)]
      rw [PGROUNDDOWN_div] at hV₂ hent
      have hinv₃ := hent.held ht hs₂.inv hqT hv hV₂ hself ((small_W.or small_U).or small_R) (by decide) (by decide)
      rw [Finset.erase_insert hnot] at hinv₃
      have hset := hent.set
      refine .inr ⟨hinv₁.page_held hself, hnp, hV, ?_, hset.self hqT (hv.trans UPAGES_lt)⟩
      refine Touches.of_set hinv₃ hqT hg' hset (hent.evolve.mono (Finset.Subset.refl _) hsub) (by rw [ht]) fun hslots =>
        hslots.sheds (.of_set hset ?_ (by rw [ht]))
      rw [has_mapped small_SWAPPED (by decide)]
      decide

/-! ## Copy-on-write -/

theorem Inv.two_refs {T' H' : Finset Nat} (h : Inv n₀ L s T H) (h' : Inv n₀ L s' T' H') (hT : T ⊆ T')
    (hr : r ∈ T) (hv : v < UPAGES) (hP : points (pte s.mem r v) = some P)
    (hC : has (pte s.mem r v) PTE_COW = true)
    (hnodes : ∀ r' ∈ T, ∀ n p, node s.mem r' n = some p → node s'.mem r' n = some p)
    (hleaves : ∀ r' ∈ T, pte s'.mem r' v = pte s.mem r' v ∨ Evictable (pte s.mem r' v))
    (h2 : 2 ≤ refs s P) : 2 ≤ refs s' P := by
  have hl : goal s.mem T H (.leaf r v) = some P := by rw [goal_leaf hr hv, hP]
  have hpage := h.page_leaf hr hv hP
  have hcount := h.books.exact P hpage
  obtain ⟨y, -, hy, hne⟩ := exists_ne_of_two_le (show 2 ≤ refCount Ref.all (goal s.mem T H) P by omega)
    (.leaf r v)
  have hcow : ∀ r' ∈ T, has (pte s.mem r' v) PTE_COW = true → pte s'.mem r' v = pte s.mem r' v := by
    intro r' hr' hc
    refine (hleaves r' hr').resolve_right ?_
    rintro ⟨-, -, hno⟩
    rw [hc] at hno
    cases hno
  have hl' : goal s'.mem T' H' (.leaf r v) = some P := by rw [goal_leaf (hT hr) hv, hcow r hr hC, hP]
  have hy' : goal s'.mem T' H' y = some P := by
    have hcomp := (h.books.apart _ y P hl hy).resolve_left (Ne.symm hne)
    cases y with
    | leaf r' v' =>
      obtain ⟨⟨hr', hv'⟩, hpt⟩ := of_goal_leaf hy
      obtain ⟨rfl, -, -, hcc⟩ := hcomp
      rw [goal_leaf (hT hr') hv', hcow r' hr' (hcc ▸ hC), hpt]
    | table r' n =>
      obtain ⟨hr', hn⟩ := of_goal_table hy
      rw [goal_table (hT hr'), hnodes r' hr' n P hn]
    | held q => exact absurd hcomp.symm not_compat_held
  have := two_le_refCount (h'.books.mem _ P hl').1 (h'.books.mem _ P hy').1 (Ne.symm hne) hl' hy'
  rw [h'.books.exact P hpage]
  omega

/-- A store to `v` that copies its page does not take the last reference to the old one. -/
def CowShared (s : Kernel) (r v : Nat) : Prop :=
  ∀ P, points (pte s.mem r v) = some P → has (pte s.mem r v) PTE_COW = true → 2 ≤ refs s P

abbrev cowPte (e : Pte) (p : Nat) : Pte := PA2PTE p ||| (PTE_FLAGS e &&& ~~~PTE_COW) ||| PTE_W

theorem points_cowPte (hp : Page p) (hV : has e PTE_V = true) : points (cowPte e p) = some p := by
  have hsmall : Small (PTE_FLAGS e &&& ~~~PTE_COW) := (small_flags e).and
  have hV' : has (PTE_FLAGS e &&& ~~~PTE_COW) PTE_V = true := by
    rw [has_and_not (by decide), has_FLAGS _ small_V, hV]
  rw [points_some (by rw [has_or, has_or, hV']; simp), PTE2PA_or small_W, PTE2PA_or hsmall,
    PTE2PA_PA2PTE hp.aligned hp.small]

omit [Image] in
theorem has_cowPte {f : Pte} (hf : Small f) (hC : f &&& PTE_COW = 0#64) (hW : PTE_W &&& f = 0#64) (p : Nat) :
    has (cowPte e p) f = has e f := by
  have h0 : has PTE_W f = false := by simp [has, hW]
  rw [has_or, has_or, has_PA2PTE p hf, has_and_not hC, has_FLAGS _ hf, h0]
  simp

theorem Evolve.of_count {T' H' : Finset Nat} (hinv : Inv n₀ L s' T' H') (hT : T ⊆ T')
    (hm : s'.mem = s.mem) (hproc : s'.proc = s.proc) (hsw : s'.stats.swap_outs = s.stats.swap_outs)
    (hc : ∀ Q, Page Q → refs s' Q ≤ refs s Q) : Evolve n₀ T H s s' := by
  refine ⟨hproc, hsw.ge, ?_, ?_, ?_, ?_, ?_⟩
  · intro r hr n p hp
    rw [hm, hp]
  · intro r hr v hv
    exact .inl (by rw [hm])
  · intro r hr v hv P hP
    exact hc P (hinv.page_leaf (hT hr) hv hP)
  · intro _ _ r hr v hv
    rw [hm]
  · intro _ _ P _ k _
    rw [hm]

section
omit [Image]

theorem Evolve.pte_eq (h : Evolve n₀ T H s s') (hr : r ∈ T) (hv : v < 512 ^ 3)
    (hno : ¬ Evictable (pte s.mem r v)) : pte s'.mem r v = pte s.mem r v := by
  rcases h.leaves r hr v hv with he | ⟨⟨hev, -⟩, -⟩
  · exact he
  · exact absurd hev hno

@[simp] theorem memmove_ok {dst src n : Nat} {u : Unit} : memmove dst src n s = .ok (u, s') ↔
    s' = { s with mem := s.mem.copy dst src n } := update_ok _ _

theorem OnPage.copy (m : Mem) (p src : Nat) : OnPage p m (m.copy p src PGSIZE) :=
  fun _ ha => Mem.copy_of_outside ha

theorem walk_down_error {α : Type} {f : Option Nat → K α} (hva : ¬ va < MAXVA) :
    (walk0 r (PGROUNDDOWN va) >>= f) s = .error "walk" :=
  run_bind_error (walk0_error (not_lt.mp fun hlt => hva (PGROUNDDOWN_lt.mp hlt)))

end

theorem cowfault_ends (h : Sane n₀ L Z T H s) (hr : r ∈ T) (hw : MAXVA ≤ va → E "walk")
    (hL : L → CowShared s r (va / PGSIZE)) :
    Ends (cowfault r va) s (fun res t => res = -1 ∧ Sane n₀ L Z T H t ∧ Unseen n₀ T H s t ∨
      res = 0 ∧ va / PGSIZE < UPAGES ∧ has (pte s.mem r (va / PGSIZE)) PTE_V = true ∧
        has (pte s.mem r (va / PGSIZE)) PTE_COW = true ∧ Touches n₀ L T H r (va / PGSIZE) s t ∧
        ∃ p, Page p ∧ pte t.mem r (va / PGSIZE) = cowPte (pte s.mem r (va / PGSIZE)) p) E := by
  by_cases hva : va < MAXVA
  swap
  · exact (ends_of_error (walk_down_error hva)).mpr (hw (not_lt.mp hva))
  have hv3 := page_number_lt hva
  rw [cowfault, walk_false, ends_bind, ends_of_run (walk0_run (PGROUNDDOWN_lt.mpr hva)), low_down, PGROUNDDOWN_div]
  have hfail : (-1 : Int) = -1 ∧ Sane n₀ L Z T H s ∧ Unseen n₀ T H s s := ⟨rfl, h, .refl s⟩
  cases hlow : low s.mem r va with
  | none => exact .inl hfail
  | some q =>
    simp only [Option.map_some, load64, ends_bind, ends_gets, pte_of_low hlow]
    refine ends_ite.mpr ⟨fun _ => .inl hfail, fun hV => ends_ite.mpr ⟨fun _ => .inl hfail, fun hC => ?_⟩⟩
    simp only [Bool.not_eq_true', Bool.not_eq_false] at hV hC
    have hv := h.inv.user_of_COW hr hv3 hC
    have hP := points_some hV
    generalize PTE2PA (pte s.mem r (va / PGSIZE)) = pa at hP ⊢
    rw [ends_bind]
    refine (kalloc_ends h).mono ?_
    rintro mem t₁ ⟨hun, _, hnone, hsome⟩
    cases mem with
    | none => exact .inl ⟨rfl, hnone rfl, hun⟩
    | some p =>
      obtain ⟨hnot, hs⟩ := hsome p rfl
      simp only [ends_bind]
      refine Safe.ends trivial fun _ t₂ h₂ => Safe.ends trivial fun _ t₃ h₃ => ?_
      have ht₂ := memmove_ok.mp h₂
      have ht₃ := store64_ok.mp h₃
      have hself := Finset.mem_insert_self p H
      have hsub := Finset.subset_insert p H
      have hon : OnPage p t₁.mem t₂.mem := by
        rw [ht₂]
        exact OnPage.copy t₁.mem p _
      have hinv₂ : Inv n₀ L t₂ T (insert p H) :=
        hs.inv.write_held hself hon (by rw [ht₂]) (by rw [ht₂]) (by rw [ht₂])
      have hun₂ : Unseen n₀ T H s t₂ :=
        hun.trans (hs.inv.unseen_in_hand hnot hon (by rw [ht₂]) (fun Q _ _ => by rw [ht₂]; rfl) (by rw [ht₂])
          (by rw [ht₂]))
      have hev₂ := hun₂.evolve
      -- The allocation did not evict the page: it is copy-on-write.
      have hpte : pte t₂.mem r (va / PGSIZE) = pte s.mem r (va / PGSIZE) :=
        hev₂.pte_eq hr hv3 fun hx => by simp [hx.2.2] at hC
      have hlow₂ : low t₂.mem r va = some q := hev₂.nodes r hr _ _ hlow
      have hpage := hs.inv.page_held hself
      obtain ⟨hset, hev₃⟩ := hinv₂.evolve_leaf (t := t₃) hr hva hlow₂ (by rw [ht₃]) (by rw [ht₃])
        (by rw [ht₃]) (by rw [ht₃])
      have hrefs₃ : refs t₃ = refs t₂ := by rw [ht₃]; rfl
      have hP₂ : points (pte t₂.mem r (va / PGSIZE)) = some pa := by
        rw [hpte, hP]
      have hPpage := h.inv.page_leaf hr hv hP
      -- The old page keeps its reference until it is dropped.
      have hpos : 0 < refs t₃ pa := by
        rw [hrefs₃]
        exact hinv₂.books.pos (x := .leaf r (va / PGSIZE)) (by rw [goal_leaf hr hv, hP₂])
      obtain ⟨c, t, hdec⟩ : ∃ c t, krefdec pa t₃ = .ok (c, t) :=
        ⟨_, _, krefdec_run hPpage hpos⟩
      rw [ends_of_run hdec]
      obtain ⟨-, -, -, ht⟩ := krefdec_ok hdec
      have hcount : ∀ Q, Page Q → refs t Q =
          if Q = pa then refs t₂ Q - 1 else refs t₂ Q := by
        intro Q hQ
        rw [refs_setcount hPpage (by rw [ht]) hQ, hrefs₃]
        split_ifs with hQP
        · rw [hQP]
        · rfl
      have hmem : t.mem = t₃.mem := by rw [ht]
      rw [← hmem] at hset
      have hok : LeafOk (va / PGSIZE) (cowPte (pte s.mem r (va / PGSIZE)) p) := by
        apply leafOk_user hv
        · rw [has_cowPte small_SWAPPED (by decide) (by decide), h.inv.not_swapped hr hv hV]
        · intro hbad
          rw [has_or, has_or, has_PA2PTE p small_COW, has_and_not_self] at hbad
          simp [show has PTE_W PTE_COW = false from by decide] at hbad
      have hL₂ : L → refs t₂ pa ≠ 1 := by
        intro hl
        have := h.inv.two_refs hinv₂ (Finset.Subset.refl T) hr hv hP hC hev₂.nodes
          (fun r' hr' => (hev₂.leaves r' hr' _ hv3).imp_right fun he => he.1.1) (hL hl _ hP hC)
        omega
      have hinv₄ := hinv₂.retarget hr hv hset hP₂ hself (points_cowPte hpage hV) hok hL₂ hcount
        (by rw [ht, ht₃]) (by rw [ht, ht₃])
      rw [Finset.erase_insert hnot] at hinv₄
      have hev₄ : Evolve n₀ (T.erase r) H t₃ t :=
        Evolve.of_count hinv₄ (Finset.erase_subset r T) hmem (by rw [ht]) (by rw [ht]) (by
          intro Q hQ
          rw [hcount Q hQ, hrefs₃]
          split_ifs <;> omega)
      refine .inr ⟨rfl, hv, hV, hC, ?_, p, hpage, hset.self hr hv3⟩
      refine Touches.of_set hinv₄ hr (.of_unseen hun₂ hr) hset ((hev₃.mono (Finset.Subset.refl _) hsub).trans hev₄)
        (by rw [ht, ht₃]) fun hslots => hslots.sheds (.of_set hset ?_ (by rw [ht, ht₃]))
      rw [has_cowPte small_SWAPPED (by decide) (by decide), h.inv.not_swapped hr hv hV]

/-! ## Swapping a page in -/

abbrev inPte (e : Pte) (p : Nat) : Pte := PA2PTE p ||| (e &&& 0x3FF#64 &&& ~~~PTE_SWAPPED) ||| PTE_V

def paged_in (e : Pte) (p : Nat) (sw : Swap) (s : Kernel) : Kernel :=
  let blockno := swapblock_to_diskblock (pte_to_swapblock e)
  let data := s.bufdata blockno
  let filled : Mem := fun x =>
    if data ≤ x ∧ x < data + BSIZE then s.disk blockno (x - data) else s.bmem x
  { s with
    swap := sw
    bmem := filled
    mem := fun x => if p ≤ x ∧ x < p + PGSIZE then filled (data + (x - p)) else s.mem x
    accesses := ⟨blockno, PGSIZE⟩ :: s.accesses }

theorem swapin_ok {res : Nat} (h : swapin r va s = .ok (res, s')) :
    va < MAXVA ∧ ((res = 0 ∧ s' = s ∧ has (pte s.mem r (va / PGSIZE)) PTE_SWAPPED = false) ∨
      has (pte s.mem r (va / PGSIZE)) PTE_SWAPPED = true ∧ ((res = 0 ∧ kalloc s = .ok (none, s')) ∨
        ∃ q a t u, low s.mem r va = some q ∧ a = q + 8 * (lo (va / PGSIZE) : Nat) ∧
          kalloc s = .ok (some res, t) ∧ u = paged_in (pte s.mem r (va / PGSIZE)) res
            (t.swap.release (pte_to_swapblock (pte s.mem r (va / PGSIZE)))) t ∧
          s' = { u with mem := u.mem.store64 a (inPte (u.mem.load64 a) res) })) := by
  unfold swapin at h
  simp only [bind_ok] at h
  obtain ⟨slot, t, hwalk, h⟩ := h
  obtain ⟨hva, rfl, rfl⟩ := walk0_ok hwalk
  rw [low_down, PGROUNDDOWN_div] at h
  rw [PGROUNDDOWN_lt] at hva
  refine ⟨hva, ?_⟩
  cases hlow : low t.mem r va with
  | none =>
    simp only [hlow, Option.map_none, pure_ok] at h
    refine .inl ⟨h.1, h.2, ?_⟩
    rw [pte_of_low_none hlow, has_zero]
  | some q =>
    simp only [hlow, Option.map_some, bind_ok, load64_ok] at h
    obtain ⟨e, t, ⟨rfl, rfl⟩, h⟩ := h
    rw [pte_of_low hlow] at h
    split_ifs at h with hS
    · simp only [pure_ok] at h
      exact .inl ⟨h.1, h.2, by simpa using hS⟩
    · simp only [bind_ok] at h
      obtain ⟨mem, t₁, halloc, h⟩ := h
      refine .inr ⟨by simpa using hS, ?_⟩
      cases mem with
      | none =>
        simp only [pure_ok] at h
        obtain ⟨rfl, rfl⟩ := h
        exact .inl ⟨rfl, halloc⟩
      | some p =>
        simp only [bind_ok, move_from_buf, update_ok, load64_ok, store64_ok, pure_ok] at h
        obtain ⟨b, t₂, hread, _, t₃, rfl, _, t₄, hfree, e, t₅, ⟨rfl, rfl⟩, _, _, hs, rfl, rfl⟩ := h
        obtain ⟨rfl, rfl⟩ := bread_ok hread
        obtain ⟨-, ht₅⟩ := swapfree_ok hfree
        exact .inr ⟨q, _, t₁, t₅, rfl, rfl, halloc, ht₅, hs⟩

theorem swapin_spec {res : Nat} (h : Inv n₀ L s T H) (hin : ProcsIn s T) (hr : r ∈ T)
    (hrun : swapin r va s = .ok (res, s')) :
    (res = 0 ∧ Inv n₀ L s' T H ∧ Unseen n₀ T H s s') ∨
      (Page res ∧ va / PGSIZE < UPAGES ∧ has (pte s.mem r (va / PGSIZE)) PTE_SWAPPED = true ∧
        Touches n₀ L T H r (va / PGSIZE) s s' ∧
        pte s'.mem r (va / PGSIZE) = inPte (pte s.mem r (va / PGSIZE)) res) := by
  obtain ⟨hva, ⟨rfl, rfl, -⟩ | ⟨hS, ⟨rfl, halloc⟩ | ⟨q, a, t, u, hlow, ha, halloc, hu, hs⟩⟩⟩ :=
    swapin_ok hrun
  · exact .inl ⟨rfl, h, .refl _⟩
  · obtain ⟨hun, -, hnone, -⟩ := kalloc_spec h hin halloc
    exact .inl ⟨rfl, hnone rfl, hun⟩
  · have hv3 := page_number_lt hva
    have hv := h.user_of_SWAPPED hr hv3 hS
    have hV : has (pte s.mem r (va / PGSIZE)) PTE_V = false := by
      by_contra hV
      rw [h.not_swapped hr hv (by simpa using hV)] at hS
      cases hS
    obtain ⟨hun, -, -, hsome⟩ := kalloc_spec h hin halloc
    obtain ⟨hnot, hinv⟩ := hsome res rfl
    have hself := Finset.mem_insert_self res H
    have hsub := Finset.subset_insert res H
    have hon : OnPage res t.mem u.mem := by
      rw [hu]
      intro a ha
      simp only [PGSIZE] at ha
      exact if_neg (by simp only [PGSIZE]; omega)
    have hcount : u.count = t.count := by rw [hu]; rfl
    have hproc : u.proc = t.proc := by rw [hu]; rfl
    have hsw : u.stats.swap_outs = t.stats.swap_outs := by rw [hu]; rfl
    have hinv₁ : Inv n₀ L u T (insert res H) :=
      hinv.write_held hself hon hcount (by rw [hu]; rfl) hsw
    have hev₀ : Evolve n₀ T H t u :=
      hinv.evolve_in_hand hnot hon hproc (fun Q _ _ => by simp only [refs, hcount]) hsw
    have hev₁ := hun.evolve.trans hev₀
    have hoff := hinv.off_page (hinv.page_held hself) (fun _ hr' _ => hinv.held_not_table hself hr') hon
    have hblock : pte t.mem r (va / PGSIZE) = pte s.mem r (va / PGSIZE) :=
      hun.evolve.pte_eq hr hv3 (by
        rintro ⟨hv', -⟩
        rw [hV] at hv'
        cases hv')
    have hpte : pte u.mem r (va / PGSIZE) = pte s.mem r (va / PGSIZE) := (hoff.pte hr _).trans hblock
    have hlow₁ : low u.mem r va = some q := hev₁.nodes r hr _ _ hlow
    rw [ha, pte_of_low hlow₁, hpte] at hs
    have hpage := hinv.page_held hself
    obtain ⟨hset, hev₂⟩ := hinv₁.evolve_leaf (t := s') hr hva hlow₁ (by rw [hs]) (by rw [hs])
      (by rw [hs]) (by rw [hs])
    have hsmall : Small (pte s.mem r (va / PGSIZE) &&& 0x3FF#64 &&& ~~~PTE_SWAPPED) :=
      (small_flags _).and
    have hcow : has (pte s.mem r (va / PGSIZE) &&& 0x3FF#64 &&& ~~~PTE_SWAPPED) PTE_COW = true →
        has (pte s.mem r (va / PGSIZE) &&& 0x3FF#64 &&& ~~~PTE_SWAPPED) PTE_W = false := by
      rw [has_and_not (by decide), has_and_not (by decide)]
      show has (PTE_FLAGS _) _ = true → has (PTE_FLAGS _) _ = false
      rw [has_FLAGS _ small_COW, has_FLAGS _ small_W]
      exact h.cow_not_writable hr hv
    have hok : LeafOk (va / PGSIZE) (inPte (pte s.mem r (va / PGSIZE)) res) := by
      apply leafOk_user hv
      · rw [has_mapped small_SWAPPED (by decide), has_and_not_self]
      · rwa [has_mapped small_COW (by decide), has_mapped small_W (by decide)]
    have hinv₂ := hinv₁.map_held hr hv hset (by rw [hpte, points_none hV]) hself
      (points_mapped hpage hsmall) hok (by rw [hs]) (by rw [hs]) (by rw [hs])
    rw [Finset.erase_insert hnot] at hinv₂
    refine .inr ⟨hpage, hv, hS, ?_, hset.self hr hv3⟩
    -- The block is released, and the leaf that named it has the page.
    refine Touches.of_set hinv₂ hr (.of_unseen hun hr) (hoff.leafSet hset)
      ((hev₀.mono (Finset.erase_subset r T) (Finset.Subset.refl H)).trans (hev₂.mono (Finset.Subset.refl _) hsub))
      (by rw [hs, hsw]) fun hslots => hslots.release hr hv3 ?_ (hoff.leafSet hset) ?_ (by rw [hs, hu]; rfl)
    · rw [hblock]
      exact block_some hS
    · rw [has_mapped small_SWAPPED (by decide), has_and_not_self]

theorem swapin_safe (h : Sane n₀ L Z T H s) (hr : r ∈ T) (hva : va < MAXVA) : Safe (Stray Z) (swapin r va) s := by
  have hv3 := page_number_lt hva
  refine (walk0_safe (PGROUNDDOWN_lt.mpr hva)).bind fun slot t hwalk => ?_
  obtain ⟨-, rfl, rfl⟩ := walk0_ok hwalk
  rw [low_down, PGROUNDDOWN_div]
  cases hlow : low t.mem r va with
  | none => trivial
  | some a =>
    refine .bind trivial fun e t' he => .ite (fun _ => trivial) fun hS => ?_
    obtain ⟨rfl, rfl⟩ := load64_ok.mp he
    rw [pte_of_low hlow] at hS ⊢
    simp only [Bool.not_eq_true', Bool.not_eq_false] at hS
    refine Safe.after (kalloc_ends h) ?_
    rintro res t₁ ⟨hun, _, _, hsome⟩
    cases res with
    | none => trivial
    | some pa =>
      refine Safe.bind trivial fun b t₂ hread => .bind trivial fun _ t₃ h₃ => .bind ?_ fun _ _ _ => trivial
      obtain ⟨-, rfl⟩ := bread_ok hread
      simp only [move_from_buf, update_ok] at h₃
      refine .of_ends (swapfree_ends fun hZ => ?_)
      rw [h₃]
      refine ((hsome pa rfl).2.slots hZ).used r hr _ hv3 _ ?_
      rw [hun.evolve.pte_eq hr hv3 fun hx => ?_]
      · exact block_some hS
      · rw [h.inv.not_swapped hr (h.inv.user_of_SWAPPED hr hv3 hS) hx.1] at hS
        cases hS

theorem swapin_ends (h : Sane n₀ L Z T H s) (hr : r ∈ T) (hE : ∀ msg, Stray Z msg → E msg)
    (hw : MAXVA ≤ va → E "walk") :
    Ends (swapin r va) s (fun res t => res = 0 ∧ Sane n₀ L Z T H t ∧ Unseen n₀ T H s t ∨
      va / PGSIZE < UPAGES ∧ has (pte s.mem r (va / PGSIZE)) PTE_SWAPPED = true ∧
        Touches n₀ L T H r (va / PGSIZE) s t) E := by
  by_cases hva : va < MAXVA
  · refine Ends.weaken ((swapin_safe h hr hva).ends fun res t hrun => ?_) hE
    rcases swapin_spec h.inv h.procsIn hr hrun with ⟨rfl, hinv, hun⟩ | ⟨-, hv, hS, ht, -⟩
    · exact .inl ⟨rfl, h.unseen hinv hun, hun⟩
    · exact .inr ⟨hv, hS, ht⟩
  · exact (ends_of_error (walk_down_error hva)).mpr (hw (not_lt.mp hva))

/-! ## Writing to a page of one's own -/

theorem Inv.write_own (h : Inv n₀ L s T H) (hP : Page P)
    (hone : ∀ x, goal s.mem T H x = some P → x = .leaf r v) (hm : OnPage P s.mem s'.mem)
    (hproc : s'.proc = s.proc) (hc : s'.count = s.count) (hf : s'.freelist = s.freelist)
    (hsw : s'.stats.swap_outs = s.stats.swap_outs) :
    Inv n₀ L s' T H ∧ Evolve n₀ (T.erase r) H s s' ∧ Off T s.mem s'.mem := by
  have hnode : ∀ r' ∈ T, ∀ n, node s.mem r' n ≠ some P := by
    intro r' hr' n hn
    have := hone (.table r' n) (by rw [goal_table hr', hn])
    cases this
  have hoff := h.off_page hP hnode hm
  refine ⟨h.write hoff hc hf hsw, ?_, hoff⟩
  refine h.evolve_page (Finset.erase_subset r T) (Finset.Subset.refl H) hP hnode ?_ ?_ hm hproc ?_ hsw
  · intro r' hr' v' hv' hpt
    have := hone (.leaf r' v') (by rw [goal_leaf (Finset.mem_of_mem_erase hr') hv', hpt])
    cases this
    exact Finset.ne_of_mem_erase hr' rfl
  · intro hin
    have := hone (.held P) (goal_held hin)
    cases this
  · intro Q _ _
    simp only [refs, hc]

/-! ## The page that `copyout` writes to -/

theorem Touches.unseen (h : Touches n₀ L T H r v s t) (hr : r ∈ T) (hinv : Inv n₀ L s' T H)
    (hun : Unseen n₀ T H t s') : Touches n₀ L T H r v s s' := by
  have hev := hun.evolve
  refine ⟨hinv, h.evolve.trans (hev.mono (Finset.erase_subset r T) (Finset.Subset.refl H)), ?_, ?_,
    (h.only.trans (.of_fixed (A := ∅) hun.fixed hr)).mono (by simp), fun hs => hun.slots (h.slots hs)⟩
  · intro r' hr' n p hp
    exact hev.nodes r' hr' n p (h.nodes r' hr' n p hp)
  · intro r' hr' v' hv' hne
    rcases h.leaves r' hr' v' hv' hne with he | ⟨hev₁, k, he⟩
    · rw [← he]
      exact hev.leaves r' hr' v' hv'
    · refine .inr ⟨hev₁, k, ?_⟩
      rw [hev.pte_eq hr' hv', he]
      rintro ⟨hV, -⟩
      rw [he, small_of_swapblock k small_V (by decide)] at hV
      cases hV

def Writable (s : Kernel) (r q v pa : Nat) : Prop :=
  v < UPAGES ∧ ∃ r', (r' = r ∨ r' = q) ∧ points (pte s.mem r' v) = some pa ∧
    has (pte s.mem r' v) PTE_W = true

theorem copyout_check_ends {a pa0 : Nat} (h : Sane n₀ L Z T H s) (hr : r ∈ T) (hva : va < MAXVA)
    (hL : L → CowShared s r (va / PGSIZE)) (ha : low s.mem r va = some a) :
    Ends (copyout_check r va (a + 8 * (lo (va / PGSIZE) : Nat)) pa0) s (fun res t =>
      t = s ∧ (∀ pa, res = some pa → pa = pa0 ∧ has (pte s.mem r (va / PGSIZE)) PTE_W = true) ∨
      has (pte s.mem r (va / PGSIZE)) PTE_COW = true ∧ (res = none ∧ Sane n₀ L Z T H t ∧ Unseen n₀ T H s t ∨
        has (pte s.mem r (va / PGSIZE)) PTE_V = true ∧ Touches n₀ L T H r (va / PGSIZE) s t ∧ ∀ pa, res = some pa →
          points (pte t.mem r (va / PGSIZE)) = some pa ∧ has (pte t.mem r (va / PGSIZE)) PTE_W = true)) E := by
  simp only [copyout_check, walk_false, load64, ends_bind, ends_gets, pte_of_low ha]
  refine ends_ite.mpr ⟨fun hC => ?_, fun _ => ends_ite.mpr
    ⟨fun _ => .inl ⟨rfl, (by simp)⟩, fun hW => .inl ⟨rfl, ?_⟩⟩⟩
  · rw [ends_bind]
    refine (cowfault_ends h hr (fun hge => absurd hva (not_lt.mpr hge)) hL).mono fun c t hc => ?_
    rcases hc with ⟨rfl, hs, hun⟩ | ⟨rfl, -, hV, -, ht, -⟩
    · rw [if_pos (by decide)]
      exact .inr ⟨hC, .inl ⟨rfl, hs, hun⟩⟩
    · rw [if_neg (by decide), ends_bind]
      refine walkaddr_ends.mono ?_
      rintro pa t' ⟨ht', hpa⟩
      refine ends_ite.mpr ⟨fun _ => .inr ⟨hC, .inr ⟨hV, ht' ▸ ht, (by simp)⟩⟩, fun h0 => ?_⟩
      subst ht'
      have hent : (if !has (pte t'.mem r (va / PGSIZE)) PTE_W then pure none else pure (some pa) : Op Kernel
        (Option Nat)) t' =
          .ok (if has (pte t'.mem r (va / PGSIZE)) PTE_W = true then some pa else none, t') := by
        cases has (pte t'.mem r (va / PGSIZE)) PTE_W <;> rfl
      refine (ends_of_run ((entry_run (fun e => if !has e PTE_W then pure none else pure (some pa)) hva ?_ fun _ =>
        ?_).trans
        hent)).mpr (.inr ⟨hC, .inr ⟨hV, ht, fun pa' hres => ?_⟩⟩)
      · rw [has_zero]
        rfl
      · rfl
      · obtain ⟨-, hV', -, hpa⟩ := hpa h0
        split_ifs at hres with hW
        cases hres
        exact ⟨hpa ▸ points_some hV', hW⟩
  · rintro _ ⟨⟩
    exact ⟨rfl, by simpa using hW⟩

/-- What a copy through the tree `r` does for a process with the tree `q` and `n` pages. -/
structure Copied (n₀ : Nat) (L : Prop) (T H : Finset Nat) (r q n : Nat) (s s' : Kernel) : Prop where
  inv : Inv n₀ L s' T H
  evolve : Evolve n₀ ((T.erase r).erase q) H s s'
  bound : Bound s.mem q n → Bound s'.mem q n
  top : ∀ v < 512 ^ 3, UPAGES ≤ v → pte s'.mem q v = pte s.mem q v
  other : r ≠ q → Still r s s' ∧ (Private s r → Private s' r)
  only : r = q → Only T q Set.univ s s'
  slots : Slots T s → Slots T s'

namespace Copied

variable {q n : Nat}

theorem of_grows (hr : r ∈ T) (hq : q ∈ T) (hinv : Inv n₀ L s' T H) (hg : Grows n₀ T H q s s') :
    Copied n₀ L T H r q n s s' where
  inv := hinv
  evolve := hg.evolve.mono ((Finset.erase_subset _ _).trans (Finset.erase_subset _ _)) (Finset.Subset.refl H)
  bound := (hg.evolve.still hq).bound
  top := fun v hv hu => (hg.evolve.still hq v hv).2 hu
  other := fun _ => ⟨hg.evolve.still hr, hg.evolve.keeps_private hr hinv hr⟩
  only := fun _ => hg.only.mono (Set.empty_subset _)
  slots := hg.slots

theorem of_touches (hr : r ∈ T) (hq : q ∈ T) (ht : Touches n₀ L T H q v s s') (hv : v < UPAGES)
    (hn : v < n ∨ present (pte s.mem q v) = true) : Copied n₀ L T H r q n s s' where
  inv := ht.inv
  evolve := by
    rw [Finset.erase_right_comm]
    exact ht.evolve.mono (Finset.erase_subset _ _) (Finset.Subset.refl H)
  bound := fun hb => ht.bound hq (hn.elim id (hb v hv)) hb
  top := ht.top hq hv
  other := by
    intro hrq
    have hr' : r ∈ T.erase q := Finset.mem_erase.mpr ⟨hrq, hr⟩
    exact ⟨ht.evolve.still hr', ht.evolve.keeps_private hr' ht.inv hr⟩
  only := fun _ => ht.only.mono (Set.subset_univ _)
  slots := ht.slots

theorem trans (h : Copied n₀ L T H r q n s t) (h' : Copied n₀ L T H r q n t s') :
    Copied n₀ L T H r q n s s' where
  inv := h'.inv
  evolve := h.evolve.trans h'.evolve
  bound := fun hb => h'.bound (h.bound hb)
  top := fun v hv hu => (h'.top v hv hu).trans (h.top v hv hu)
  other := by
    intro hrq
    obtain ⟨hs, hp⟩ := h.other hrq
    obtain ⟨hs', hp'⟩ := h'.other hrq
    exact ⟨hs.trans hs', fun hpriv => hp' (hp hpriv)⟩
  only := fun hrq => ((h.only hrq).trans (h'.only hrq)).mono (Set.subset_univ _)
  slots := fun hs => h'.slots (h.slots hs)

end Copied

theorem Touches.cowShared (h : Inv n₀ L s T H) (ht : Touches n₀ L T H r v s s') (hr : r ∈ T) {v' : Nat}
    (hv' : v' < 512 ^ 3) (hne : v' ≠ v) (hsh : CowShared s r v') : CowShared s' r v' := by
  intro P hP hC
  have hu := ht.inv.user_of_COW hr hv' hC
  have he : pte s'.mem r v' = pte s.mem r v' := by
    rcases ht.leaves r hr v' hv' (fun he => hne he.2) with he | ⟨-, k, he⟩
    · exact he
    · rw [he, points_swapblock] at hP
      cases hP
  rw [he] at hP hC
  refine h.two_refs ht.inv (Finset.Subset.refl T) hr hu hP hC ht.nodes ?_ (hsh P hP hC)
  intro r' hr'
  exact (ht.leaves r' hr' v' hv' (fun he => hne he.2)).imp_right fun he => he.1.1

omit [Image] in
theorem lazyPte_has (p : Nat) : has (lazyPte p) PTE_V = true ∧ has (lazyPte p) PTE_W = true ∧
    has (lazyPte p) PTE_COW = false := by
  refine ⟨?_, ?_, ?_⟩
  · rw [has_or]
    simp [show has PTE_V PTE_V = true from by decide]
  · rw [has_mapped small_W (by decide)]
    decide
  · rw [has_mapped small_COW (by decide)]
    decide

structure Copying (n₀ : Nat) (L Z : Prop) (T H : Finset Nat) (i r q n : Nat) (s : Kernel) : Prop
    extends Sane n₀ L Z T H s where
  lt : i < NPROC
  root : (s.proc i).pagetable = q
  mem : q ∈ T
  through : r ∈ T
  pages : npages (s.proc i).sz ≤ n
  own : r ≠ q → Private s r

section copyout
variable {n : Nat}

namespace Copying

theorem copied (h : Copying n₀ L Z T H i r q n s) (hc : Copied n₀ L T H r q n s t) : Copying n₀ L Z T H i r q n t := by
  have hp := hc.evolve.proc
  refine ⟨h.toSane.next hc.inv (Finset.Subset.refl T) hp fun hZ => hc.slots (h.slots hZ), h.lt, ?_, h.mem, h.through, ?_,
    fun hne => (hc.other hne).2 (h.own hne)⟩
  · rw [hp, h.root]
  · rw [hp]
    exact h.pages

theorem refl (h : Copying n₀ L Z T H i r q n s) : Copied n₀ L T H r q n s s :=
  .of_grows h.through h.mem h.inv (.refl s)

end Copying

theorem copyout_page_ends (h : Copying n₀ L Z T H i r q n s) (hE : r ≠ q → E "mappages: remap") (hva : va < MAXVA)
    (hL : L → CowShared s r (va / PGSIZE)) :
    Ends (copyout_page i r va) s (fun res t => Copied n₀ L T H r q n s t ∧
      (∀ pa, res = some pa → Writable t r q (va / PGSIZE) pa) ∧ (r = q → Touches n₀ L T H r (va / PGSIZE) s t)) E := by
  have hr := h.through
  have hv3 := page_number_lt hva
  have hquiet : ∀ {t}, Inv n₀ L t T H → Grows n₀ T H q s t →
      Copied n₀ L T H r q n s t ∧ (r = q → Touches n₀ L T H r (va / PGSIZE) s t) :=
    fun hinv hg => ⟨.of_grows hr h.mem hinv hg, fun hrq => .of_grows hinv (hrq ▸ hg)⟩
  have htouch : ∀ {t}, Touches n₀ L T H q (va / PGSIZE) s t → va / PGSIZE < UPAGES →
      (va / PGSIZE < n ∨ present (pte s.mem q (va / PGSIZE)) = true) →
      Copied n₀ L T H r q n s t ∧ (r = q → Touches n₀ L T H r (va / PGSIZE) s t) :=
    fun ht hv hor => ⟨.of_touches hr h.mem ht hv hor, fun hrq => hrq ▸ ht⟩
  have hlazy : has (pte s.mem r (va / PGSIZE)) PTE_V = false → Ends (copyout_lazy i r va) s (fun res t =>
      Copied n₀ L T H r q n s t ∧ (∀ pa, res = some pa → Writable t r q (va / PGSIZE) pa) ∧
        (r = q → Touches n₀ L T H r (va / PGSIZE) s t)) E := by
    intro hno
    rw [copyout_lazy, ends_bind]
    refine (vmfault_ends h.toSane h.lt h.root h.mem hE).mono fun pa0 t hres => ?_
    rcases hres with ⟨rfl, hs, hg⟩ | ⟨hpage, hnp, -, ht, hpte⟩
    · obtain ⟨hc, ht⟩ := hquiet hs.inv hg
      rw [if_pos rfl]
      exact ⟨hc, (by simp), ht⟩
    have hv : va / PGSIZE < UPAGES := hnp.trans_le (npages_le (h.sized i h.lt))
    obtain ⟨hc, ht'⟩ := htouch ht hv (.inl (hnp.trans_le h.pages))
    obtain ⟨-, hlW, hlC⟩ := lazyPte_has pa0
    rw [if_neg hpage.ne_zero, walk_false, ends_bind, ends_of_run (walk0_run hva)]
    cases hlow : low t.mem r va with
    | none => exact ⟨hc, (by simp), ht'⟩
    | some a =>
      -- An entry that is copy-on-write is of another tree, and still without a page.
      have hnone : has (pte t.mem r (va / PGSIZE)) PTE_COW = true → has (pte t.mem r (va / PGSIZE)) PTE_V = false := by
        intro hC
        have hrq : r ≠ q := by
          rintro rfl
          rw [hpte, hlC] at hC
          cases hC
        rcases ht.leaves r hr _ hv3 (fun he => hrq he.1) with he | ⟨⟨hev, -⟩, -⟩
        · rw [he, hno]
        · rw [hev.1] at hno
          cases hno
      have hL' : L → CowShared t r (va / PGSIZE) := by
        intro _ P hP hC
        rw [points_none (hnone hC)] at hP
        cases hP
      refine (copyout_check_ends (ht.sane h.toSane) hr hva hL' hlow).mono fun res t' hres => ?_
      rcases hres with ⟨rfl, hres⟩ | ⟨hC, ⟨rfl, hs, hun⟩ | ⟨hV, -⟩⟩
      · refine ⟨hc, fun pa hpa => ?_, ht'⟩
        obtain ⟨rfl, -⟩ := hres pa hpa
        refine ⟨hv, _, .inr rfl, ?_, ?_⟩
        · rw [hpte]
          exact points_mapped hpage ((small_W.or small_U).or small_R)
        · rw [hpte, hlW]
      · obtain ⟨hc, ht⟩ := htouch (ht.unseen h.mem hs.inv hun) hv (.inl (hnp.trans_le h.pages))
        exact ⟨hc, (by simp), ht⟩
      · rw [hnone hC] at hV
        cases hV
  rw [copyout_page, walk_false, ends_bind, ends_of_run (walk0_run hva)]
  cases hlow : low s.mem r va with
  | none => exact hlazy (by rw [pte_of_low_none hlow, has_zero])
  | some a =>
    simp only [Option.map_some, load64, ends_bind, ends_gets, pte_of_low hlow]
    refine ends_ite.mpr ⟨fun hno => hlazy (by simpa using hno), fun hV => ?_⟩
    obtain ⟨hc, ht⟩ := hquiet h.inv (.refl s)
    rw [ends_bind]
    refine walkaddr_ends.mono ?_
    rintro pa0 t ⟨hst, hpa⟩
    subst hst
    refine ends_ite.mpr ⟨fun _ => ⟨hc, (by simp), ht⟩, fun h0 => ?_⟩
    obtain ⟨-, hV, hU, rfl⟩ := hpa h0
    have hv := h.inv.user_of_U hr hv3 hU
    refine (copyout_check_ends h.toSane hr hva hL hlow).mono fun res t' hres => ?_
    rcases hres with ⟨rfl, hres⟩ | ⟨hC, hres⟩
    · refine ⟨hc, fun pa hpa => ?_, ht⟩
      obtain ⟨rfl, hW⟩ := hres pa hpa
      exact ⟨hv, r, .inl rfl, points_some hV, hW⟩
    · -- A new program has no copy-on-write page.
      have hrq : r = q := by
        by_contra hne
        have := (h.own hne _ hv _ (points_some hV)).1
        rw [hC] at this
        cases this
      rcases hres with ⟨rfl, hs, hun⟩ | ⟨-, ht, hres⟩
      · obtain ⟨hc, ht⟩ := hquiet hs.inv (.of_unseen hun h.mem)
        exact ⟨hc, (by simp), ht⟩
      · obtain ⟨hc, ht⟩ := htouch (hrq ▸ ht) hv (.inr (by rw [← hrq]; simp [present, hV]))
        exact ⟨hc, fun pa hpa => ⟨hv, r, .inl rfl, hres pa hpa⟩, ht⟩

/-! ## Whole copies -/

omit [Image] in
@[simp] theorem blit_ok {a : Nat} {bs : List Byte} {u : Unit} :
    blit a bs s = .ok (u, s') ↔ s' = { s with mem := s.mem.blit a bs } := update_ok _ _

omit [Image] in
theorem OnPage.blit {m : Mem} {pa off : Nat} {bs : List Byte} (h : off + bs.length ≤ PGSIZE) :
    OnPage pa m (m.blit (pa + off) bs) := by
  intro a ha
  apply Mem.blit_of_outside
  omega

theorem Copied.blit {pa off : Nat} {bs : List Byte} (h : Inv n₀ L s T H) (hr : r ∈ T) (hqT : q ∈ T)
    (hw : Writable s r q v pa) (hoff : off + bs.length ≤ PGSIZE)
    (ht : t = { s with mem := s.mem.blit (pa + off) bs }) :
    Copied n₀ L T H r q n s t ∧ ∀ v', CowShared s r v' → CowShared t r v' := by
  obtain ⟨hv, r', hr', hpt, hW⟩ := hw
  have hrT : r' ∈ T := by
    rcases hr' with rfl | rfl
    · exact hr
    · exact hqT
  have hpage := h.page_leaf hrT hv hpt
  have hm : OnPage pa s.mem t.mem := by
    rw [ht]
    exact OnPage.blit hoff
  have hcount : t.count = s.count := by rw [ht]
  obtain ⟨hinv, hev, hkeep⟩ := h.write_own hpage (fun x hx => h.writable_only hrT hv hpt hW hx) hm
    (by rw [ht]) hcount (by rw [ht]) (by rw [ht])
  have hstill : ∀ r' ∈ T, Still r' s t := by
    intro r' hr' v' _
    rw [hkeep.pte hr' v']
    exact ⟨id, fun _ => rfl⟩
  refine ⟨⟨hinv, ?_, (hstill q hqT).bound, fun v hv hu => (hstill q hqT v hv).2 hu, ?_,
    fun _ => .of_off hqT hkeep (by rw [ht]) (by rw [ht]), fun hs => hs.sheds (.of_off hkeep (by rw [ht]))⟩, ?_⟩
  · refine hev.mono ?_ (Finset.Subset.refl H)
    rcases hr' with rfl | rfl
    · exact Finset.erase_subset _ _
    · exact Finset.erase_subset_erase _ (Finset.erase_subset _ _)
  · refine fun _ => ⟨hstill r hr, ?_⟩
    intro hpriv v' hv' P hP
    rw [hkeep.pte hr v'] at hP ⊢
    simp only [refs, hcount]
    exact hpriv v' hv' P hP
  · intro v' hsh P hP hC
    rw [hkeep.pte hr v'] at hP hC
    simp only [refs, hcount]
    exact hsh P hP hC

theorem copyout_loop_ends {fuel dstva : Nat} {src : List Byte} (h : Copying n₀ L Z T H i r q n s)
    (hE : r ≠ q → E "mappages: remap")
    (hL : L → r = q → ∀ v < 512 ^ 3, dstva / PGSIZE ≤ v → v * PGSIZE < dstva + src.length → CowShared s r v) :
    Ends (copyout_loop i r fuel dstva src) s (fun _ t => Copied n₀ L T H r q n s t) E := by
  induction fuel generalizing s dstva src with
  | zero => exact h.refl
  | succ fuel ih =>
    rw [copyout_loop]
    refine ends_ite.mpr ⟨fun _ => h.refl, fun hlen => ends_ite.mpr ⟨fun _ => h.refl, fun hge => ?_⟩⟩
    have hdown : PGROUNDDOWN dstva = dstva / 4096 * 4096 := rfl
    have hv3 : PGROUNDDOWN dstva / PGSIZE < 512 ^ 3 := page_number_lt (by omega)
    have hfirst : L → CowShared s r (PGROUNDDOWN dstva / PGSIZE) := by
      intro hl
      by_cases hrq : r = q
      · refine hL hl hrq _ hv3 (by rw [PGROUNDDOWN_div]) ?_
        rw [PGROUNDDOWN_div]
        simp only [PGSIZE]
        omega
      · -- A new program has no copy-on-write page.
        intro P hP hC
        have hv := h.inv.user_of_COW h.through hv3 hC
        rw [(h.own hrq _ hv P hP).1] at hC
        cases hC
    rw [ends_bind]
    refine (copyout_page_ends h hE (by omega) hfirst).mono ?_
    rintro pa t ⟨hc, hw, htouch⟩
    cases pa with
    | none => exact hc
    | some pa =>
      have hlen' : dstva - PGROUNDDOWN dstva +
          (src.take (min (PGSIZE - (dstva - PGROUNDDOWN dstva)) src.length)).length ≤ PGSIZE := by
        rw [List.length_take, hdown]
        simp only [PGSIZE]
        omega
      obtain ⟨hc', hkeep'⟩ := Copied.blit (n := n) hc.inv h.through h.mem (hw pa rfl) hlen' rfl
      rw [ends_bind, blit, ends_update]
      refine (ih ((h.copied hc).copied hc') fun hl hrq v hv hlo hhi => ?_).mono fun _ _ => (hc.trans hc').trans
      rw [List.length_drop, hdown] at hhi
      rw [hdown] at hlo
      simp only [PGSIZE] at hlo hhi
      refine hkeep' v ((htouch hrq).cowShared h.inv h.through hv ?_ (hL hl hrq v hv ?_ ?_))
      · rw [PGROUNDDOWN_div]
        simp only [PGSIZE]
        omega
      · simp only [PGSIZE]
        omega
      · simp only [PGSIZE]
        omega

theorem copyin_page_ends (h : Copying n₀ L Z T H i r q n s) (hE : r ≠ q → E "mappages: remap") :
    Ends (copyin_page i r va) s (fun _ t => Copied n₀ L T H r q n s t) E := by
  rw [copyin_page, ends_bind]
  refine walkaddr_ends.mono ?_
  rintro _ t ⟨ht, _⟩
  subst ht
  refine ends_ite.mpr ⟨fun _ => ?_, fun _ => h.refl⟩
  refine (vmfault_ends h.toSane h.lt h.root h.mem hE).mono fun pa t' hres => ?_
  rcases hres with ⟨-, hs, hg⟩ | ⟨-, hnp, -, ht, -⟩
  · exact .of_grows h.through h.mem hs.inv hg
  · exact .of_touches h.through h.mem ht (hnp.trans_le (npages_le (h.sized i h.lt))) (.inl (hnp.trans_le h.pages))

theorem copyin_loop_ends {fuel srcva len : Nat} {dst : List Byte} (h : Copying n₀ L Z T H i r q n s)
    (hE : r ≠ q → E "mappages: remap") :
    Ends (copyin_loop i r fuel dst srcva len) s (fun _ t => Copied n₀ L T H r q n s t) E := by
  induction fuel generalizing s dst srcva len with
  | zero => exact h.refl
  | succ fuel ih =>
    rw [copyin_loop]
    refine ends_ite.mpr ⟨fun _ => h.refl, fun _ => ?_⟩
    rw [ends_bind]
    refine (copyin_page_ends h hE).mono fun pa t hc => ends_ite.mpr ⟨fun _ => hc, fun _ => ?_⟩
    rw [ends_bind, ends_gets]
    exact (ih (h.copied hc)).mono fun _ _ => hc.trans

end copyout

theorem copyinstr_loop_ends {fuel srcva max : Nat} {dst : List Byte} :
    Ends (copyinstr_loop r fuel dst srcva max) s (fun _ t => t = s) E := by
  induction fuel generalizing dst srcva max with
  | zero => rfl
  | succ fuel ih =>
    rw [copyinstr_loop]
    refine ends_ite.mpr ⟨fun _ => rfl, fun _ => ?_⟩
    rw [ends_bind]
    refine walkaddr_ends.mono ?_
    rintro pa t ⟨ht, _⟩
    subst ht
    refine ends_ite.mpr ⟨fun _ => rfl, fun _ => ?_⟩
    rw [ends_bind, ends_gets]
    exact ends_ite.mpr ⟨fun _ => rfl, fun _ => ih⟩

end Xv6
