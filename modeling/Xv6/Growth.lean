import Xv6.Atomic

/-!
# Growing memory

A request for more memory either maps all of the new pages, each to a page of zeros of its own, or it leaves the
mappings as they were.
-/

open Xv6.Lib Op Radix

namespace Xv6

variable [Image] {n₀ : Nat} {L : Prop} {s s' t : Kernel} {T H C : Finset Nat} {i r va v P old new : Nat} {xperm : Pte}

/-! ## Failures on the way -/

theorem uvmalloc_loop_counts {n : Nat} {ok : Bool} (h : uvmalloc_loop r old xperm n va s = .ok (ok, s')) :
    Counts (ok = false) s s' := by
  have hback : ∀ {t : Kernel} {sz : Nat} {t' : Kernel}, s.kalloc_failures < t.kalloc_failures →
      uvmdealloc r va old t = .ok (sz, t') → Counts (false = false) s t' := fun hlt hd =>
    .of_lt rfl (hlt.trans_le (Later.forks.uvmdealloc _ _ _ _ _ _ hd).failures)
  induction n generalizing va s with
  | zero =>
    simp only [uvmalloc_loop, pure_ok] at h
    obtain ⟨rfl, rfl⟩ := h
    exact .of_not (by simp) rfl
  | succ n ih =>
    simp only [uvmalloc_loop, bind_ok] at h
    obtain ⟨mem, t, halloc, h⟩ := h
    have hc := kalloc_counts halloc
    cases mem with
    | none =>
      simp only [bind_ok, pure_ok] at h
      obtain ⟨sz, t₁, hd, rfl, rfl⟩ := h
      exact hback (hc.1 rfl) hd
    | some p =>
      simp only [bind_ok, memset_ok] at h
      obtain ⟨_, t₁, rfl, res, t₂, hmap, h⟩ := h
      have hm := (mappages_counts hmap).after (s := s) (hc.2 (by simp))
      split_ifs at h with hres
      · simp only [bind_ok, pure_ok] at h
        obtain ⟨_, t₃, hfree, sz, t₄, hd, rfl, rfl⟩ := h
        obtain ⟨-, -, rfl⟩ := kfree_ok hfree
        exact hback (by rw [freed_failures]; exact hm.1 hres) hd
      · exact (ih h (fun hlt hd => .of_lt rfl (hlt.trans_le (Later.forks.uvmdealloc _ _ _ _ _ _ hd).failures))).after
          (hm.2 hres)

theorem uvmalloc_result {res : Nat} (hle : old ≤ new) (h : uvmalloc r old new xperm s = .ok (res, s')) :
    s'.kalloc_failures ≠ s.kalloc_failures ∧ res = 0 ∨ s'.kalloc_failures = s.kalloc_failures ∧ res = new := by
  unfold uvmalloc at h
  rw [if_neg (by omega), bind_ok] at h
  obtain ⟨ok, t, hloop, h⟩ := h
  have hc := uvmalloc_loop_counts hloop
  cases ok with
  | false =>
    simp only [Bool.false_eq_true, if_false, pure_ok] at h
    rw [h.2]
    exact .inl ⟨hc.iff_ne.mp rfl, h.1⟩
  | true =>
    simp only [if_true, pure_ok] at h
    rw [h.2]
    exact .inr ⟨hc.2 (by simp), h.1⟩

theorem growproc_failed {n : Int} (hn : 0 < n) (hend : (s.proc i).sz + n.toNat ≤ TRAPFRAME)
    (h : uvmalloc (s.proc i).pagetable (s.proc i).sz ((s.proc i).sz + n.toNat) PTE_W s = .ok (0, t)) :
    growproc i n s = .ok (-1, t) := by
  rw [growproc, getProc, run_bind (run_gets _), if_pos hn, if_neg (by omega), run_bind h]
  rfl

/-! ## What is left of a request that failed -/

/-- The page a leaf maps, in memory or on disk, with its permissions. -/
def mapping (m : Mem) (r v : Nat) : Option Pte := if present (pte m r v) then some (pte m r v) else none

section
omit [Image]

theorem mapping_absent {m : Mem} (h : present (pte m r v) = false) : mapping m r v = none := by
  simp [mapping, h]

theorem Bound.absent {m : Mem} {n : Nat} (h : Bound m r n) (hv : v < UPAGES) (hn : n ≤ v) : present (pte m r v) = false := by
  by_contra hp
  have := h v hv (eq_true_of_ne_false hp)
  omega

theorem points_of_mapping (h : mapping t.mem r v = mapping s.mem r v) (hP : points (pte t.mem r v) = some P) :
    points (pte s.mem r v) = some P := by
  have hV := (valid_of_points hP).1
  have hp : present (pte t.mem r v) = true := by simp [present, hV]
  rw [mapping, if_pos hp, mapping] at h
  split_ifs at h
  rw [Option.some.injEq] at h
  rw [← h, hP]

/-- The mappings are those of before, and of the free pages only new tables of `r` are missing. -/
structure Withdrawn (T : Finset Nat) (r : Nat) (s t : Kernel) : Prop where
  leaves : ∀ r' ∈ T, ∀ v < 512 ^ 3, mapping t.mem r' v = mapping s.mem r' v
  pages : ∀ P ∈ s.freelist, P ∈ t.freelist ∨ ∃ n, node t.mem r n = some P
  proc : t.proc = s.proc

theorem withdrawn_leaves (hr : r ∈ T) (ho : Only T r (Set.Ici (npages old)) s t)
    (htop : ∀ v < 512 ^ 3, UPAGES ≤ v → pte t.mem r v = pte s.mem r v) (hb : Bound s.mem r (npages old))
    (hb' : Bound t.mem r (npages old)) (hsw : t.stats.swap_outs = s.stats.swap_outs) :
    ∀ r' ∈ T, ∀ v < 512 ^ 3, mapping t.mem r' v = mapping s.mem r' v := by
  intro r' hr' v hv
  by_cases he : r' = r
  · subst he
    by_cases hlow : v < npages old
    · rw [mapping, mapping, ho.calm hsw v hv fun hin => absurd hlow (Nat.not_lt.mpr hin)]
    by_cases hup : v < UPAGES
    · rw [mapping_absent (hb'.absent hup (by omega)), mapping_absent (hb.absent hup (by omega))]
    · rw [mapping, mapping, htop v hv (by omega)]
  · rw [mapping, mapping, ho.others.calm hsw r' (Finset.mem_erase.mpr ⟨he, hr'⟩) v hv]

end

theorem withdrawn_pages (h : Inv n₀ L s T H) (h' : Inv n₀ L t T H) (hret : Retains s t)
    (ho : Only T r (Set.Ici (npages old)) s t)
    (hl : ∀ r' ∈ T, ∀ v < 512 ^ 3, mapping t.mem r' v = mapping s.mem r' v) :
    ∀ P ∈ s.freelist, P ∈ t.freelist ∨ ∃ n, node t.mem r n = some P := by
  intro P hP
  have hpage := h.page_free hP
  refine (hret P hpage (.inl hP)).imp_right fun hpos => ?_
  obtain ⟨x, hx⟩ := h'.books.exists_of_pos hpage hpos
  cases x with
  | leaf r' v =>
    rw [goal] at hx
    split_ifs at hx with hin
    have hpts := points_of_mapping (hl r' hin.1 v (hin.2.trans UPAGES_lt)) hx
    exact absurd (by rw [goal_leaf hin.1 hin.2, hpts]) (h.books.free_none hP (.leaf r' v))
  | table r' n =>
    rw [goal] at hx
    split_ifs at hx with hr'
    by_cases he : r' = r
    · exact ⟨n, he ▸ hx⟩
    · rw [ho.tables hr' he] at hx
      exact absurd hx (h.free_not_table hP hr')
  | held p =>
    rw [goal] at hx
    split_ifs at hx with hin
    cases hx
    exact absurd hP (h.held_not_free hin)

/-! ## What a request gets -/

/-- The new pages are mapped, each to a page of zeros of its own, and no others. -/
structure Grew (T : Finset Nat) (r old new : Nat) (xperm : Pte) (s t : Kernel) : Prop where
  mapped : ∀ v, npages old ≤ v → v < npages new → UserPte xperm (pte t.mem r v)
  zero : ∀ v, npages old ≤ v → v < npages new → ∀ k < PGSIZE, t.mem (PTE2PA (pte t.mem r v) + k) = 0
  distinct : ∀ v, npages old ≤ v → v < npages new → ∀ v', npages old ≤ v' → v' < npages new →
    PTE2PA (pte t.mem r v) = PTE2PA (pte t.mem r v') → v = v'
  others : ∀ r' ∈ T, ∀ v < UPAGES, (r' = r → v < npages old ∨ npages new ≤ v) → has (pte t.mem r' v) PTE_V = true →
    pte t.mem r' v = pte s.mem r' v
  calm : t.stats.swap_outs = s.stats.swap_outs → ∀ r' ∈ T, ∀ v < 512 ^ 3,
    (r' = r → v < npages old ∨ npages new ≤ v) → pte t.mem r' v = pte s.mem r' v

theorem Filled.grew (h : Filled T H r (npages old) (npages new) xperm s t) (ht : Inv n₀ L t T H) (hr : r ∈ T)
    (hup : npages new ≤ UPAGES) (hcalm : t.stats.swap_outs = s.stats.swap_outs ∨ Spared s r (npages old)) :
    Grew T r old new xperm s t := by
  have hpts : ∀ v, npages old ≤ v → v < npages new → points (pte t.mem r v) = some (PTE2PA (pte t.mem r v)) :=
    fun v h1 h2 => points_some (h.user hcalm v ⟨h1, h2⟩).valid
  have hout : ∀ {v}, v < npages old ∨ npages new ≤ v → v ∉ Set.Ico (npages old) (npages new) := fun hv hin => by
    have h1 := hin.1
    have h2 := hin.2
    omega
  refine ⟨fun v h1 h2 => h.user hcalm v ⟨h1, h2⟩, fun v h1 h2 => (h.blank v ⟨h1, h2⟩ _ (hpts v h1 h2)).2, ?_, ?_, ?_⟩
  · intro v h1 h2 v' h1' h2' he
    have hone := (h.blank v ⟨h1, h2⟩ _ (hpts v h1 h2)).1
    cases ht.only_leaf hr (by omega) (hpts v h1 h2) hone.le (x := .leaf r v')
      (by rw [goal_leaf hr (by omega), hpts v' h1' h2', he])
    rfl
  · intro r' hr' v hv hno hV
    exact h.lone.valid r' hr' v hv (fun he => hout (hno he)) hV
  · intro hsw r' hr' v hv hno
    by_cases he : r' = r
    · rw [he]
      exact h.only.calm hsw v hv (hout (hno he))
    · exact h.only.others.calm hsw r' (Finset.mem_erase.mpr ⟨he, hr'⟩) v hv

theorem Grew.restored (h : Grew T r old new xperm s t) (ht : Sane n₀ L True T H t) (hr : r ∈ T) (hle : old ≤ new)
    (hnew : new ≤ TRAPFRAME) (hb : Bound s.mem r (npages old)) (hsw : t.stats.swap_outs = s.stats.swap_outs) :
    ∃ u, uvmdealloc r new old t = .ok (old, u) ∧ ∀ r' ∈ T, ∀ v < 512 ^ 3, mapping u.mem r' v = mapping s.mem r' v := by
  have hup := npages_le hnew
  have hends : Ends (uvmdealloc r new old) t _ _ := uvmdealloc_ends ht.inv ht.slots hr hnew
  cases hrun : uvmdealloc r new old t with
  | error msg => exact absurd trivial (hends.of_error hrun).1
  | ok res =>
    obtain ⟨sz, u⟩ := res
    obtain ⟨hsz, hun⟩ := hends.of_ok hrun
    rw [Nat.min_eq_right hle] at hsz
    refine ⟨u, by rw [hsz], fun r' hr' v hv => ?_⟩
    by_cases he : r' = r
    · subst he
      by_cases hin : npages old ≤ v ∧ v < npages new
      · rw [mapping_absent (hun.gone v hin.1 (by omega)), mapping_absent (hb.absent (by omega) hin.1)]
      · have hsame : pte u.mem r' v = pte t.mem r' v :=
          (hun.leaves v hv).resolve_right fun hbad => hin ⟨hbad.1.1, by have := hbad.1.2; omega⟩
        rw [mapping, mapping, hsame, h.calm hsw r' hr v hv fun _ => by omega]
    · rw [mapping, mapping, hun.others.calm hun.swaps r' (Finset.mem_erase.mpr ⟨he, hr'⟩) v hv,
        h.calm hsw r' hr' v hv fun hbad => absurd hbad he]

/-- `uvmalloc` comes to its end. If a `kalloc` failed and nothing was swapped out, it returns 0 and the mappings are those of
before. If none failed, the new pages are there, and `uvmdealloc` takes them away again. -/
theorem uvmalloc_atomic (h : Sane n₀ L True T H s) (hr : r ∈ T) (hx : Small xperm) (hxs : has xperm PTE_SWAPPED = false)
    (hxc : has xperm PTE_COW = false) (hle : old ≤ new) (hnew : new ≤ TRAPFRAME) (hb : Bound s.mem r (npages old)) :
    ∃ res t, uvmalloc r old new xperm s = .ok (res, t) ∧
      (t.kalloc_failures ≠ s.kalloc_failures → t.stats.swap_outs = s.stats.swap_outs → res = 0 ∧ Withdrawn T r s t ∧
        ∀ i, (s.proc i).pagetable = r → (s.proc i).sz = old → xperm = PTE_W → old < new →
          growproc i (new - old) s = .ok (-1, t)) ∧
      (t.kalloc_failures = s.kalloc_failures → res = new ∧
        (t.stats.swap_outs = s.stats.swap_outs ∨ Spared s r (npages old) → Grew T r old new xperm s t) ∧
        (t.stats.swap_outs = s.stats.swap_outs → ∃ u, uvmdealloc r new old t = .ok (old, u) ∧
          ∀ r' ∈ T, ∀ v < 512 ^ 3, mapping u.mem r' v = mapping s.mem r' v)) := by
  have hends := uvmalloc_ends h hr hx hxs hxc (hle.trans hnew) hb (.inl hnew)
  cases hrun : uvmalloc r old new xperm s with
  | error msg => exact absurd trivial (hends.of_error hrun).1
  | ok res =>
    obtain ⟨res, t⟩ := res
    have hal := hends.of_ok hrun
    have ho := hal.only
    have hs := hal.sane
    refine ⟨res, t, rfl, fun hfail hsw => ?_, fun hok => ?_⟩
    · obtain ⟨-, rfl⟩ := (uvmalloc_result hle hrun).resolve_right fun hbad => hfail hbad.1
      have hl := withdrawn_leaves hr ho hal.grown.top hb (hal.failed rfl) hsw
      refine ⟨rfl, ⟨hl, withdrawn_pages h.inv hs.inv (Retains.forks.uvmalloc _ _ _ _ _ _ _ hrun) ho hl, ho.proc⟩, ?_⟩
      rintro i rfl rfl rfl hlt
      have hn : ((new : Int) - (s.proc i).sz).toNat = new - (s.proc i).sz := by omega
      refine growproc_failed (by omega) (by omega) ?_
      rw [hn, Nat.add_sub_cancel' hle]
      exact hrun
    · obtain ⟨-, rfl⟩ := (uvmalloc_result hle hrun).resolve_left fun hbad => hbad.1 hok
      have hgrew : t.stats.swap_outs = s.stats.swap_outs ∨ Spared s r (npages old) → Grew T r old res xperm s t := by
        intro hcalm
        by_cases h0 : res = 0
        · obtain rfl : old = 0 := by omega
          subst h0
          have hnone : uvmalloc r 0 0 xperm s = .ok (0, s) := rfl
          cases hnone.symm.trans hrun
          exact (Filled.nil s).grew hs.inv hr (npages_le hnew) hcalm
        · exact (hal.filled h0).grew hs.inv hr (npages_le hnew) hcalm
      exact ⟨rfl, hgrew, fun hsw => (hgrew (.inl hsw)).restored hs hr hle hnew hb hsw⟩

omit [Image] in
theorem uvmalloc_atomic_two_four : ∃ y s₁ s₂, @run smallImage forkRun bootSystem = some y ∧ ∃ r old,
    @uvmalloc smallImage r old (old + 2 * PGSIZE) PTE_W y.kernel = .ok (old + 2 * PGSIZE, s₁) ∧
    Grew (roots y.kernel.proc) r old (old + 2 * PGSIZE) PTE_W y.kernel s₁ ∧
    @growproc smallImage 0 ((old + 4 * PGSIZE : Nat) - old) y.kernel = .ok (-1, s₂) ∧
    Withdrawn (roots y.kernel.proc) r y.kernel s₂ := by
  have heval : ((@run smallImage forkRun bootSystem).map fun y =>
      let p := y.kernel.proc 0
      decide (p.state ≠ .UNUSED ∧ p.sz = PGSIZE) &&
      ((@uvmalloc smallImage p.pagetable p.sz (p.sz + 2 * PGSIZE) PTE_W y.kernel).toOption.all fun x => decide
        (x.2.kalloc_failures = y.kernel.kalloc_failures ∧ x.2.stats.swap_outs = y.kernel.stats.swap_outs)) &&
      ((@uvmalloc smallImage p.pagetable p.sz (p.sz + 4 * PGSIZE) PTE_W y.kernel).toOption.all fun x => decide
        (x.2.kalloc_failures ≠ y.kernel.kalloc_failures ∧ x.2.stats.swap_outs = y.kernel.stats.swap_outs))) =
      some true := by
    decide +kernel
  obtain ⟨y, hy, hval⟩ := Option.map_eq_some_iff.mp heval
  rw [Bool.and_eq_true, Bool.and_eq_true] at hval
  obtain ⟨⟨hproc, htwo⟩, hfour⟩ := hval
  obtain ⟨hu, hsz⟩ := of_decide_eq_true hproc
  let : Image := smallImage
  have hg := bootSystem_booted.run_good hy
  have hslots := bootSystem_booted.run_slots (by simp [forkRun, Action.Fits, Call.Fits]) hy
  have hs := hg.sane (Z := True) fun _ => hslots
  have hr := hg.root_mem (i := 0) (by decide) hu
  have hb := ((hg.slots 0 (by decide)).used hu).bound
  have hW : Small PTE_W ∧ has PTE_W PTE_SWAPPED = false ∧ has PTE_W PTE_COW = false := ⟨small_W, by decide, by decide⟩
  obtain ⟨res₁, s₁, hrun₁, -, hok⟩ := uvmalloc_atomic hs hr hW.1 hW.2.1 hW.2.2
    (show (y.kernel.proc 0).sz ≤ (y.kernel.proc 0).sz + 2 * PGSIZE by omega) (by rw [hsz]; decide) hb
  obtain ⟨res₂, s₂, hrun₂, hfail, -⟩ := uvmalloc_atomic hs hr hW.1 hW.2.1 hW.2.2
    (show (y.kernel.proc 0).sz ≤ (y.kernel.proc 0).sz + 4 * PGSIZE by omega) (by rw [hsz]; decide) hb
  rw [hrun₁] at htwo
  rw [hrun₂] at hfour
  obtain ⟨hf₁, hsw₁⟩ := of_decide_eq_true htwo
  obtain ⟨hf₂, hsw₂⟩ := of_decide_eq_true hfour
  obtain ⟨rfl, hgrew, -⟩ := hok hf₁
  obtain ⟨rfl, hback, hgrow⟩ := hfail hf₂ hsw₂
  exact ⟨y, s₁, s₂, hy, _, _, hrun₁, hgrew (.inl hsw₁), hgrow 0 rfl rfl rfl (by simp only [PGSIZE]; omega), hback⟩

end Xv6
