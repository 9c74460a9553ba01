import Xv6.Locks
import Xv6.Pressure

/-!
# A page table as a map

`mappages` on any well-formed table, for any physical addresses and flags.
-/

open Xv6.Lib Op Radix

namespace Xv6

variable [Image] {s t : Kernel} {r va p a : Nat} {perm : Pte}

/-- No table below `r` is reached by two paths, and none of them is free. -/
structure WellFormed (s : Kernel) (r : Nat) : Prop where
  forest : Forest points s.mem {r}
  nodup : s.freelist.Nodup
  free : ∀ p ∈ s.freelist, Page p ∧ ∀ n, node s.mem r n ≠ some p

structure Deeper (r : Nat) (s t : Kernel) : Prop where
  nodes : ∀ n p, node s.mem r n = some p → node t.mem r n = some p
  leaves : ∀ v, pte t.mem r v = pte s.mem r v

omit [Image] in
theorem Deeper.trans {u : Kernel} (h : Deeper r s t) (h' : Deeper r t u) : Deeper r s u :=
  ⟨fun n p hp => h'.nodes n p (h.nodes n p hp), fun v => (h'.leaves v).trans (h.leaves v)⟩

theorem Inv.wellFormed {n₀ : Nat} {L : Prop} {T H : Finset Nat} (h : Inv n₀ L s T H) (hr : r ∈ T) : WellFormed s r :=
  ⟨h.forest.subset (Finset.singleton_subset_iff.mpr hr), h.books.nodup,
    fun _ hp => ⟨h.page_free hp, fun _ => h.free_not_table hp hr⟩⟩

/-! ## Walking down -/

theorem kalloc_pop (h : kalloc s = .ok (some p, t)) (hsw : t.stats.swap_outs = s.stats.swap_outs) :
    ∃ rest, s.freelist = p :: rest ∧ t = taken p rest s := by
  obtain ⟨_, rest, hfree, ⟨⟩, rfl⟩ | ⟨-, v, u, hvictim, hend⟩ := kalloc_ok h
  · exact ⟨rest, hfree, rfl⟩
  · obtain ⟨-, hbad, -⟩ | ⟨rfl, _, rest, -, -, rfl⟩ := hend
    · cases hbad
    obtain ⟨hbad, -⟩ | ⟨-, i, -, -, -, x, -, hout⟩ := victim_scan_ok NPROC (Nat.le_refl _) hvictim
    · cases hbad
    obtain ⟨hbad, -⟩ | ⟨-, -, q, k, -, -, -, -, w, rfl, rfl⟩ := swapout_ok hout
    · cases hbad
    simp only [taken, freed_swap_outs, paged_out] at hsw
    omega

namespace WellFormed

theorem hang {n n' : Node} {q : Nat} {k : Fin 512} {rest : List Nat} (h : WellFormed s r) (hq : node s.mem r n = some q)
    (hc : child n k = some n') (hold : node s.mem r n' = none) (hfree : s.freelist = p :: rest)
    (hmem : t.mem = ((s.mem.fill p PGSIZE 5).fill p PGSIZE 0).store64 (q + 8 * k) (PA2PTE p ||| PTE_V))
    (hlist : t.freelist = rest) : WellFormed t r ∧ Deeper r s t ∧ node t.mem r n' = some p := by
  have hr := Finset.mem_singleton_self r
  obtain ⟨hpage, hnot⟩ := h.free p (by simp [hfree])
  have hnone : ∀ r' ∈ ({r} : Finset Nat), ∀ n, node s.mem r' n ≠ some p := by simpa using hnot
  have hoff : Off {r} s.mem (s.mem.fill p PGSIZE 5) :=
    Off.of_page h.forest.aligned hpage.aligned hnone (OnPage.fill s.mem p 5)
  obtain ⟨hset, hent⟩ := hang_tables (h.forest.congr fun _ hr n => hoff.node hr n) hr ((hoff.node hr n).trans hq) hc
    ((hoff.node hr n').trans hold) hpage.aligned hpage.small
    (fun r' hr' n => by rw [hoff.node hr']; exact hnone r' hr' n) hmem
  have hnodes : ∀ r' ∈ ({r} : Finset Nat), ∀ x, node t.mem r' x = if r' = r ∧ x = n' then some p else node s.mem r' x :=
    fun r' hr' x => by rw [hset.tables r' hr', hoff.node hr']
  obtain ⟨hfresh, hnodup⟩ := List.nodup_cons.mp (hfree ▸ h.nodup)
  refine ⟨⟨forest_hang h.forest hnodes hpage.aligned hnone, hlist ▸ hnodup, fun p' hp' => ?_⟩,
    ⟨fun x q' hx => ?_, fun v => (hent r hr v).trans (hoff.pte hr v)⟩, ?_⟩
  · rw [hlist] at hp'
    obtain ⟨hpage', hnot'⟩ := h.free p' (by rw [hfree]; exact List.mem_cons_of_mem _ hp')
    refine ⟨hpage', fun x hx => ?_⟩
    rw [hnodes r hr] at hx
    split_ifs at hx
    · cases hx
      exact hfresh hp'
    · exact hnot' x hx
  · rw [hnodes r hr, if_neg, hx]
    rintro ⟨-, rfl⟩
    rw [hold] at hx
    cases hx
  · rw [hnodes r hr, if_pos ⟨rfl, rfl⟩]

theorem walk_level {n n' : Node} {q level c : Nat} {k : Fin 512} (h : WellFormed s r) (hq : node s.mem r n = some q)
    (hc : child n k = some n') (hk : PX level va = k) (hrun : walk_level (some kalloc) q level va s = .ok (some c, t))
    (hsw : t.stats.swap_outs = s.stats.swap_outs) : WellFormed t r ∧ Deeper r s t ∧ node t.mem r n' = some c := by
  unfold Xv6.walk_level at hrun
  simp only [bind_ok, load64_ok, hk] at hrun
  obtain ⟨e, t, ⟨rfl, rfl⟩, hrun⟩ := hrun
  have hnode : node t.mem r n' = points (t.mem.load64 (q + 8 * k)) := table_child hq hc
  split_ifs at hrun with hV
  · simp only [pure_ok] at hrun
    obtain ⟨⟨⟩, rfl⟩ := hrun
    exact ⟨h, ⟨fun _ _ hp => hp, fun _ => rfl⟩, hnode.trans (points_some hV)⟩
  · simp only [bind_ok] at hrun
    obtain ⟨res, u, halloc, hrun⟩ := hrun
    cases res with
    | none => simp at hrun
    | some p =>
      simp only [bind_ok, memset_ok, store64_ok, pure_ok] at hrun
      obtain ⟨_, _, rfl, _, _, rfl, ⟨⟩, rfl⟩ := hrun
      obtain ⟨rest, hfree, rfl⟩ := kalloc_pop halloc hsw
      exact h.hang hq hc (hnode.trans (points_none (by simpa using hV))) hfree rfl rfl

theorem walk {b : Bool} (h : WellFormed s r) (hrun : walk r va b s = .ok (some a, t))
    (hsw : t.stats.swap_outs = s.stats.swap_outs) :
    va < MAXVA ∧ WellFormed t r ∧ Deeper r s t ∧ ∃ q, low t.mem r va = some q ∧ a = q + 8 * (lo (va / PGSIZE) : Nat) := by
  cases b with
  | false =>
    obtain ⟨hva, rfl, hres⟩ := walk0_ok hrun
    obtain ⟨q, hq, rfl⟩ := Option.map_eq_some_iff.mp hres.symm
    exact ⟨hva, h, ⟨fun _ _ hp => hp, fun _ => rfl⟩, q, hq, rfl⟩
  | true =>
    unfold Xv6.walk walk_with at hrun
    simp only [if_true] at hrun
    split_ifs at hrun with hva
    · simp at hrun
    simp only [bind_ok] at hrun
    obtain ⟨t1, s₁, hlevel₁, hrun⟩ := hrun
    cases t1 with
    | none => simp at hrun
    | some t1 =>
      simp only [bind_ok] at hrun
      obtain ⟨t0, s₂, hlevel₂, hrun⟩ := hrun
      cases t0 with
      | none => simp at hrun
      | some t0 =>
        simp only [pure_ok] at hrun
        obtain ⟨⟨⟩, rfl⟩ := hrun
        have hle₁ := (Later.forks.walk_level _ _ _ _ _ _ hlevel₁).swaps
        have hle₂ := (Later.forks.walk_level _ _ _ _ _ _ hlevel₂).swaps
        obtain ⟨h₁, hg₁, hn₁⟩ := h.walk_level (n := .top) rfl rfl (PX_hi va) hlevel₁ (by omega)
        obtain ⟨h₂, hg₂, hn₂⟩ := h₁.walk_level hn₁ rfl (PX_md va) hlevel₂ (by omega)
        exact ⟨by omega, h₂, hg₁.trans hg₂, t0, hn₂, by rw [PX_lo]⟩

/-! ## The pages of a range -/

theorem store {q : Nat} (h : WellFormed s r) (hva : va < MAXVA) (hq : low s.mem r va = some q) (e : Pte) :
    WellFormed { s with mem := s.mem.store64 (q + 8 * (lo (va / PGSIZE) : Nat)) e } r ∧
      ∀ v < 512 ^ 3, pte (s.mem.store64 (q + 8 * (lo (va / PGSIZE) : Nat)) e) r v =
        if v = va / PGSIZE then e else pte s.mem r v := by
  have hr := Finset.mem_singleton_self r
  have hset := leafSet_store h.forest hr (page_number_lt hva) hq e
  refine ⟨⟨h.forest.congr hset.tables, h.nodup, fun p hp => ⟨(h.free p hp).1, fun n => ?_⟩⟩, fun v hv => ?_⟩
  · rw [hset.tables r hr]
    exact (h.free p hp).2 n
  · split_ifs with he
    · rw [he, hset.self hr (page_number_lt hva)]
    · exact hset.other hr hv fun hx => he hx.2

theorem mappages_loop {n pa : Nat} (h : WellFormed s r) (hal : va % PGSIZE = 0)
    (hrun : mappages_loop r perm n va pa s = .ok (0, t)) (hsw : t.stats.swap_outs = s.stats.swap_outs) :
    va + (n + 1) * PGSIZE ≤ MAXVA ∧ WellFormed t r ∧ ∀ v < 512 ^ 3, pte t.mem r v =
      if va / PGSIZE ≤ v ∧ v ≤ va / PGSIZE + n then PA2PTE (pa + (v - va / PGSIZE) * PGSIZE) ||| perm ||| PTE_V
      else pte s.mem r v := by
  have hr := Finset.mem_singleton_self r
  induction n generalizing s va pa with
  | zero =>
    obtain ⟨hbad, -⟩ | ⟨slot, u, w, hwalk, -, rfl, ⟨-, -, rfl⟩ | ⟨k, hk, -⟩⟩ := mappages_loop_ok hrun
    · cases hbad
    · obtain ⟨hva, hu, hgrow, q, hq, rfl⟩ := h.walk hwalk hsw
      obtain ⟨hwf, hset⟩ := hu.store hva hq (PA2PTE pa ||| perm ||| PTE_V)
      refine ⟨by simp only [PGSIZE, MAXVA] at *; omega, hwf, fun v hv => ?_⟩
      rw [hset v hv, hgrow.leaves]
      by_cases he : v = va / PGSIZE
      · rw [if_pos he, if_pos (by omega), he, Nat.sub_self, Nat.zero_mul, Nat.add_zero]
      · rw [if_neg he, if_neg (by omega)]
    · cases hk
  | succ n ih =>
    obtain ⟨hbad, -⟩ | ⟨slot, u, w, hwalk, -, rfl, ⟨hbad, -⟩ | ⟨k, hk, hrest⟩⟩ := mappages_loop_ok hrun
    · cases hbad
    · cases hbad
    · obtain rfl : n = k := Nat.succ.inj hk
      have hle₁ := (Later.forks.walk _ _ _ _ _ hwalk).swaps
      have hle₂ := (Later.forks.mappages_loop _ _ _ _ _ _ _ _ hrest).swaps
      obtain ⟨hva, hu, hgrow, q, hq, rfl⟩ := h.walk hwalk (by simp only at hle₂; omega)
      obtain ⟨hwf, hset⟩ := hu.store hva hq (PA2PTE pa ||| perm ||| PTE_V)
      obtain ⟨hmax, hwf', hpte⟩ := ih hwf (by rwa [Nat.add_mod_right]) hrest (by simp only at hle₂ ⊢; omega)
      refine ⟨by rw [Nat.succ_mul]; omega, hwf', fun v hv => ?_⟩
      rw [hpte v hv, next_page]
      by_cases he : v = va / PGSIZE
      · rw [if_neg (by omega), hset v hv, if_pos he, if_pos (by omega), he, Nat.sub_self, Nat.zero_mul, Nat.add_zero]
      · by_cases hin : va / PGSIZE ≤ v ∧ v ≤ va / PGSIZE + (n + 1)
        · rw [if_pos (by omega), if_pos hin, show v - va / PGSIZE = v - (va / PGSIZE + 1) + 1 by omega, Nat.succ_mul,
            Nat.add_assoc, Nat.add_comm PGSIZE]
        · rw [if_neg (by omega), if_neg hin, hset v hv, if_neg he, hgrow.leaves]

end WellFormed

omit [Image] in
theorem PTE2PA_mapped {pa : Nat} (hpa : pa % PGSIZE = 0) (hperm : Small perm) :
    PTE2PA (PA2PTE pa ||| perm ||| PTE_V) = pa % 2 ^ 64 := by
  rw [PTE2PA_or small_V, PTE2PA_or hperm]
  simp only [PTE2PA, PA2PTE, BitVec.toNat_shiftLeft, BitVec.toNat_ushiftRight, BitVec.toNat_ofNat, Nat.shiftLeft_eq,
    Nat.shiftRight_eq_div_pow, PGSIZE] at *
  omega

omit [Image] in
theorem PTE_FLAGS_mapped (pa : Nat) (hperm : Small perm) : PTE_FLAGS (PA2PTE pa ||| perm ||| PTE_V) = perm ||| PTE_V := by
  have hmask : ∀ i, (0x3FF#64).getLsbD i = decide (i < 10) := fun i => by
    by_cases hi : i < 10
    · interval_cases i <;> rfl
    · rw [Small.bit (f := 0x3FF#64) (by decide) (by omega), decide_eq_false hi]
  apply BitVec.eq_of_getLsbD_eq
  intro i hi
  rw [PTE_FLAGS, BitVec.getLsbD_and, hmask, BitVec.or_assoc, BitVec.getLsbD_or, PA2PTE, BitVec.getLsbD_shiftLeft]
  by_cases h10 : i < 10
  · simp [h10]
  · rw [(hperm.or small_V).bit (by omega)]
    simp [h10]

theorem walk_locked_ok {me : Nat} {held : List Nat} {b : Bool} {slot : Option Nat}
    (hrun : walk_with (if b then some (kalloc_locked me held) else none) r va s = .ok (slot, t)) :
    walk r va b s = .ok (slot, t) ∧ t.stats.swap_outs = s.stats.swap_outs := by
  cases b with
  | false => exact ⟨hrun, by rw [(walk0_ok hrun).2.1]⟩
  | true =>
    obtain ⟨hwalk, hcalm⟩ := (walk_mirrors (fun s => kalloc_locked_mirrors False.elim s) r va s).back slot t hrun
    exact ⟨hwalk, hcalm.swaps⟩

/-- Each page number has a slot of its own. -/
theorem WellFormed.slot_eq_iff {va' q q' : Nat} (h : WellFormed s r) (ha : va < MAXVA) (ha' : va' < MAXVA)
    (hq : low s.mem r va = some q) (hq' : low s.mem r va' = some q') :
    q + 8 * (lo (va / PGSIZE) : Nat) = q' + 8 * (lo (va' / PGSIZE) : Nat) ↔ va / PGSIZE = va' / PGSIZE := by
  have hr := Finset.mem_singleton_self r
  refine ⟨fun he => ?_, fun he => ?_⟩
  · have hal := h.forest.aligned r hr _ q hq
    have hal' := h.forest.aligned r hr _ q' hq'
    obtain ⟨rfl, hlo⟩ : q = q' ∧ lo (va / PGSIZE) = lo (va' / PGSIZE) := by
      have h1 := (lo (va / PGSIZE)).isLt
      have h2 := (lo (va' / PGSIZE)).isLt
      exact ⟨by omega, Fin.ext (by omega)⟩
    obtain ⟨-, hn⟩ := h.forest.inj r hr r hr _ _ q hq hq'
    obtain ⟨hhi, hmd⟩ := Node.low.inj hn
    exact digits_inj (page_number_lt ha) (page_number_lt ha') hhi hmd hlo
  · rw [low, he] at hq
    cases hq.symm.trans hq'
    rw [he]

/-- A call that succeeds maps the pages of the range, and no other entry changes. Each page number has an entry of its
own. No page is swapped out on the way, whatever locks are held. -/
theorem mappages_faithful {size pa me : Nat} {held : List Nat} (h : WellFormed s r) (hpa : pa % PGSIZE = 0)
    (hperm : Small perm) :
    (∀ t, mappages_with (kalloc_locked me held) r va size pa perm s = .ok (0, t) →
      (∀ k < size, ∃ slot, walk r (va + k) false t = .ok (some slot, t) ∧
        PTE2PA (t.mem.load64 slot) = (pa + k / PGSIZE * PGSIZE) % 2 ^ 64 ∧
        PTE_FLAGS (t.mem.load64 slot) = perm ||| PTE_V) ∧
      (∀ a < MAXVA, a < va ∨ va + size ≤ a → pte t.mem r (a / PGSIZE) = pte s.mem r (a / PGSIZE)) ∧ WellFormed t r) ∧
    ∀ (a a' : Nat) (b b' : Bool) (slot slot' : Nat) (t t' : Kernel),
      walk_with (if b then some (kalloc_locked me held) else none) r a s = .ok (some slot, t) →
      walk_with (if b' then some (kalloc_locked me held) else none) r a' t = .ok (some slot', t') →
        (slot = slot' ↔ a / PGSIZE = a' / PGSIZE) := by
  refine ⟨fun t hlocked => ?_, fun a a' b b' slot slot' t t' hlocked hlocked' => ?_⟩
  · obtain ⟨hrun, hcalm⟩ :=
      (mappages_mirrors (fun s => kalloc_locked_mirrors False.elim s) r va size pa perm s).back 0 t hlocked
    have hsw := hcalm.swaps
    unfold mappages mappages_with at hrun
    split_ifs at hrun with hal hsz hzero
    · simp at hrun
    · simp at hrun
    · simp at hrun
    obtain ⟨n, rfl⟩ : ∃ n, size = (n + 1) * PGSIZE := by
      refine ⟨size / PGSIZE - 1, ?_⟩
      simp only [PGSIZE] at *
      omega
    rw [Nat.mul_div_cancel _ (by decide), Nat.add_sub_cancel] at hrun
    obtain ⟨hmax, hwf, hpte⟩ := h.mappages_loop (by omega) hrun hsw
    refine ⟨fun k hk => ?_, fun a ha hout => ?_, hwf⟩
    · have hdiv : (va + k) / PGSIZE = va / PGSIZE + k / PGSIZE := by
        simp only [PGSIZE] at *
        omega
      have hlt : k / PGSIZE < n + 1 := Nat.div_lt_of_lt_mul (by rwa [Nat.mul_comm])
      have hva : va + k < MAXVA := by omega
      have he : pte t.mem r ((va + k) / PGSIZE) = PA2PTE (pa + k / PGSIZE * PGSIZE) ||| perm ||| PTE_V := by
        rw [hpte _ (page_number_lt hva), hdiv, if_pos, Nat.add_sub_cancel_left]
        exact ⟨Nat.le_add_right _ _, Nat.add_le_add_left (Nat.le_of_lt_succ hlt) _⟩
      cases hlow : low t.mem r (va + k) with
      | none =>
        -- An absent entry is 0, and this one is valid.
        rw [pte_of_low_none hlow] at he
        have hV := congrArg (fun e => has e PTE_V) he
        simp [show has PTE_V PTE_V = true from by decide] at hV
      | some q =>
        refine ⟨_, (walk0_run hva).trans (by rw [hlow]; rfl), ?_, ?_⟩
        · rw [pte_of_low hlow, he, PTE2PA_mapped _ hperm]
          rw [Nat.add_mul_mod_self_right, hpa]
        · rw [pte_of_low hlow, he, PTE_FLAGS_mapped _ hperm]
    · rw [hpte _ (page_number_lt ha), if_neg]
      simp only [PGSIZE] at *
      omega
  · obtain ⟨hwalk, hsw⟩ := walk_locked_ok hlocked
    obtain ⟨hwalk', hsw'⟩ := walk_locked_ok hlocked'
    obtain ⟨ha, ht, -, q, hq, rfl⟩ := h.walk hwalk hsw
    obtain ⟨ha', ht', hgrow, q', hq', rfl⟩ := ht.walk hwalk' hsw'
    exact ht'.slot_eq_iff ha ha' (hgrow.nodes _ _ hq) hq'

omit [Image] in
theorem mappages_faithful_two : ∃ (y : System) (t : Kernel) (slot : Nat),
    @run smallImage [.userinit, .schedule 0 .RUNNING] bootSystem = some y ∧
    @mappages_with (@kalloc_locked smallImage 0 []) (y.kernel.proc 0).pagetable (511 * PGSIZE) (2 * PGSIZE) KERNBASE PTE_R
      y.kernel = .ok (0, t) ∧
    @walk smallImage (y.kernel.proc 0).pagetable (512 * PGSIZE) false t = .ok (some slot, t) ∧
    PTE2PA (t.mem.load64 slot) = KERNBASE + PGSIZE := by
  have heval : ((@run smallImage [.userinit, .schedule 0 .RUNNING] bootSystem).bind fun y =>
      (@mappages_with (@kalloc_locked smallImage 0 []) (y.kernel.proc 0).pagetable (511 * PGSIZE) (2 * PGSIZE) KERNBASE
        PTE_R y.kernel).toOption.map fun x => decide (x.1 = 0 ∧ (y.kernel.proc 0).state = .RUNNING)) = some true := by
    decide +kernel
  obtain ⟨y, hy, heval⟩ := Option.bind_eq_some_iff.mp heval
  obtain ⟨⟨res, t⟩, ht, hval⟩ := Option.map_eq_some_iff.mp heval
  rw [toOption_eq_some] at ht
  obtain ⟨rfl, hstate⟩ := of_decide_eq_true hval
  let : Image := smallImage
  have hg := bootSystem_booted.run_good hy
  have hwf := hg.inv.wellFormed (hg.root_mem (by decide : 0 < NPROC) (by rw [hstate]; decide))
  obtain ⟨hpages, -⟩ := (mappages_faithful hwf (by decide) small_R).1 t ht
  obtain ⟨slot, hslot, hpa, -⟩ := hpages PGSIZE (by decide)
  exact ⟨y, t, slot, hy, ht, hslot, hpa⟩

end Xv6
