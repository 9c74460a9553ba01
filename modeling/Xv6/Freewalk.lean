import Xv6.Spaces

/-!
# Freeing a tree

The caller of `freewalk` clears the entry that led to the table. Until then the entry leads to a free page, so the
specification of a call stops before its last `kfree`.
-/

open Xv6.Lib Op Radix

namespace Xv6

def NoLeaves (m : Mem) (r : Nat) : Prop := ∀ v < 512 ^ 3, points (pte m r v) = none

variable [Image] {n₀ : Nat} {L Z : Prop} {E : String → Prop} {s s' t : Kernel} {T H : Finset Nat} {r p c : Nat}
  {n n' : Node} {k : Fin 512}

def Empty (m : Mem) (r : Nat) (n : Node) : Prop := ∀ k n', child n k = some n' → node m r n' = none

omit [Image] in
theorem bare_of_empty {m : Mem} (hl : NoLeaves m r) (he : Empty m r n)
    (hc : node m r n = some c) : Bare points m (node m r n) := by
  intro q hq j
  cases hc.symm.trans hq
  cases n with
  | top =>
    have := he j (.mid j) rfl
    rwa [node, table_child hc rfl] at this
  | mid i =>
    have := he j (.low i j) rfl
    rwa [node, table_child hc rfl] at this
  | low i i' =>
    -- The words of a table of the lowest level are leaves.
    obtain ⟨v, hv, rfl, rfl, rfl⟩ := exists_digits i i' j
    have := hl v hv
    rwa [pte, entry_some hc] at this

theorem Inv.prune_table (h : Inv n₀ L t T H) (hr : r ∈ T) (hp : node t.mem r n = some p)
    (hc : child n k = some n') (hn : node t.mem r n' = some c) (hl : NoLeaves t.mem r)
    (he : Empty t.mem r n')
    (hs : s' = { freed c t with mem := (freed c t).mem.store64 (p + 8 * k) 0#64 }) :
    Inv n₀ L s' T H ∧ Evolve n₀ (T.erase r) H t s' ∧ Fixed (T.erase r) t s' ∧ Sheds (T.erase r) t s' ∧
      Lone (T.erase r) H r ∅ t s' ∧ NoLeaves s'.mem r ∧ ∀ x, node s'.mem r x = if x = n' then none else node t.mem r x := by
  subst hs
  have hpage := h.page_table hr hn
  have hppage := h.page_table hr hp
  have hcp : c ≠ p := by
    rintro rfl
    obtain ⟨-, rfl⟩ := h.forest.inj r hr r hr n n' c hp hn
    cases n <;> cases hc
  -- Clear the entry first: the table is then out of the tree.
  let m₁ : Mem := t.mem.store64 (p + 8 * k) 0#64
  have htab : ∀ r' ∈ T, ∀ x, node m₁ r' x = if r' = r ∧ x = n' then none else node t.mem r' x := by
    have := table_store_child h.forest hr hp hc (w := 0#64) (bare_of_empty hl he hn) (by
      intro q hq
      rw [points_zero] at hq
      cases hq)
    rw [points_zero] at this
    exact this
  have hent := entry_prune h.forest hr hp hc (w := 0#64) htab
  have hmem : Off T m₁ ((freed c t).mem.store64 (p + 8 * k) 0#64) := by
    have hcomm : OnPage c m₁ ((freed c t).mem.store64 (p + 8 * k) 0#64) := by
      intro a ha
      have := freed_on_page (s := t) a ha
      simp only [m₁, Mem.store64, this]
    by_cases h1 : refs t c = 1
    · refine Off.of_page ?_ hpage.aligned ?_ hcomm
      · intro r' hr' x q hq
        rw [htab r' hr'] at hq
        split_ifs at hq
        exact h.forest.aligned r' hr' x q hq
      · intro r' hr' x hq
        rw [htab r' hr'] at hq
        split_ifs at hq with hx
        exact hx (h.forest.inj r' hr' r hr x n' c hq hn)
    · rw [freed_mem_of_shared h1]
      exact Off.refl _
  have hset : NodeSet T t.mem ((freed c t).mem.store64 (p + 8 * k) 0#64) r n' none := by
    have hleaf : ∀ r' ∈ T, ∀ v, pte ((freed c t).mem.store64 (p + 8 * k) 0#64) r' v =
        if r' = r ∧ .low (hi v) (md v) = n' then 0 else pte t.mem r' v := by
      intro r' hr' v
      rw [hmem.pte hr', pte, hent r' hr' v]
    refine ⟨?_, ?_, ?_, ?_⟩
    · intro r' hr' x
      rw [hmem.node hr', htab r' hr']
    · intro r' hr' v _
      rw [hleaf r' hr']
      split_ifs
      · exact .inr rfl
      · exact .inl rfl
    · intro r' hr' v hv
      rw [hleaf r' hr']
      split_ifs with hx
      · obtain ⟨rfl, -⟩ := hx
        rw [hl v hv]
        exact points_zero
      · rfl
    · intro hplain r' hr'
      refine hmem.plain hr' fun x => ?_
      rw [htab r' hr', ← hplain r' hr' x, show (none : Option Nat) = walkable 0#64 from by decide]
      refine table_store_child (h.forest.congr hplain) hr ((hplain r hr n).trans hp) hc ?_ ?_ r' hr' x
      · intro q hq j
        rw [hplain r hr n'] at hq
        have hbare := bare_of_empty hl he hn q hq j
        rw [next, points_eq_none] at hbare
        simp [next, walkable, hbare]
      · intro q hq
        cases hq.symm.trans (show walkable 0#64 = none from by decide)
  have htables : ∀ r' ∈ T.erase r, ∀ x, node ((freed c t).mem.store64 (p + 8 * k) 0#64) r' x = node t.mem r' x := by
    intro r' hr' x
    rw [hset.tables r' (Finset.mem_of_mem_erase hr'), if_neg fun hx => Finset.ne_of_mem_erase hr' hx.1]
  have hleaves : ∀ r' ∈ T.erase r, ∀ v < 512 ^ 3, pte ((freed c t).mem.store64 (p + 8 * k) 0#64) r' v =
      pte t.mem r' v := by
    intro r' hr' v _
    rw [hmem.pte (Finset.mem_of_mem_erase hr'), pte, hent r' (Finset.mem_of_mem_erase hr'),
      if_neg fun hx => Finset.ne_of_mem_erase hr' hx.1]
  refine ⟨?_, ?_, .of_leaves freed_proc freed_swap_outs htables hleaves, .of_leaves freed_swap hleaves, ?_, ?_, ?_⟩
  · exact h.prune hr hset hn (fun Q hQ => freed_refs hpage hQ) freed_freelist freed_swap_outs
  · exact h.evolve_freed (x := .table r n') (by rw [goal_table hr, hn]) (by simp) (by simp) hr hp
      (store_on_page k _) htables hleaves freed_proc rfl freed_swap_outs
  · exact h.lone_freed (x := .table r n') (by rw [goal_table hr, hn]) (by simp) (by simp) hr hp
      (store_on_page k _) hleaves rfl
  · intro v hv
    exact (hset.valid r hr v hv).trans (hl v hv)
  · intro x
    have := hset.tables r hr x
    simpa using this

/-! ## The levels of the recursion -/

structure Cleared (n₀ : Nat) (L : Prop) (T H : Finset Nat) (r : Nat) (n : Node) (s t : Kernel) : Prop where
  inv : Inv n₀ L t T H
  evolve : Evolve n₀ (T.erase r) H s t
  fixed : Fixed (T.erase r) s t
  sheds : Sheds (T.erase r) s t
  text : Text s.mem t.mem
  lone : Lone (T.erase r) H r ∅ s t
  swaps : t.stats.swap_outs = s.stats.swap_outs
  leaves : NoLeaves t.mem r
  empty : Empty t.mem r n
  nodes : ∀ x, node t.mem r x = node s.mem r x ∨ Below n x ∧ node t.mem r x = none

/-- A call of `freewalk` on the table at `n`: all below it goes, and then the table itself. -/
def Frees (n₀ : Nat) (L : Prop) (E : String → Prop) (T H : Finset Nat) (r : Nat) (n : Node) (f : Nat → K Unit) :
    Prop :=
  ∀ s p, Inv n₀ L s T H → node s.mem r n = some p → NoLeaves s.mem r →
    Ends (f p) s (fun u s' => ∃ t, Cleared n₀ L T H r n s t ∧ kfree p t = .ok (u, s')) E

theorem Cleared.ends (h : Cleared n₀ L T H r n s t) (hr : r ∈ T) (hp : node s.mem r n = some p) :
    Ends (kfree p) t (fun u s' => ∃ t, Cleared n₀ L T H r n s t ∧ kfree p t = .ok (u, s')) E := by
  have hpt : node t.mem r n = some p := by
    rcases h.nodes n with he | ⟨hbad, -⟩
    · rw [he, hp]
    · exact absurd hbad (not_below_self n)
  have hrun := h.inv.kfree_run (x := .table r n) (by rw [goal_table hr, hpt])
  exact (ends_of_run hrun).mpr ⟨t, h, hrun⟩

theorem frees_low (hr : r ∈ T) (depth : Nat) (i j : Fin 512) :
    Frees n₀ L E T H r (.low i j) (freewalk (depth + 1)) := by
  intro s p h hp hl
  -- No entry is valid, so the loop changes nothing.
  have hskip : ∀ m ≤ 512, freewalk_loop (freewalk depth) p m s = .ok ((), s) := by
    intro m
    induction m with
    | zero => exact fun _ => rfl
    | succ m ih =>
      intro hm
      have hlt : 512 - (m + 1) < 512 := by omega
      obtain ⟨v, hv, rfl, rfl, hlo⟩ := exists_digits i j ⟨512 - (m + 1), hlt⟩
      have hinvalid := hl v hv
      rw [pte, entry_some hp, hlo] at hinvalid
      have hV := points_eq_none.mp hinvalid
      rw [freewalk_loop, load64, run_bind (run_gets _)]
      simp only [hV, Bool.false_eq_true, false_and, if_false]
      exact ih (by omega)
  rw [freewalk, ends_bind, ends_of_run (hskip 512 (Nat.le_refl _))]
  exact Cleared.ends ⟨h, Evolve.refl _, .refl _, .refl _, fun _ _ => rfl, .refl s, rfl, hl, by rintro k n' ⟨⟩,
    fun x => .inl rfl⟩ hr hp

omit [Image] in
theorem Plain.walkable {m : Mem} (h : Plain m r) (hp : node m r n = some p) (hc : child n k = some n')
    (hV : has (m.load64 (p + 8 * k)) PTE_V = true) :
    m.load64 (p + 8 * k) &&& (PTE_R ||| PTE_W ||| PTE_X) = 0#64 := by
  have hn := h n'
  rw [table_child ((h n).trans hp) hc, node, table_child hp hc] at hn
  by_contra hleaf
  rw [next, next, points_some hV, Xv6.walkable, if_neg fun hw => hleaf hw.2] at hn
  cases hn

theorem freewalk_loop_ends {f : Nat → K Unit} (hr : r ∈ T)
    (hf : ∀ k n', child n k = some n' → Frees n₀ L E T H r n' f) (hchild : ∀ k, ∃ n', child n k = some n')
    (m : Nat) (hm : m ≤ 512) (h : Inv n₀ L s T H) (hp : node s.mem r n = some p)
    (hl : NoLeaves s.mem r)
    (hdone : ∀ k n', k.val < 512 - m → child n k = some n' → node s.mem r n' = none) :
    Ends (freewalk_loop f p m) s (fun _ t => Cleared n₀ L T H r n s t) E := by
  induction m generalizing s with
  | zero =>
    exact ⟨h, Evolve.refl _, .refl _, .refl _, fun _ _ => rfl, .refl s, rfl, hl,
      fun k n' hc => hdone k n' k.isLt hc, fun x => .inl rfl⟩
  | succ m ih =>
    have hlt : 512 - (m + 1) < 512 := by omega
    let k : Fin 512 := ⟨512 - (m + 1), hlt⟩
    obtain ⟨n', hc⟩ := hchild k
    have hn' : node s.mem r n' = points (s.mem.load64 (p + 8 * k)) := table_child hp hc
    -- Entry `k` is empty now, and the ones before it still are.
    have hnext : ∀ t : Kernel, node t.mem r n' = none →
        (∀ x, node t.mem r x = node s.mem r x ∨ Below n x ∧ node t.mem r x = none) →
        ∀ k' n'', k'.val < 512 - m → child n k' = some n'' → node t.mem r n'' = none := by
      intro t hgone hkeep k' n'' hk' hc'
      by_cases hkk : k' = k
      · subst hkk
        rw [hc] at hc'
        cases hc'
        exact hgone
      · rcases hkeep n'' with he | ⟨-, he⟩
        · rw [he]
          refine hdone k' n'' ?_ hc'
          have : k'.val ≠ 512 - (m + 1) := fun he => hkk (Fin.ext he)
          omega
        · exact he
    simp only [freewalk_loop, ends_bind, load64, ends_gets, ends_ite]
    refine ⟨fun htable => ?_, fun hno => ⟨fun hV => ?_, fun hV => ?_⟩⟩
    · rw [points_some htable.1] at hn'
      refine (hf k n' hc _ _ h hn' hl).mono ?_
      rintro u s₂ ⟨t, ht, hfree⟩
      obtain ⟨-, -, rfl⟩ := kfree_ok hfree
      refine Safe.ends trivial fun _ w hw => ?_
      rw [store64_ok] at hw
      have hpt : node t.mem r n = some p := by
        rcases ht.nodes n with he | ⟨hbad, -⟩
        · rw [he, hp]
        · exact absurd hbad (not_below_parent hc)
      have hnt : node t.mem r n' = some (PTE2PA (s.mem.load64 (p + 8 * k))) := by
        rcases ht.nodes n' with he | ⟨hbad, -⟩
        · rw [he, hn']
        · exact absurd hbad (not_below_self n')
      obtain ⟨hinv, hev', hfixed', hsheds', hlone', hl', hnodes⟩ := ht.inv.prune_table hr hpt hc hnt ht.leaves ht.empty hw
      have hsw' : w.stats.swap_outs = t.stats.swap_outs := by
        rw [hw]
        exact freed_swap_outs
      have htext' : Text t.mem w.mem := by
        rw [hw]
        exact (freed_on_page.text (ht.inv.page_table hr hnt)).trans ((store_on_page k 0#64).text (ht.inv.page_table hr hpt))
      have hkeep : ∀ x, node w.mem r x = node s.mem r x ∨ Below n x ∧ node w.mem r x = none := by
        intro x
        rw [hnodes x]
        split_ifs with hx
        · exact .inr ⟨hx ▸ below_child hc, rfl⟩
        · exact (ht.nodes x).imp_right fun hb => ⟨hb.1.of_child hc, hb.2⟩
      have hpw : node w.mem r n = some p := by
        rcases hkeep n with he | ⟨hbad, -⟩
        · rw [he, hp]
        · exact absurd hbad (not_below_self n)
      have hgone : node w.mem r n' = none := by rw [hnodes n', if_pos rfl]
      refine (ih (by omega) hinv hpw hl' (hnext w hgone hkeep)).mono fun _ s' hs' => ?_
      refine ⟨hs'.inv, ht.evolve.trans (hev'.trans hs'.evolve), ht.fixed.trans (hfixed'.trans hs'.fixed),
        ht.sheds.trans (hsheds'.trans hs'.sheds), ht.text.trans (htext'.trans hs'.text), (ht.lone.trans (hlone'.trans hs'.lone)).mono (by simp),
        hs'.swaps.trans (hsw'.trans ht.swaps), hs'.leaves, hs'.empty, ?_⟩
      intro x
      rcases hs'.nodes x with he | hb
      · rw [he]
        exact hkeep x
      · exact .inr hb
    · exact absurd ⟨hV, Plain.walkable (k := k) (h.plain r hr) hp hc hV⟩ hno
    · have hnone : node s.mem r n' = none := by
        rw [hn']
        exact points_none (eq_false_of_ne_true hV)
      exact ih (by omega) h hp hl (hnext s hnone fun x => .inl rfl)

theorem frees_upper {depth : Nat} (hr : r ∈ T)
    (hf : ∀ k n', child n k = some n' → Frees n₀ L E T H r n' (freewalk depth))
    (hchild : ∀ k, ∃ n', child n k = some n') : Frees n₀ L E T H r n (freewalk (depth + 1)) := by
  intro s p h hp hl
  rw [freewalk, ends_bind]
  exact (freewalk_loop_ends hr hf hchild 512 (Nat.le_refl _) h hp hl
    (fun k n' hk => absurd hk (by omega))).mono fun _ t ht => ht.ends hr hp

theorem frees_top (depth : Nat) (hr : r ∈ T) : Frees n₀ L E T H r .top (freewalk (depth + 3)) := by
  refine frees_upper hr ?_ fun k => ⟨_, rfl⟩
  rintro k n' ⟨⟩
  refine frees_upper hr ?_ fun k => ⟨_, rfl⟩
  rintro k' n' ⟨⟩
  exact frees_low hr depth k k'

/-- The tree of `r` is gone, and the others are as they were. -/
structure Removed (n₀ : Nat) (L : Prop) (T H : Finset Nat) (r : Nat) (s s' : Kernel) : Prop where
  inv : Inv n₀ L s' (T.erase r) H
  evolve : Evolve n₀ (T.erase r) H s s'
  fixed : Fixed (T.erase r) s s'
  slots : Slots T s → Slots (T.erase r) s'
  text : Text s.mem s'.mem
  lone : Lone (T.erase r) H r ∅ s s'
  swaps : s'.stats.swap_outs = s.stats.swap_outs

theorem freewalk_ends (h : Inv n₀ L s T H) (hr : r ∈ T) (hl : NoLeaves s.mem r) :
    Ends (freewalk FREEWALK_DEPTH r) s (fun _ s' => Removed n₀ L T H r s s' ∧ s'.swap = s.swap) E := by
  rw [show FREEWALK_DEPTH = 32766 + 3 from rfl]
  refine (frees_top 32766 hr s r h rfl hl).mono ?_
  rintro u s' ⟨t, ht, hfree⟩
  obtain ⟨hpage, -, rfl⟩ := kfree_ok hfree
  have hnode : ∀ n, n ≠ .top → node t.mem r n = none := by
    intro n hn
    cases n with
    | top => exact absurd rfl hn
    | mid i => exact ht.empty i (.mid i) rfl
    | low i j =>
      have := ht.empty i (.mid i) rfl
      simp only [table] at this ⊢
      rw [this]
      rfl
  have hother : ∀ r' ∈ T.erase r, ∀ n, node t.mem r' n ≠ some r := by
    intro r' hr' n hn
    have := ht.inv.forest.inj r' (Finset.mem_of_mem_erase hr') r hr n .top r hn rfl
    exact Finset.ne_of_mem_erase hr' this.1
  have hoff : Off (T.erase r) t.mem (freed r t).mem :=
    Off.of_page (fun r' hr' => ht.inv.forest.aligned r' (Finset.mem_of_mem_erase hr')) hpage.aligned hother
      freed_on_page
  refine ⟨⟨?_, ht.evolve.trans ?_, ht.fixed.trans (.of_off hoff freed_proc freed_swap_outs), fun hs => ?_,
    ht.text.trans (freed_on_page.text hpage), (ht.lone.trans (B := ∅) ?_).mono (by simp),
    freed_swap_outs.trans ht.swaps⟩, freed_swap.trans ht.sheds.swap⟩
  · exact ht.inv.drop_root hr hnode (fun v hv => ht.leaves v (hv.trans UPAGES_lt)) hoff
      (fun Q hQ => freed_refs hpage hQ) freed_freelist freed_swap_outs
  · exact ht.inv.evolve_freed (x := .table r .top) (goal_table hr) (by simp) (by simp) hr (n := .top) rfl
      (OnPage.refl _) (fun r' hr' n => hoff.node hr' n) (fun r' hr' v _ => hoff.pte hr' v) freed_proc rfl
      freed_swap_outs
  · exact (hs.mono (Finset.erase_subset r T)).sheds (ht.sheds.trans (.of_off hoff freed_swap))
  · exact ht.inv.lone_freed (x := .table r .top) (goal_table hr) (by simp) (by simp) hr (n := .top) rfl
      (OnPage.refl _) (fun r' hr' v _ => hoff.pte hr' v) rfl

/-! ## Page tables of processes -/

def NoTop (m : Mem) (r : Nat) : Prop := ∀ v < 512 ^ 3, UPAGES ≤ v → has (pte m r v) PTE_V = false

theorem Unmapped.only {a m : Nat} (h : Unmapped n₀ L T H r a m s s') : Only T r (Set.Ico a (a + m)) s s' := by
  have hsame : ∀ v < 512 ^ 3, v ∉ Set.Ico a (a + m) → pte s'.mem r v = pte s.mem r v :=
    fun v hv hno => (h.leaves v hv).resolve_right fun hin => hno ⟨hin.1.1, hin.1.2⟩
  exact ⟨h.others, fun _ => hsame, fun _ _ v hv _ => hsame v hv⟩

theorem uvmfree_ends {sz : Nat} (h : Inv n₀ L s T H) (hz : Z → Slots T s) (hr : r ∈ T) (hsz : sz ≤ TRAPFRAME)
    (hb : Bound s.mem r (npages sz)) (htop : NoTop s.mem r) :
    Ends (uvmfree r sz) s (fun _ s' => Removed n₀ L T H r s s' ∧
      s'.swap = (blocks s.mem r 0 (npages sz)).foldl Swap.release s.swap) (Stray Z) := by
  have hmax : TRAPFRAME ≤ MAXVA := by decide
  have hle := npages_le hsz
  -- Without user pages and without the two pages above them there is no leaf.
  have hnone : ∀ m : Mem, Bound m r 0 → NoTop m r → NoLeaves m r := by
    intro m hbm htm v hv
    refine points_none ?_
    by_cases hu : v < UPAGES
    · by_contra hV
      have := hbm v hu (by simp [present, eq_true_of_ne_false hV])
      omega
    · exact htm v hv (by omega)
  unfold uvmfree
  split_ifs with hpos
  · have hzero : (0 : Nat) / PGSIZE = 0 := rfl
    rw [ends_bind, PGROUNDUP_div (by omega)]
    refine (uvmunmap_ends h hz hr (by decide) (by omega)).mono fun _ t hun => ?_
    rw [hzero] at hun
    refine (freewalk_ends hun.inv hr (hnone _ (hun.bound (by omega) (by rwa [Nat.zero_add])) ?_)).mono ?_
    · intro v hv hu
      rw [(hun.still (by omega) v hv).2 hu]
      exact htop v hv hu
    · rintro _ s' ⟨hs', hsw'⟩
      exact ⟨⟨hs'.inv, hun.evolve.trans hs'.evolve, hun.others.trans hs'.fixed, fun hs => hs'.slots (hun.slots hs),
        hun.text.trans hs'.text, (hun.lone.trans hs'.lone).mono (by simp), hs'.swaps.trans hun.swaps⟩,
        hsw'.trans hun.swap⟩
  · have h0 : npages sz = 0 := by
      simp only [npages, PGSIZE]
      omega
    rw [h0] at hb ⊢
    exact freewalk_ends h hr (hnone _ hb htop)

omit [Image] in
theorem trampoline_page : TRAMPOLINE / PGSIZE = UPAGES + 1 := by decide

omit [Image] in
theorem trapframe_page : TRAPFRAME / PGSIZE = UPAGES := rfl

theorem Inv.noTop (h : Inv n₀ L s T H) (hr : r ∈ T)
    (h0 : has (pte s.mem r UPAGES) PTE_V = false) (h1 : has (pte s.mem r (UPAGES + 1)) PTE_V = false) :
    NoTop s.mem r := by
  intro v hv hu
  by_cases hv0 : v = UPAGES
  · rw [hv0, h0]
  by_cases hv1 : v = UPAGES + 1
  · rw [hv1, h1]
  have hflags := h.flags r hr v hv
  rw [LeafOk, if_neg (by omega)] at hflags
  refine hflags.2.2.2 ?_
  rw [UPAGES_eq] at *
  simp only [MAXVA, PGSIZE]
  omega

theorem uvmunmap_top_ends (h : Inv n₀ L s T H) (hr : r ∈ T) (hal : va % PGSIZE = 0) (hva : va < MAXVA) :
    Ends (uvmunmap r va 1 false) s (fun _ t => Only T r {va / PGSIZE} s t ∧ Sheds T s t ∧
      Text s.mem t.mem ∧ Lone (T.erase r) H r ∅ s t ∧ t.stats.swap_outs = s.stats.swap_outs) E := by
  have hsame : Only T r {va / PGSIZE} s s ∧ Sheds T s s ∧ Text s.mem s.mem ∧ Lone (T.erase r) H r ∅ s s ∧
      s.stats.swap_outs = s.stats.swap_outs := ⟨.refl s, .refl s, fun _ _ => rfl, .refl s, rfl⟩
  unfold uvmunmap
  rw [if_neg (by omega)]
  simp only [uvmunmap_loop, walk_false, ends_bind, ends_of_run (walk0_run hva)]
  cases hlow : low s.mem r va with
  | none => exact hsame
  | some q =>
    simp only [Option.map_some, ends_bind, load64, ends_gets, Bool.false_eq_true, if_false]
    refine ends_ite.mpr ⟨fun _ => hsame, fun _ => ?_⟩
    simp only [ends_bind, ends_pure, store64, ends_update]
    have hset := leafSet_store h.forest hr (page_number_lt hva) hlow 0#64
    refine ⟨Only.of_set hr hset rfl rfl, .of_set hset (has_zero _) rfl,
      (store_on_page _ _).text (h.page_table hr hlow), Lone.others (A := {va / PGSIZE}) ?_, trivial⟩
    exact h.lone_leaf hr hlow hset (store_on_page _ _) rfl

theorem proc_freepagetable_ends {sz : Nat} (h : Inv n₀ L s T H) (hz : Z → Slots T s) (hr : r ∈ T)
    (hsz : sz ≤ TRAPFRAME) (hb : Bound s.mem r (npages sz)) :
    Ends (proc_freepagetable r sz) s (fun _ s' => Removed n₀ L T H r s s' ∧
      s'.swap = (blocks s.mem r 0 (npages sz)).foldl Swap.release s.swap) (Stray Z) := by
  have hlt : UPAGES + 1 < 512 ^ 3 := by decide
  unfold proc_freepagetable
  rw [ends_bind]
  refine (uvmunmap_top_ends h hr (by decide) (by decide)).with_run.mono ?_
  rintro _ t₁ ⟨⟨ho₁, hs₁, hx₁, hn₁, hw₁⟩, htramp⟩
  obtain ⟨h₁, hev₁, hkeep₁, hgone₁⟩ := uvmunmap_top h hr (by rw [trampoline_page]; omega) htramp
  rw [ends_bind]
  refine (uvmunmap_top_ends h₁ hr (by decide) (by decide)).with_run.mono ?_
  rintro _ t₂ ⟨⟨ho₂, hs₂, hx₂, hn₂, hw₂⟩, hframe⟩
  obtain ⟨h₂, hev₂, hkeep₂, hgone₂⟩ := uvmunmap_top h₁ hr (by rw [trapframe_page]) hframe
  rw [trampoline_page] at hkeep₁ hgone₁
  rw [trapframe_page] at hkeep₂ hgone₂
  have hsh := hs₁.trans hs₂
  have hkeep : ∀ v < UPAGES, pte t₂.mem r v = pte s.mem r v := by
    intro v hv
    rw [hkeep₂ v (hv.trans UPAGES_lt) (by omega), hkeep₁ v (hv.trans UPAGES_lt) (by omega)]
  have hb₂ : Bound t₂.mem r (npages sz) := by
    intro v hv hp
    rw [hkeep v hv] at hp
    exact hb v hv hp
  have htop := h₂.noTop hr hgone₂ (by rw [hkeep₂ _ hlt (by omega), hgone₁])
  refine (uvmfree_ends h₂ (fun hZ => (hz hZ).sheds hsh) hr hsz hb₂ htop).mono ?_
  rintro _ s' ⟨hs', hsw⟩
  refine ⟨⟨hs'.inv, hev₁.trans (hev₂.trans hs'.evolve), ho₁.others.trans (ho₂.others.trans hs'.fixed),
      fun hs => hs'.slots (hs.sheds hsh), (hx₁.trans hx₂).trans hs'.text,
      ((hn₁.trans hn₂).trans hs'.lone).mono (by simp), hs'.swaps.trans (hw₂.trans hw₁)⟩, ?_⟩
  have hblocks : blocks t₂.mem r 0 (npages sz) = blocks s.mem r 0 (npages sz) := by
    refine List.filterMap_congr fun v hv => ?_
    have := List.mem_range'_1.mp hv
    rw [hkeep v (by have := npages_le hsz; omega)]
  rw [hsw, hblocks, hsh.swap]

end Xv6
