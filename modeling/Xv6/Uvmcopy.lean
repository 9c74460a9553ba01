import Xv6.Access

/-!
# Sharing an address space: `uvmcopy`

The pages of the parent become read-only and copy-on-write, and the child maps them once more. The other trees stay, but
for pages that are evicted.
-/

open Xv6.Lib Op Radix

namespace Xv6

variable [Image] {n₀ : Nat} {L Z : Prop} {E : String → Prop} {s s' t : Kernel} {T H : Finset Nat}
  {r v va p P old new a b c : Nat} {e f : Pte}

abbrev marked (e : Pte) : Pte := e &&& ~~~PTE_W ||| PTE_COW

section marked

section
omit [Image]

theorem has_marked {f : Pte} (hW : f &&& PTE_W = 0#64) (hC : PTE_COW &&& f = 0#64) (e : Pte) :
    has (marked e) f = has e f := by
  rw [has_or, has_and_not hW]
  simp [has, hC]

theorem marked_COW (e : Pte) : has (marked e) PTE_COW = true := by
  rw [has_or]
  simp [show has PTE_COW PTE_COW = true from by decide]

theorem marked_W (e : Pte) : has (marked e) PTE_W = false := by
  rw [has_or, has_and_not_self]
  decide

theorem points_marked (e : Pte) : points (marked e) = points e := by
  unfold points
  rw [has_marked (by decide) (by decide), PTE2PA_or small_COW, PTE2PA_and_not small_W]

theorem FLAGS_marked (e : Pte) : PTE_FLAGS (marked e) = marked (PTE_FLAGS e) := by
  have hC : PTE_COW &&& 0x3FF#64 = PTE_COW := by decide
  apply BitVec.eq_of_getLsbD_eq
  intro i hi
  have hbit := congrArg (fun z : Pte => z.getLsbD i) hC
  simp only [BitVec.getLsbD_and] at hbit
  simp only [marked, PTE_FLAGS, BitVec.getLsbD_and, BitVec.getLsbD_or, BitVec.getLsbD_not]
  rw [Bool.and_or_distrib_right, hbit]
  congr 1
  exact Bool.and_right_comm _ _ _

end

end marked

abbrev sharedPte (P : Nat) (f : Pte) : Pte := PA2PTE P ||| f ||| PTE_V

omit [Image] in
theorem krefinc_ok {u : Unit} (h : krefinc P s = .ok (u, s')) : s' = { s with
    count := fun j => if j = (P - KERNBASE) / PGSIZE then refs s P + 1 else s.count j } := by
  unfold krefinc at h
  split_ifs at h with hbad
  · simp only [panic_ok] at h
  · simp only [bind_ok, pageindex_ok, gets_ok, setcount_ok] at h
    obtain ⟨_, _, ⟨-, rfl, rfl⟩, _, _, ⟨rfl, rfl⟩, rfl⟩ := h
    rfl

theorem Inv.share_compat (h : Inv n₀ L s T H)
    (hq : n₀ ≤ s.stats.swap_outs ∨ has (pte s.mem old v) PTE_COW = true) (hold : old ∈ T) (hv : v < UPAGES)
    (hP : points (pte s.mem old v) = some P) (hW : has (pte s.mem old v) PTE_W = false)
    (hev : Evolve n₀ T H s t) (ht : Inv n₀ L t T H) (hno : points (pte t.mem new v) = none)
    (hset : LeafSet T t.mem s'.mem new v e) (hnew : new ∈ T) (heW : has e PTE_W = false)
    (heC : has e PTE_COW = has (pte s.mem old v) PTE_COW)
    (hsw : s'.stats.swap_outs = t.stats.swap_outs) {y : Ref} (hy : goal t.mem T H y = some P) :
    Compat n₀ s' (.leaf new v) y := by
  have hl : goal s.mem T H (.leaf old v) = some P := by rw [goal_leaf hold hv, hP]
  have hself : pte s'.mem new v = e := hset.self hnew (hv.trans UPAGES_lt)
  cases y with
  | held p =>
    obtain ⟨hp, rfl⟩ := of_goal_held hy
    cases h.held_only hp hl
  | leaf r' v' =>
    obtain ⟨⟨hr', hv'⟩, hpt⟩ := of_goal_leaf hy
    -- The leaf is as it was: a swapped out page is not mapped.
    have he : pte t.mem r' v' = pte s.mem r' v' := by
      rcases hev.leaves r' hr' v' (hv'.trans UPAGES_lt) with he | ⟨-, k, he⟩
      · exact he
      · rw [he, points_swapblock] at hpt
        cases hpt
    have hne : ¬ (r' = new ∧ v' = v) := by
      rintro ⟨rfl, rfl⟩
      rw [hno] at hpt
      cases hpt
    have he' : pte s'.mem r' v' = pte s.mem r' v' := (hset.other hr' (hv'.trans UPAGES_lt) hne).trans he
    have hy' : goal s.mem T H (.leaf r' v') = some P := by rw [goal_leaf hr' hv', ← he, hpt]
    have hor : v = v' ∧ has (pte s.mem r' v') PTE_W = false ∧
        has (pte s.mem old v) PTE_COW = has (pte s.mem r' v') PTE_COW := by
      rcases h.books.apart _ _ P hl hy' with heq | hc
      · cases heq
        exact ⟨rfl, hW, rfl⟩
      · exact ⟨hc.1, hc.2.2.1, hc.2.2.2⟩
    simp only [Compat, hself, he', heW, heC]
    exact ⟨hor.1, trivial, hor.2.1, hor.2.2⟩
  | table r' n =>
    simp only [Compat, hself, heW, true_and]
    by_contra hle
    -- Without a swap-out the parent's leaf is still there, next to the table; so it is when the
    -- leaf is copy-on-write, which no swap-out takes.
    have hq : pte t.mem old v = pte s.mem old v := by
      have hsw' := hev.swaps
      rcases hq with hb | hC
      · exact hev.quiet (by omega) (by omega) old hold v (hv.trans UPAGES_lt)
      · rcases hev.leaves old hold v (hv.trans UPAGES_lt) with he | ⟨⟨hx, -⟩, -⟩
        · exact he
        · rw [hx.2.2] at hC
          cases hC
    have hl' : goal t.mem T H (.leaf old v) = some P := by rw [goal_leaf hold hv, hq, hP]
    rcases ht.books.apart _ _ P hl' hy with heq | hc
    · cases heq
    · have := hc.2
      omega

/-- The pages from `a` to `b` of `old` may have been marked, and pages evicted. -/
structure Marks (T : Finset Nat) (old new a b : Nat) (s s' : Kernel) : Prop where
  others : Fixed ((T.erase old).erase new) s s'
  tables : ∀ n, node s'.mem old n = node s.mem old n
  parent : ∀ v < 512 ^ 3, pte s'.mem old v = pte s.mem old v ∨
    ((a ≤ v ∧ v < b) ∧ has (pte s.mem old v) PTE_V = true ∧ has (pte s.mem old v) PTE_W = true ∧
      pte s'.mem old v = marked (pte s.mem old v)) ∨
    s.stats.swap_outs < s'.stats.swap_outs ∧ has (pte s'.mem old v) PTE_V = false

/-- The leaf `c` of a child gives no right that the leaf `e` of the parent does not give. -/
structure Inherits (e c : Pte) : Prop where
  valid : has c PTE_V = true
  user : has c PTE_U = true
  points : points c = points e
  same : ∀ f, f = PTE_U ∨ f = PTE_R ∨ f = PTE_X → has c f = has e f
  readonly : has c PTE_W = false
  cow : has c PTE_COW = (has e PTE_COW || has e PTE_W)
  resident : has c PTE_SWAPPED = false

omit [Image] in
theorem Inherits.parent_valid (h : Inherits e f) : has e PTE_V = true := by
  by_contra hV
  have hp := h.points
  rw [points_some h.valid, points_none (eq_false_of_ne_true hV)] at hp
  cases hp

omit [Image] in
theorem Inherits.of_marked (h : Inherits (marked e) f) (hW : has e PTE_W = true) : Inherits e f := by
  refine ⟨h.valid, h.user, h.points.trans (points_marked e), fun x hx => (h.same x hx).trans ?_, h.readonly, ?_,
    h.resident⟩
  · rcases hx with rfl | rfl | rfl <;> exact has_marked (by decide) (by decide) e
  · rw [h.cow, marked_COW, hW, Bool.or_true, Bool.true_or]

/-- The leaves of `new` are as before, or inherited from the pages `a` to `b` of `old`. -/
def Inherited (old new a b : Nat) (s s' : Kernel) : Prop :=
  ∀ v < 512 ^ 3, pte s'.mem new v = pte s.mem new v ∨
    (a ≤ v ∧ v < b) ∧ Inherits (pte s.mem old v) (pte s'.mem new v)

/-- If nothing was swapped out, `new` has a leaf for each page `a` to `b` of `old` that a user may use. -/
def Complete (old new a b : Nat) (s s' : Kernel) : Prop :=
  s'.stats.swap_outs = s.stats.swap_outs → ∀ v, a ≤ v → v < b → has (pte s.mem old v) PTE_V = true →
    has (pte s.mem old v) PTE_U = true → has (pte s'.mem new v) PTE_V = true

namespace Marks

omit [Image]

theorem refl (s : Kernel) : Marks T old new a b s s := ⟨.refl s, fun _ => rfl, fun _ _ => .inl rfl⟩

theorem trans {a' : Nat} (h : Marks T old new a b s t) (h' : Marks T old new a' c t s') (ha : a ≤ a') (hb : b ≤ c) :
    Marks T old new a c s s' := by
  have hle := h.others.swaps
  have hle' := h'.others.swaps
  refine ⟨h.others.trans h'.others, fun n => (h'.tables n).trans (h.tables n), fun v hv => ?_⟩
  rcases h'.parent v hv with he' | ⟨hr', hV', hW', he'⟩ | ⟨hlt', hV'⟩
  · rw [he']
    exact (h.parent v hv).imp_right (Or.imp (And.imp_left fun hr => by omega) (And.imp_left fun hlt => by omega))
  · rcases h.parent v hv with he | ⟨-, -, -, he⟩ | ⟨-, hV⟩
    · rw [he] at hV' hW' he'
      exact .inr (.inl ⟨by omega, hV', hW', he'⟩)
    · -- A marked leaf is not writable, and is not marked again.
      rw [he, marked_W] at hW'
      cases hW'
    · rw [hV] at hV'
      cases hV'
  · exact .inr (.inr ⟨by omega, hV'⟩)

theorem of_only {A : Set Nat} (h : Only T new A s s') (hold : old ∈ T) (hne : old ≠ new)
    (hl : ∀ v < 512 ^ 3, pte s'.mem old v = pte s.mem old v ∨ ∃ k, pte s'.mem old v = swapblock_to_pte k) :
    Marks T old new a b s s' := by
  have hmem : old ∈ T.erase new := Finset.mem_erase.mpr ⟨hne, hold⟩
  refine ⟨h.others.mono (Finset.erase_subset_erase _ (Finset.erase_subset _ _)), h.others.tables old hmem, ?_⟩
  intro v hv
  by_cases hsw : s'.stats.swap_outs = s.stats.swap_outs
  · exact .inl (h.others.calm hsw old hmem v hv)
  · have hle := h.others.swaps
    refine (hl v hv).imp_right ?_
    rintro ⟨k, he⟩
    refine .inr ⟨by omega, ?_⟩
    rw [he, small_of_swapblock k small_V (by decide)]

end Marks

namespace Inherited

omit [Image]

theorem refl (s : Kernel) : Inherited old new a b s s := fun _ _ => .inl rfl

theorem trans (h : Inherited old new a b s t) (hm : Marks T old new a b s t) (h' : Inherited old new b c t s')
    (hab : a ≤ b) (hbc : b ≤ c) : Inherited old new a c s s' := by
  intro v hv
  rcases h' v hv with he' | ⟨hr', hi'⟩
  · rw [he']
    exact (h v hv).imp_right (And.imp_left fun hr => by omega)
  · rcases hm.parent v hv with he | ⟨hr, -⟩ | ⟨-, hV⟩
    · rw [he] at hi'
      exact .inr ⟨by omega, hi'⟩
    · omega
    · have hV' := hi'.parent_valid
      rw [hV] at hV'
      cases hV'

end Inherited

omit [Image] in
theorem Complete.trans (h : Complete old new a (a + 1) s t) (hm : Marks T old new a (a + 1) s t)
    (hi : Inherited old new (a + 1) b t s') (h' : Complete old new (a + 1) b t s')
    (hle : t.stats.swap_outs ≤ s'.stats.swap_outs) (hb : b ≤ 512 ^ 3) : Complete old new a b s s' := by
  have hle' := hm.others.swaps
  intro hsw v ha hv hV hU
  by_cases hva : v = a
  · -- The leaf of this page stays.
    have hnow := h (by omega) v ha (by omega) hV hU
    rcases hi v (by omega) with he | ⟨-, hinh⟩
    · rwa [he]
    · exact hinh.valid
  · rcases hm.parent v (by omega) with he | ⟨hr, -⟩ | ⟨hlt, -⟩
    · exact h' (by omega) v (by omega) hv (by rwa [he]) (by rwa [he])
    · omega
    · omega

omit [Image] in
theorem inherits_shared (hP : points (sharedPte P f) = points e) (hW : has f PTE_W = false)
    (hC : has f PTE_COW = (has e PTE_COW || has e PTE_W)) (hS : has f PTE_SWAPPED = false) (hU : has e PTE_U = true)
    (hs : ∀ x, x = PTE_U ∨ x = PTE_R ∨ x = PTE_X → has f x = has e x) : Inherits e (sharedPte P f) where
  valid := by rw [has_or, show has PTE_V PTE_V = true from by decide, Bool.or_true]
  user := by rw [has_mapped small_U (by decide), hs _ (.inl rfl), hU]
  points := hP
  same := by
    rintro x hx
    rw [← hs x hx]
    rcases hx with rfl | rfl | rfl
    · exact has_mapped small_U (by decide) _
    · exact has_mapped small_R (by decide) _
    · exact has_mapped small_X (by decide) _
  readonly := by rw [has_mapped small_W (by decide), hW]
  cow := by rw [has_mapped small_COW (by decide), hC]
  resident := by rw [has_mapped small_SWAPPED (by decide), hS]

structure SharedPage (n₀ : Nat) (L : Prop) (T H : Finset Nat) (new v : Nat) (e : Pte) (s s' : Kernel) :
    Prop where
  inv : Inv n₀ L s' T H
  proc : s'.proc = s.proc
  kept : Kept n₀ (T.erase new) H s s'
  set : ∃ t, Grows n₀ T H new s t ∧ LeafSet T t.mem s'.mem new v e ∧
    s'.stats.swap_outs = t.stats.swap_outs ∧ s'.swap = t.swap

theorem uvmcopy_share_ends (h : Sane n₀ L Z T H s)
    (hq : n₀ ≤ s.stats.swap_outs ∨ has (pte s.mem old (va / PGSIZE)) PTE_COW = true) (hold : old ∈ T)
    (hnew : new ∈ T) (hal : va % PGSIZE = 0) (hva : va < MAXVA) (hv : va / PGSIZE < UPAGES)
    (hVn : has (pte s.mem new (va / PGSIZE)) PTE_V = false) (hP : points (pte s.mem old (va / PGSIZE)) = some P)
    (hW : has (pte s.mem old (va / PGSIZE)) PTE_W = false) (hf : Small f) (hfW : has f PTE_W = false)
    (hfC : has f PTE_COW = has (pte s.mem old (va / PGSIZE)) PTE_COW) (hfS : has f PTE_SWAPPED = false) :
    Ends (uvmcopy_share new va P f) s (fun ok t => ok = false ∧ Inv n₀ L t T H ∧ Grows n₀ T H new s t ∨
      ok = true ∧ SharedPage n₀ L T H new (va / PGSIZE) (sharedPte P f) s t) E := by
  rw [uvmcopy_share, uvmcopy_share_with, ends_bind]
  refine (mappages_ends h hnew hal hva fun hbad => absurd (hVn.symm.trans hbad) (by decide)).mono ?_
  rintro res t₁ ⟨t, hg, hst, hfree, hend⟩
  have hinv := hst.inv
  rcases hend with ⟨rfl, rfl⟩ | ⟨rfl, hV, ht, hent⟩
  · rw [if_pos (by decide)]
    exact .inl ⟨rfl, hinv, hg⟩
  · have hpage := h.inv.page_leaf hold hv hP
    obtain ⟨s', hinc⟩ : ∃ s', krefinc P t₁ = .ok ((), s') := ⟨_, krefinc_run hpage⟩
    rw [if_neg (by decide), ends_bind, ends_of_run hinc]
    have hs := krefinc_ok hinc
    have hset : LeafSet T t.mem s'.mem new (va / PGSIZE) (sharedPte P f) := by
      rw [hs]
      exact hent.set
    have hnone := points_none hV
    have hfW' : has (sharedPte P f) PTE_W = false := by rw [has_mapped small_W (by decide), hfW]
    have hfC' : has (sharedPte P f) PTE_COW = has (pte s.mem old (va / PGSIZE)) PTE_COW := by
      rw [has_mapped small_COW (by decide), hfC]
    have hok : LeafOk (va / PGSIZE) (sharedPte P f) :=
      leafOk_user hv (by rw [has_mapped small_SWAPPED (by decide), hfS]) (fun _ => hfW')
    have hnot : P ∉ t.freelist := fun hmem =>
      h.inv.books.not_free (by rw [goal_leaf hold hv, hP]) (hfree hmem)
    refine .inr ⟨rfl, ?_, ?_, ?_, t, hg, hset, by rw [hs, ht], by rw [hs, ht]⟩
    · refine hinv.share hnew hv hset hnone hpage hnot (points_mapped hpage hf) hok ?_ ?_
        (by rw [hs, ht]) (by rw [hs, ht])
      · intro y hy
        exact h.inv.share_compat hq hold hv hP hW hg.evolve hinv hnone hset hnew hfW' hfC' (by rw [hs, ht]) hy
      · intro Q hQ
        have hrefs : refs t₁ = refs t := by
          rw [ht]
          rfl
        rw [refs_setcount hpage (by rw [hs]) hQ, hrefs]
        split_ifs with hQP
        · rw [hQP]
        · rfl
    · rw [hs, ht]
      exact hg.evolve.proc
    · have hev := (hg.evolve.mono (Finset.erase_subset _ _) (Finset.Subset.refl H)).trans hent.evolve
      exact hev.kept.trans (Kept.of_mem (by rw [hs]) (by rw [hs]))

structure Cloned (n₀ : Nat) (L : Prop) (T H : Finset Nat) (old new : Nat) (s s' : Kernel) : Prop where
  inv : Inv n₀ L s' T H
  proc : s'.proc = s.proc
  kept : Kept n₀ ((T.erase old).erase new) H s s'
  still : Still old s s'
  pages : Pages n₀ old s s'
  firm : Firm s old → Firm s' old
  top : ∀ v < 512 ^ 3, UPAGES ≤ v → pte s'.mem new v = pte s.mem new v
  slots : Slots T s → Slots T s'

namespace Cloned

theorem refl (h : Inv n₀ L s T H) : Cloned n₀ L T H old new s s :=
  ⟨h, rfl, Kept.of_mem rfl rfl, Still.refl _ _, fun _ _ _ _ _ hP => ⟨hP, fun _ _ => rfl⟩, id, fun _ _ _ => rfl, id⟩

theorem trans (h : Cloned n₀ L T H old new s t) (h' : Cloned n₀ L T H old new t s') :
    Cloned n₀ L T H old new s s' where
  inv := h'.inv
  proc := h'.proc.trans h.proc
  kept := h.kept.trans h'.kept
  still := h.still.trans h'.still
  pages := h.pages.trans h'.pages h.kept.swaps h'.kept.swaps
  firm := fun hf => h'.firm (h.firm hf)
  top := fun v hv hu => (h'.top v hv hu).trans (h.top v hv hu)
  slots := fun hs => h'.slots (h.slots hs)

theorem alike (h : Cloned n₀ L T H old new s t) (ha : Alike t s') (hp : s'.proc = t.proc) (hsw : s'.swap = t.swap) :
    Cloned n₀ L T H old new s s' :=
  h.trans ⟨h.inv.alike ha, hp, Kept.of_mem ha.mem ha.swaps,
    fun _ _ => by rw [ha.mem]; exact ⟨id, fun _ => rfl⟩,
    fun _ _ _ _ _ hP => by rw [ha.mem]; exact ⟨hP, fun _ _ => rfl⟩,
    fun hf => hf.of_leaves fun _ _ _ => .inl (by rw [ha.mem]), fun _ _ _ => by rw [ha.mem],
    fun hs => hs.sheds (.of_off (by rw [ha.mem]; exact .refl _) hsw)⟩

end Cloned

/-- One page of `uvmcopy`, shared or left out (`ok`), or the end for lack of memory. -/
structure PageCloned (n₀ : Nat) (L : Prop) (T H : Finset Nat) (old new v : Nat) (ok : Bool)
    (s s' : Kernel) : Prop where
  cloned : Cloned n₀ L T H old new s s'
  bound : ∀ n, Bound s.mem new n → n ≤ v → Bound s'.mem new (if ok then v + 1 else v)
  marks : Marks T old new v (v + 1) s s'
  inherited : s'.stats.swap_outs = s.stats.swap_outs ∨ Spared s new 0 → Inherited old new v (v + 1) s s'
  complete : ok = true → Complete old new v (v + 1) s s'

theorem PageCloned.alike {ok : Bool} (h : PageCloned n₀ L T H old new v ok s t) (ha : Alike t s')
    (hp : s'.proc = t.proc) (hsw : s'.swap = t.swap) : PageCloned n₀ L T H old new v ok s s' where
  cloned := h.cloned.alike ha hp hsw
  bound := by
    rw [ha.mem]
    exact h.bound
  marks := ⟨h.marks.others.trans (.of_off (by rw [ha.mem]; exact .refl _) hp ha.swaps), by rw [ha.mem]; exact h.marks.tables,
    by rw [ha.mem, ha.swaps]; exact h.marks.parent⟩
  inherited := by
    rw [ha.swaps, Inherited, ha.mem]
    exact h.inherited
  complete := by
    rw [Complete, ha.mem, ha.swaps]
    exact h.complete

theorem PageCloned.of_grows (hinv : Inv n₀ L s' T H) (hg : Grows n₀ T H new s s') (hold : old ∈ T)
    (hnew : new ∈ T) (hne : old ≠ new) : PageCloned n₀ L T H old new v false s s' := by
  have hev := hg.evolve
  refine ⟨⟨hinv, hev.proc, ?_, hev.still hold, hev.kept.pages hold, hev.firm hold,
    fun v hv hu => (hev.still hnew v hv).2 hu, hg.slots⟩, fun n hb hn => ((hev.still hnew).bound hb).mono hn,
    .of_only hg.only hold hne fun v hv => (hev.leaves old hold v hv).imp_right And.right, fun hcalm v hv => .inl ?_,
    by simp⟩
  · exact hev.kept.mono ((Finset.erase_subset _ _).trans (Finset.erase_subset _ _)) (Finset.Subset.refl H)
  · rcases hcalm with hsw | hsp
    · exact hg.only.calm hsw v hv (by simp)
    · exact hg.only.spared 0 hsp v hv (Nat.zero_le _) (by simp)

theorem SharedPage.page (h : SharedPage n₀ L T H new v e s s') (hold : old ∈ T) (hnew : new ∈ T)
    (hne : old ≠ new) (hv : v < UPAGES) (hi : Inherits (pte s.mem old v) e) :
    PageCloned n₀ L T H old new v true s s' := by
  obtain ⟨t, hg, hset, hsw, hswap⟩ := h.set
  have hev := hg.evolve
  have hold' : old ∈ T.erase new := Finset.mem_erase.mpr ⟨hne, hold⟩
  have hself := hset.self hnew (hv.trans UPAGES_lt)
  have ho : Only T new {v} s s' :=
    (hg.only.trans (.of_set hnew hset (h.proc.trans hev.proc.symm) hsw)).mono (by simp)
  refine ⟨⟨h.inv, h.proc, ?_, h.kept.still old hold', h.kept.pages hold', h.kept.firm old hold', ?_, fun hs => ?_⟩, ?_,
    .of_only ho hold hne fun v' hv' => ?_, fun hcalm v' hv' => ?_, fun _ _ v' h1 h2 _ _ => ?_⟩
  · exact h.kept.mono (Finset.erase_subset_erase _ (Finset.erase_subset _ _)) (Finset.Subset.refl H)
  · intro v' hv' hu
    rw [hset.other hnew hv' fun he => by omega]
    exact (hev.still hnew v' hv').2 hu
  · exact (hg.slots hs).sheds (.of_set hset hi.resident hswap)
  · intro n hb hn
    exact hset.bound hnew (((hev.still hnew).bound hb).mono hn)
  · rw [hset.other hold hv' fun hbad => hne hbad.1]
    exact (hev.leaves old hold v' hv').imp_right And.right
  · by_cases hvv : v' = v
    · subst hvv
      rw [hself]
      exact .inr ⟨by omega, hi⟩
    · rcases hcalm with hsw | hsp
      · exact .inl (ho.calm hsw v' hv' hvv)
      · exact .inl (ho.spared 0 hsp v' hv' (Nat.zero_le _) hvv)
  · obtain rfl : v' = v := by omega
    rw [hself]
    exact hi.valid

theorem share_page (h : Sane n₀ L Z T H s) (hq : n₀ ≤ s.stats.swap_outs ∨ has e PTE_COW = true) (hold : old ∈ T)
    (hnew : new ∈ T) (hne : old ≠ new) (hal : va % PGSIZE = 0) (hva : va < MAXVA) (hv : va / PGSIZE < UPAGES)
    (hVn : has (pte s.mem new (va / PGSIZE)) PTE_V = false) (he : pte s.mem old (va / PGSIZE) = e)
    (hV : has e PTE_V = true) (hU : has e PTE_U = true) (hW : has e PTE_W = false) :
    Ends (uvmcopy_share new va (PTE2PA e) (PTE_FLAGS e)) s
      (fun ok t => PageCloned n₀ L T H old new (va / PGSIZE) ok s t) E := by
  subst he
  have hP := points_some hV
  have hf := small_flags (pte s.mem old (va / PGSIZE))
  have hS : has (PTE_FLAGS (pte s.mem old (va / PGSIZE))) PTE_SWAPPED = false := by
    rw [has_FLAGS _ small_SWAPPED, h.inv.not_swapped hold hv hV]
  refine (uvmcopy_share_ends h hq hold hnew hal hva hv hVn hP hW hf (by rw [has_FLAGS _ small_W, hW])
    (has_FLAGS _ small_COW) hS).mono fun ok t hend => ?_
  rcases hend with ⟨rfl, hinv, hg⟩ | ⟨rfl, hsp⟩
  · exact .of_grows hinv hg hold hnew hne
  · refine hsp.page hold hnew hne hv (inherits_shared ?_ (by rw [has_FLAGS _ small_W, hW])
      (by rw [has_FLAGS _ small_COW, hW, Bool.or_false]) hS hU fun x hx => ?_)
    · rw [hP, points_mapped (h.inv.page_leaf hold hv hP) hf]
    · rcases hx with rfl | rfl | rfl
      · exact has_FLAGS _ small_U
      · exact has_FLAGS _ small_R
      · exact has_FLAGS _ small_X

theorem mark_page (h : Inv n₀ L s T H) (hold : old ∈ T) (hnew : new ∈ T) (hne : old ≠ new)
    (hva : va < MAXVA) (hv : va / PGSIZE < UPAGES) {q : Nat} (hlow : low s.mem old va = some q)
    (he : pte s.mem old (va / PGSIZE) = e) (hV : has e PTE_V = true) (hW : has e PTE_W = true)
    (ht : t = { s with mem := s.mem.store64 (q + 8 * (lo (va / PGSIZE) : Nat)) (marked e) }) :
    Cloned n₀ L T H old new s t ∧ pte t.mem old (va / PGSIZE) = marked e ∧
      (∀ v < 512 ^ 3, pte t.mem new v = pte s.mem new v) ∧
      Marks T old new (va / PGSIZE) (va / PGSIZE + 1) s t := by
  subst he
  have hv3 := page_number_lt hva
  obtain ⟨hset, hev⟩ := h.evolve_leaf (t := t) (e := marked (pte s.mem old (va / PGSIZE))) hold hva hlow
    (by rw [ht]) (by rw [ht]) (by rw [ht]) (by rw [ht])
  have hself := hset.self hold hv3
  have hP := points_some hV
  have hinv : Inv n₀ L t T H := by
    refine h.recolor hold hv hset (points_marked _) ?_ ?_ (by rw [ht]) (by rw [ht]) (by rw [ht])
    · apply leafOk_user hv
      · rw [has_marked (by decide) (by decide), h.not_swapped hold hv hV]
      · exact fun _ => marked_W _
    · intro y P hP' hy hyne
      exact absurd (h.writable_only hold hv hP' hW hy) hyne
  have hnewpte : ∀ v < 512 ^ 3, pte t.mem new v = pte s.mem new v :=
    fun v hv => hset.other hnew hv fun hr => hne hr.1.symm
  have hbytes : s.stats.swap_outs = n₀ → ∀ v' < UPAGES, ∀ P, points (pte s.mem old v') = some P →
      ∀ k < PGSIZE, t.mem (P + k) = s.mem (P + k) := by
    intro h0 v' hv' P hP'
    refine h.table_bytes hold hlow ?_ h0 (.inr ⟨old, hold, v', hv', hP'⟩)
    rw [ht]
    exact store_on_page _ _
  have hnot : has (marked (pte s.mem old (va / PGSIZE))) PTE_SWAPPED = false := by
    rw [has_marked (by decide) (by decide), h.not_swapped hold hv hV]
  refine ⟨⟨hinv, hev.proc, ?_, ?_, ?_, ?_, fun v hv _ => hnewpte v hv,
    fun hs => hs.sheds (.of_set hset hnot (by rw [ht]))⟩, hself, hnewpte, ?_⟩
  · exact hev.kept.mono (Finset.erase_subset _ _) (Finset.Subset.refl H)
  · intro v' hv'
    by_cases hvv : v' = va / PGSIZE
    · subst hvv
      exact ⟨fun _ => by simp [present, hV], fun hu => absurd hv (by omega)⟩
    · rw [hset.other hold hv' fun hr => hvv hr.2]
      exact ⟨id, fun _ => rfl⟩
  · intro h0 _ v' hv' P hP'
    refine ⟨?_, hbytes h0 v' hv' P hP'⟩
    by_cases hvv : v' = va / PGSIZE
    · subst hvv
      rw [hself, points_marked, hP']
    · rw [hset.other hold (hv'.trans UPAGES_lt) fun hr => hvv hr.2, hP']
  · intro hf
    refine hf.of_leaves fun v' hv' _ => ?_
    by_cases hvv : v' = va / PGSIZE
    · subst hvv
      rw [hself]
      exact .inr (marked_COW _)
    · exact .inl (hset.other hold (hv'.trans UPAGES_lt) fun hr => hvv hr.2)
  · refine ⟨(Only.of_set hold hset hev.proc (by rw [ht])).others.mono (Finset.erase_subset _ _),
      hset.tables old hold, fun v' hv' => ?_⟩
    by_cases hvv : v' = va / PGSIZE
    · subst hvv
      exact .inr (.inl ⟨by omega, hV, hW, hself⟩)
    · exact .inl (hset.other hold hv' fun hr => hvv hr.2)

omit [Image] in
theorem ends_count_shared {ok : Bool} {Q : Bool → Kernel → Prop}
    (h : ∀ t, Alike s t → t.proc = s.proc → t.swap = s.swap → Q ok t) : Ends (do
      if ok then memstats_inc_cow_shared else pure ()
      pure ok : K Bool) s Q E := by
  cases ok <;> exact h _ ⟨rfl, rfl, rfl, rfl⟩ rfl rfl

theorem uvmcopy_page_ends (h : Sane n₀ L Z T H s) (hq : n₀ ≤ s.stats.swap_outs ∨ Firm s old) (hold : old ∈ T)
    (hnew : new ∈ T) (hne : old ≠ new) (hal : va % PGSIZE = 0) (hv : va / PGSIZE < UPAGES)
    (hb : Bound s.mem new (va / PGSIZE)) :
    Ends (uvmcopy_page old new va) s (fun ok t => PageCloned n₀ L T H old new (va / PGSIZE) ok s t) E := by
  have hva : va < MAXVA := by
    rw [UPAGES_eq] at hv
    simp only [PGSIZE, MAXVA] at *
    omega
  have hv3 := page_number_lt hva
  have hVn := hb.not_valid hv
  have hskip : ¬ (has (pte s.mem old (va / PGSIZE)) PTE_V = true ∧
      has (pte s.mem old (va / PGSIZE)) PTE_U = true) →
      PageCloned n₀ L T H old new (va / PGSIZE) true s s := fun hno =>
    ⟨Cloned.refl h.inv, fun n hb hn => hb.mono (by simp; omega), .refl s, fun _ => .refl s, fun _ _ v h1 h2 hV hU => by
      obtain rfl : v = va / PGSIZE := by omega
      exact absurd ⟨hV, hU⟩ hno⟩
  rw [uvmcopy_page, uvmcopy_page_with, walk_false, ends_bind, ends_of_run (walk0_run hva)]
  cases hlow : low s.mem old va with
  | none => exact hskip (by rw [pte_of_low_none hlow]; simp)
  | some q =>
    simp only [Option.map_some, load64, ends_bind, ends_gets, pte_of_low hlow, has_FLAGS _ small_U,
      has_FLAGS _ small_COW, has_FLAGS _ small_W]
    generalize he : pte s.mem old (va / PGSIZE) = e at hskip
    refine ends_ite.mpr ⟨fun hV => hskip fun hVU => by simp [hVU.1] at hV, fun hV => ends_ite.mpr
      ⟨fun hU => hskip fun hVU => by simp [hVU.2] at hU, fun hU => ?_⟩⟩
    simp only [Bool.not_eq_true', Bool.not_eq_false] at hV hU
    refine ends_ite.mpr ⟨fun hC => ?_, fun hC => ends_ite.mpr ⟨fun hW => ?_, fun hW => ?_⟩⟩
    · -- Copy-on-write already.
      have hW : has e PTE_W = false := by
        rw [← he]
        exact h.inv.cow_not_writable hold hv (by rw [he, hC])
      exact share_page h (.inr hC) hold hnew hne hal hva hv hVn he hV hU hW
    · rw [ends_bind, store64, ends_update, ends_bind]
      obtain ⟨hc, hself, hnewpte, hm⟩ := mark_page h.inv hold hnew hne hva hv hlow he hV hW rfl
      have hs := h.next hc.inv (Finset.Subset.refl T) hc.proc fun hZ => hc.slots (h.slots hZ)
      rw [show PTE_FLAGS e &&& ~~~PTE_W ||| PTE_COW = PTE_FLAGS (marked e) from (FLAGS_marked e).symm,
        ← show PTE2PA (marked e) = PTE2PA e by rw [PTE2PA_or small_COW, PTE2PA_and_not small_W]]
      refine (share_page hs (.inr (marked_COW e)) hold hnew hne hal hva hv (by rw [hnewpte _ hv3, hVn]) hself
        (by rw [has_marked (by decide) (by decide), hV]) (by rw [has_marked (by decide) (by decide), hU])
        (marked_W e)).mono fun ok t₂ hpc => ends_count_shared fun t' ha hp hsw => ?_
      replace hpc := hpc.alike ha hp hsw
      refine ⟨hc.trans hpc.cloned, ?_, hm.trans hpc.marks (Nat.le_refl _) (Nat.le_refl _), fun hcalm v hv' => ?_,
        fun hok hcalm v h1 h2 hV' hU' => ?_⟩
      · intro n hb hn
        refine hpc.bound n (fun v hv hpres => hb v hv ?_) hn
        rwa [hnewpte v (hv.trans UPAGES_lt)] at hpres
      · rw [← hnewpte v hv']
        refine (hpc.inherited (hcalm.imp_right fun hsp => hsp.congr hc.proc) v hv').imp_right ?_
        rintro ⟨hr, hi⟩
        obtain rfl : v = va / PGSIZE := by omega
        rw [hself] at hi
        rw [he]
        exact ⟨hr, hi.of_marked hW⟩
      · obtain rfl : v = va / PGSIZE := by omega
        refine hpc.complete hok hcalm _ h1 h2 ?_ ?_
        · rw [hself, has_marked (by decide) (by decide), hV]
        · rw [hself, has_marked (by decide) (by decide), hU]
    · have hbase : n₀ ≤ s.stats.swap_outs := by
        rcases hq with hb | hf
        · exact hb
        · rcases hf _ hv (by rw [he, hV]) (by rw [he, hU]) with hx | hx <;> rw [he] at hx
          · exact absurd hx hW
          · exact absurd hx hC
      rw [ends_bind]
      exact (share_page h (.inl hbase) hold hnew hne hal hva hv hVn he hV hU (by simpa using hW)).mono
        fun ok t₂ hpc => ends_count_shared fun t' ha hp hsw => hpc.alike ha hp hsw

theorem Unmapped.cloned {n : Nat} (h : Unmapped n₀ L T H new a n s s') (hn : a + n ≤ UPAGES)
    (hold : old ∈ T) (hne : old ≠ new) : Cloned n₀ L T H old new s s' where
  inv := h.inv
  proc := h.evolve.proc
  kept := h.evolve.kept.mono (Finset.erase_subset_erase _ (Finset.erase_subset _ _))
    (Finset.Subset.refl H)
  still := h.evolve.still (Finset.mem_erase.mpr ⟨hne, hold⟩)
  pages := h.evolve.kept.pages (Finset.mem_erase.mpr ⟨hne, hold⟩)
  firm := h.evolve.firm (Finset.mem_erase.mpr ⟨hne, hold⟩)
  top := fun v hv hu => (h.still hn v hv).2 hu
  slots := h.slots

theorem uvmcopy_loop_ends (n : Nat) (h : Sane n₀ L Z T H s) (hq : n₀ ≤ s.stats.swap_outs ∨ Firm s old) (hold : old ∈ T)
    (hnew : new ∈ T) (hne : old ≠ new) (hal : va % PGSIZE = 0) (hn : va / PGSIZE + n ≤ UPAGES)
    (hb : Bound s.mem new (va / PGSIZE)) :
    Ends (uvmcopy_loop old new n va) s (fun res t =>
      Cloned n₀ L T H old new s t ∧ Marks T old new (va / PGSIZE) (va / PGSIZE + n) s t ∧
        (res = -1 ∧ Bound t.mem new 0 ∨ res = 0 ∧ Bound t.mem new (va / PGSIZE + n) ∧
          (t.stats.swap_outs = s.stats.swap_outs ∨ Spared s new 0 →
            Inherited old new (va / PGSIZE) (va / PGSIZE + n) s t) ∧
          Complete old new (va / PGSIZE) (va / PGSIZE + n) s t)) (Stray Z) := by
  induction n generalizing s va with
  | zero =>
    exact ⟨.refl h.inv, .refl s, .inr ⟨rfl, hb, fun _ => .refl s, fun _ v h1 h2 => by omega⟩⟩
  | succ n ih =>
    rw [uvmcopy_loop, uvmcopy_loop_with, ends_bind]
    refine (uvmcopy_page_ends h hq hold hnew hne hal (by omega) hb).mono fun ok t hpc => ?_
    have hlt := UPAGES_lt
    have hb' := hpc.bound _ hb (Nat.le_refl _)
    have hs := h.next hpc.cloned.inv (Finset.Subset.refl T) hpc.cloned.proc fun hZ => hpc.cloned.slots (h.slots hZ)
    cases ok with
    | true =>
      have hnext := next_page va
      rw [if_pos rfl]
      refine (ih hs (hq.imp (fun hb => hb.trans hpc.cloned.kept.swaps) hpc.cloned.firm)
        (by simp only [PGSIZE] at *; omega) (by omega) (by rw [hnext]; exact hb')).mono ?_
      rintro res t' ⟨hc, hm, hend⟩
      rw [hnext, Nat.add_right_comm, Nat.add_assoc] at hm hend
      have hle := hpc.cloned.kept.swaps
      have hle' := hc.kept.swaps
      refine ⟨hpc.cloned.trans hc, hpc.marks.trans hm (Nat.le_succ _) (by omega), hend.imp_right ?_⟩
      rintro ⟨rfl, hbound, hinh, hcomp⟩
      have hinh' : t'.stats.swap_outs = s.stats.swap_outs ∨ Spared s new 0 →
          Inherited old new (va / PGSIZE) (va / PGSIZE + 1) s t ∧
            Inherited old new (va / PGSIZE + 1) (va / PGSIZE + (n + 1)) t t' := fun hcalm =>
        ⟨hpc.inherited (hcalm.imp_left fun hsw => by omega),
          hinh (hcalm.imp (fun hsw => by omega) fun hsp => hsp.congr hpc.cloned.proc)⟩
      refine ⟨rfl, hbound, fun hcalm => ?_, fun hsw => ?_⟩
      · exact (hinh' hcalm).1.trans hpc.marks (hinh' hcalm).2 (Nat.le_succ _) (by omega)
      · exact (hpc.complete rfl).trans hpc.marks (hinh' (.inl hsw)).2 hcomp hle' (by omega) hsw
    | false =>
      rw [if_neg (by decide), ends_bind]
      have hle : 0 / PGSIZE + va / PGSIZE ≤ UPAGES := by
        simp only [Nat.zero_div]
        omega
      refine (uvmunmap_ends hs.inv hs.slots hnew (by decide) hle).mono fun _ t' hun => ?_
      have hold' : old ∈ T.erase new := Finset.mem_erase.mpr ⟨hne, hold⟩
      refine ⟨hpc.cloned.trans (hun.cloned hle hold hne), ?_, .inl ⟨rfl, ?_⟩⟩
      · refine (hpc.marks.trans (c := va / PGSIZE + (n + 1)) ⟨?_, hun.tables old hold, fun v hv => .inl ?_⟩
          (Nat.le_succ _) (by omega))
        · exact hun.others.mono (Finset.erase_subset_erase _ (Finset.erase_subset _ _))
        · exact hun.others.calm hun.swaps old hold' v hv
      · have := hun.bound hle (by simpa using hb')
        simpa using this

end Xv6
