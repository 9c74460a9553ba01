import Xv6.Slots

/-!
# Pages with one reference

`walk` and `kalloc` write to tables, to pages that the kernel holds and to free pages. A page with one other reference is
none of these, and keeps its bytes.
-/

open Xv6.Lib Xv6.Lib.Radix

namespace Xv6

variable [Image] {n₀ : Nat} {L : Prop} {s s' t : Kernel} {T H H' : Finset Nat} {r q v va p P Q : Nat} {A B : Set Nat}

def Intact (P : Nat) (s s' : Kernel) : Prop :=
  refs s P = 1 → refs s' P = 1 ∧ ∀ k < PGSIZE, s'.mem (P + k) = s.mem (P + k)

omit [Image] in
theorem Intact.trans (h : Intact P s t) (h' : Intact P t s') : Intact P s s' := by
  intro h1
  obtain ⟨h2, hb⟩ := h h1
  obtain ⟨h3, hb'⟩ := h' h2
  exact ⟨h3, fun k hk => (hb' k hk).trans (hb k hk)⟩

/-- The held pages `H` are intact, and so is the page of every leaf that is valid at the end, but for those in `A` of `r`. -/
structure Lone (T H : Finset Nat) (r : Nat) (A : Set Nat) (s s' : Kernel) : Prop where
  valid : ∀ r' ∈ T, ∀ v < UPAGES, (r' = r → v ∉ A) → has (pte s'.mem r' v) PTE_V = true →
    pte s'.mem r' v = pte s.mem r' v
  held : ∀ P ∈ H, Intact P s s'
  mapped : ∀ r' ∈ T, ∀ v < UPAGES, (r' = r → v ∉ A) → ∀ P, points (pte s'.mem r' v) = some P → Intact P s s'

namespace Lone

omit [Image]

theorem refl (s : Kernel) : Lone T H r A s s :=
  ⟨fun _ _ _ _ _ _ => rfl, fun _ _ h1 => ⟨h1, fun _ _ => rfl⟩, fun _ _ _ _ _ _ _ h1 => ⟨h1, fun _ _ => rfl⟩⟩

theorem mono (h : Lone T H r A s s') (hAB : A ⊆ B) : Lone T H r B s s' :=
  ⟨fun r' hr' v hv hno => h.valid r' hr' v hv fun he hA => hno he (hAB hA), h.held,
    fun r' hr' v hv hno => h.mapped r' hr' v hv fun he hA => hno he (hAB hA)⟩

theorem drop (h : Lone T H' r A s s') (hH : H ⊆ H') : Lone T H r A s s' :=
  ⟨h.valid, fun P hP => h.held P (hH hP), h.mapped⟩

theorem trans (h : Lone T H r A s t) (h' : Lone T H r B t s') : Lone T H r (A ∪ B) s s' := by
  have hback : ∀ r' ∈ T, ∀ v < UPAGES, (r' = r → v ∉ A ∪ B) → has (pte s'.mem r' v) PTE_V = true →
      pte s'.mem r' v = pte t.mem r' v := fun r' hr' v hv hno =>
    h'.valid r' hr' v hv fun he hB => hno he (.inr hB)
  refine ⟨fun r' hr' v hv hno hV => ?_, fun P hP => (h.held P hP).trans (h'.held P hP), fun r' hr' v hv hno P hP => ?_⟩
  · have he := hback r' hr' v hv hno hV
    rw [he] at hV ⊢
    exact h.valid r' hr' v hv (fun he hA => hno he (.inl hA)) hV
  · refine Intact.trans ?_ (h'.mapped r' hr' v hv (fun he hB => hno he (.inr hB)) P hP)
    rw [hback r' hr' v hv hno (valid_of_points hP).1] at hP
    exact h.mapped r' hr' v hv (fun he hA => hno he (.inl hA)) P hP

theorem others (h : Lone T H r A s s') : Lone (T.erase r) H r ∅ s s' :=
  ⟨fun r' hr' v hv _ => h.valid r' (Finset.mem_of_mem_erase hr') v hv fun he => absurd he (Finset.ne_of_mem_erase hr'),
    h.held,
    fun r' hr' v hv _ => h.mapped r' (Finset.mem_of_mem_erase hr') v hv fun he => absurd he (Finset.ne_of_mem_erase hr')⟩

end Lone

/-! ## Writes -/

theorem Inv.lone_write (h : Inv n₀ L s T H') (hsub : H ⊆ H') (hQ : Page Q) (hm : OnPage Q s.mem s'.mem)
    (hl : ∀ r' ∈ T, ∀ v < UPAGES, (r' = r → v ∉ A) → pte s'.mem r' v = pte s.mem r' v)
    (hc : ∀ P, Page P → P ≠ Q → refs s' P = refs s P) (hheld : Q ∉ H)
    (hmap : ∀ r' ∈ T, ∀ v < UPAGES, points (pte s.mem r' v) = some Q → refs s Q ≠ 1) : Lone T H r A s s' := by
  have hother : ∀ P, Page P → P ≠ Q → Intact P s s' := fun P hP hne h1 =>
    ⟨(hc P hP hne).trans h1, fun k hk => hm.bytes hP hQ hne hk⟩
  refine ⟨fun r' hr' v hv hno _ => hl r' hr' v hv hno, fun P hP => ?_, fun r' hr' v hv hno P hP h1 => ?_⟩
  · exact hother P (h.page_held (hsub hP)) fun he => hheld (he ▸ hP)
  · rw [hl r' hr' v hv hno] at hP
    exact hother P (h.page_leaf hr' hv hP) (fun he => hmap r' hr' v hv (he ▸ hP) (he ▸ h1)) h1

theorem Inv.lone_held (h : Inv n₀ L s T H') (hsub : H ⊆ H') (hp : p ∈ H') (hnot : p ∉ H) (hm : OnPage p s.mem s'.mem)
    (hc : s'.count = s.count) : Lone T H r A s s' := by
  have hoff := h.off_page (h.page_held hp) (fun _ hr _ => h.held_not_table hp hr) hm
  refine h.lone_write hsub (h.page_held hp) hm (fun r' hr' v _ _ => hoff.pte hr' v) ?_ hnot ?_
  · intro P _ _
    rw [refs, refs, hc]
  · intro r' hr' v hv hpt
    exact absurd hpt (h.held_not_mapped hp hr' hv)

theorem Inv.lone_table {n : Node} (h : Inv n₀ L s T H') (hsub : H ⊆ H') (hq : q ∈ T) (hn : node s.mem q n = some Q)
    (hm : OnPage Q s.mem s'.mem) (hc : s'.count = s.count)
    (hl : ∀ r' ∈ T, ∀ v < UPAGES, (r' = r → v ∉ A) → pte s'.mem r' v = pte s.mem r' v) : Lone T H r A s s' := by
  refine h.lone_write hsub (h.page_table hq hn) hm hl ?_ (fun hin => h.held_not_table (hsub hin) hq hn) ?_
  · intro P _ _
    rw [refs, refs, hc]
  · intro r' hr' v hv hpt h1
    cases h.only_leaf hr' hv hpt h1.le (x := .table q n) (by rw [goal_table hq, hn])

theorem Inv.lone_leaf {n : Node} {e : Pte} (h : Inv n₀ L s T H) (hr : r ∈ T) (hq : node s.mem r n = some q)
    (hset : LeafSet T s.mem s'.mem r v e) (hm : OnPage q s.mem s'.mem) (hc : s'.count = s.count) :
    Lone T H r {v} s s' :=
  h.lone_table (Finset.Subset.refl H) hr hq hm hc fun _ hr' _ hv hno =>
    hset.other hr' (hv.trans UPAGES_lt) fun he => hno he.1 he.2

theorem Inv.lone_freed {x : Ref} {n : Node} (h : Inv n₀ L s T H) (hx : goal s.mem T H x = some P)
    (hxr : ∀ r' ∈ T.erase r, ∀ v, x ≠ .leaf r' v) (hxh : ∀ p, x ≠ .held p) (hr : r ∈ T)
    (hq : node s.mem r n = some q) (hm : OnPage q (freed P s).mem s'.mem)
    (hpte : ∀ r' ∈ T.erase r, ∀ v < 512 ^ 3, pte s'.mem r' v = pte s.mem r' v)
    (hc : s'.count = (freed P s).count) : Lone (T.erase r) H r ∅ s s' := by
  have hP := (h.books.mem x P hx).2
  have hgt : goal s.mem T H (.table r n) = some q := by rw [goal_table hr, hq]
  have hother : ∀ y Q, goal s.mem T H y = some Q → y ≠ x → y ≠ .table r n → Intact Q s s' := by
    intro y Q hy hyx hyt h1
    have hQ := (h.books.mem y Q hy).2
    have hQP : Q ≠ P := by
      rintro rfl
      exact hyx (h.books.unique h1.le hy hx)
    have hQq : Q ≠ q := by
      rintro rfl
      exact hyt (h.books.unique h1.le hy hgt)
    refine ⟨?_, fun k hk => ?_⟩
    · rw [refs, hc]
      exact (freed_refs hP hQ).trans ((if_neg hQP).trans h1)
    · rw [hm.bytes hQ (h.page_table hr hq) hQq hk, freed_on_page.bytes hQ hP hQP hk]
  refine ⟨fun r' hr' v hv _ _ => hpte r' hr' v (hv.trans UPAGES_lt), fun Q hQ => ?_, fun r' hr' v hv _ Q hQ => ?_⟩
  · exact hother (.held Q) Q (goal_held hQ) (hxh Q).symm (by simp)
  · rw [hpte r' hr' v (hv.trans UPAGES_lt)] at hQ
    exact hother (.leaf r' v) Q (by rw [goal_leaf (Finset.mem_of_mem_erase hr') hv, hQ]) (hxr r' hr' v).symm (by simp)

/-! ## Taking a page -/

theorem Inv.lone_taken {rest : List Nat} (h : Inv n₀ L s T H) (hfree : s.freelist = p :: rest) :
    Lone T H r A s (Xv6.taken p rest s) := by
  have hp : p ∈ s.freelist := by simp [hfree]
  have hpage := h.page_free hp
  have hm : OnPage p s.mem (Xv6.taken p rest s).mem := OnPage.fill s.mem p 5
  have hoff := h.off_page hpage (fun _ hr _ => h.free_not_table hp hr) hm
  refine h.lone_write (Finset.Subset.refl H) hpage hm (fun r' hr' v _ _ => hoff.pte hr' v) ?_ ?_ ?_
  · intro P hP hne
    exact (refs_setcount hpage rfl hP).trans (if_neg hne)
  · exact fun hin => h.held_not_free hin hp
  · intro r' hr' v hv hpt
    exact absurd (by rw [goal_leaf hr' hv, hpt]) (h.books.free_none hp (.leaf r' v))

theorem Inv.lone_evicted (h : Inv n₀ L s T H) (hq : q ∈ T) (hev : Evicted T s s' q v) : Lone T H r A s s' := by
  obtain ⟨k, hset, -⟩ := hev.set
  have hpts := points_some hev.was.1
  have hother : ∀ P, Page P → P ≠ PTE2PA (pte s.mem q v) → (∀ n, node s.mem q n ≠ some P) → Intact P s s' :=
    fun P hP hne hno h1 => ⟨by rw [hev.counts P hP, if_neg hne, h1], hev.frame P hP hne hno⟩
  have hvalid : ∀ r' ∈ T, ∀ v' < UPAGES, has (pte s'.mem r' v') PTE_V = true →
      ¬ (r' = q ∧ v' = v) ∧ pte s'.mem r' v' = pte s.mem r' v' := by
    intro r' hr' v' hv' hV
    have hleaf := hset.leaves r' hr' v' (hv'.trans UPAGES_lt)
    by_cases he : r' = q ∧ v' = v
    · rw [if_pos he] at hleaf
      rw [hleaf, small_of_swapblock k small_V (by decide)] at hV
      cases hV
    · rw [if_neg he] at hleaf
      exact ⟨he, hleaf⟩
  refine ⟨fun r' hr' v' hv' _ hV => (hvalid r' hr' v' hv' hV).2, fun P hP => ?_, fun r' hr' v' hv' _ P hP h1 => ?_⟩
  · refine hother P (h.page_held hP) ?_ fun n => h.held_not_table hP hq
    rintro rfl
    exact h.held_not_mapped hP hq hev.user hpts
  · obtain ⟨hne, he⟩ := hvalid r' hr' v' hv' (valid_of_points hP).1
    rw [he] at hP
    refine hother P (h.page_leaf hr' hv' hP) ?_ ?_ h1
    · rintro rfl
      cases h.only_leaf hr' hv' hP h1.le (x := .leaf q v) (by rw [goal_leaf hq hev.user, hpts])
      exact hne ⟨rfl, rfl⟩
    · intro n hn
      cases h.only_leaf hr' hv' hP h1.le (x := .table q n) (by rw [goal_table hq, hn])

/-! ## Pages in hand -/

structure Unseen (n₀ : Nat) (T H : Finset Nat) (s s' : Kernel) : Prop where
  evolve : Evolve n₀ T H s s'
  fixed : Fixed T s s'
  slots : Slots T s → Slots T s'
  lone : ∀ r, Lone T H r ∅ s s'

namespace Unseen

omit [Image] in
theorem refl (s : Kernel) : Unseen n₀ T H s s := ⟨.refl s, .refl s, id, fun _ => .refl s⟩

omit [Image] in
theorem trans (h : Unseen n₀ T H s t) (h' : Unseen n₀ T H t s') : Unseen n₀ T H s s' :=
  ⟨h.evolve.trans h'.evolve, h.fixed.trans h'.fixed, fun hs => h'.slots (h.slots hs),
    fun r => ((h.lone r).trans (h'.lone r)).mono (by simp)⟩

omit [Image] in
theorem denied (s : Kernel) : Unseen n₀ T H s (denied s) :=
  ⟨(Evolve.refl s).denied, .of_off (.refl _) rfl rfl, fun hs => hs.sheds (.of_off (.refl _) rfl),
    fun r =>
      have hrefl : Lone T H r ∅ s s := .refl s
      ⟨hrefl.valid, hrefl.held, hrefl.mapped⟩⟩

end Unseen

theorem Inv.evolve_in_hand (h : Inv n₀ L s T (insert p H)) (hnot : p ∉ H)
    (hm : OnPage p s.mem s'.mem) (hproc : s'.proc = s.proc)
    (hc : ∀ Q, Page Q → Q ≠ p → refs s' Q = refs s Q)
    (hsw : s'.stats.swap_outs = s.stats.swap_outs) : Evolve n₀ T H s s' := by
  have hp := Finset.mem_insert_self p H
  exact h.evolve_page (Finset.Subset.refl T) (Finset.subset_insert p H) (h.page_held hp)
    (fun _ hr _ => h.held_not_table hp hr) (fun _ hr _ hv => h.held_not_mapped hp hr hv) hnot hm hproc hc hsw

theorem Inv.unseen_in_hand (h : Inv n₀ L s T (insert p H)) (hnot : p ∉ H)
    (hm : OnPage p s.mem s'.mem) (hproc : s'.proc = s.proc)
    (hc : ∀ Q, Page Q → Q ≠ p → refs s' Q = refs s Q)
    (hsw : s'.stats.swap_outs = s.stats.swap_outs) (hswap : s'.swap = s.swap) : Unseen n₀ T H s s' := by
  have hp := Finset.mem_insert_self p H
  have hoff := h.off_page (h.page_held hp) (fun _ hr _ => h.held_not_table hp hr) hm
  refine ⟨h.evolve_in_hand hnot hm hproc hc hsw, .of_off hoff hproc hsw, fun hs => hs.sheds (.of_off hoff hswap), fun r => ?_⟩
  refine h.lone_write (Finset.subset_insert p H) (h.page_held hp) hm (fun r' hr' v _ _ => hoff.pte hr' v) hc hnot ?_
  intro r' hr' v hv hpt
  exact absurd hpt (h.held_not_mapped hp hr' hv)

theorem Inv.memset_in_hand (h : Inv n₀ L s T (insert p H)) (hnot : p ∉ H) {c : Byte} {u : Unit}
    (hrun : memset p c PGSIZE s = .ok (u, s')) :
    Inv n₀ L s' T (insert p H) ∧ Unseen n₀ T H s s' := by
  rw [memset_ok] at hrun
  subst hrun
  have hm : OnPage p s.mem (s.mem.fill p PGSIZE c) := OnPage.fill s.mem p c
  exact ⟨h.write_held (Finset.mem_insert_self p H) hm rfl rfl rfl,
    h.unseen_in_hand hnot hm rfl (fun _ _ _ => rfl) rfl rfl⟩

theorem Inv.kfree_in_hand (h : Inv n₀ L s T (insert p H)) (hnot : p ∉ H) {u : Unit}
    (hrun : kfree p s = .ok (u, s')) : Inv n₀ L s' T H ∧ Unseen n₀ T H s s' := by
  have hinv := h.kfree_held (Finset.mem_insert_self p H) hrun
  rw [Finset.erase_insert hnot] at hinv
  obtain ⟨hP, -, rfl⟩ := kfree_ok hrun
  refine ⟨hinv, h.unseen_in_hand hnot freed_on_page freed_proc ?_ freed_swap_outs freed_swap⟩
  intro Q hQ hne
  rw [freed_refs hP hQ, if_neg hne]

theorem Inv.refs_held (h : Inv n₀ L s T H) (hp : p ∈ H) : refs s p = 1 := by
  have hpos := h.books.pos (goal_held (m := s.mem) (T := T) hp)
  have hle := refCount_le_one (U := Ref.all) (f := goal s.mem T H) (x := .held p) (P := p)
    fun y _ hy => h.held_only hp hy
  have := h.books.exact p (h.page_held hp)
  omega

/-! ## Allocation -/

theorem Inv.unseen_taken {rest : List Nat} (h : Inv n₀ L s T H) (hfree : s.freelist = p :: rest) :
    Unseen n₀ T H s (Xv6.taken p rest s) := by
  have hp : p ∈ s.freelist := by simp [hfree]
  have hoff := h.off_page (h.page_free hp) (fun _ hr _ => h.free_not_table hp hr) (OnPage.fill s.mem p 5)
  obtain ⟨-, -, hev, -⟩ := h.taken hfree
  exact ⟨hev, .of_off hoff rfl rfl, fun hs => hs.sheds (.of_off hoff rfl), fun _ => h.lone_taken hfree⟩

theorem kalloc_spec (h : Inv n₀ L s T H) (hin : ProcsIn s T) {res : Option Nat}
    (hrun : kalloc s = .ok (res, s')) :
    Unseen n₀ T H s s' ∧ s'.freelist ⊆ s.freelist ∧ (res = none → Inv n₀ L s' T H) ∧
      ∀ p, res = some p → p ∉ H ∧ Inv n₀ L s' T (insert p H) := by
  rcases kalloc_ok hrun with ⟨p, rest, hfree, rfl, rfl⟩ | ⟨hnil, res', t, hvictim, hrest⟩
  · obtain ⟨hnot, hinv, -⟩ := h.taken hfree
    refine ⟨h.unseen_taken hfree, ?_, by simp, ?_⟩
    · rw [hfree]
      exact List.subset_cons_self p rest
    · rintro q ⟨⟩
      exact ⟨hnot, hinv⟩
  · rcases victim_spec h hin hvictim with ⟨rfl, rfl⟩ | ⟨rfl, i, hi, hu, hr, v, hv, hevict, hinv⟩
    · rcases hrest with ⟨-, rfl, rfl⟩ | ⟨hbad, -⟩
      · exact ⟨.denied t, List.Subset.refl _, fun _ => h.denied, by simp⟩
      · cases hbad
    · have hun : Unseen n₀ T H s t :=
        ⟨hevict.evolve fun r hr v hv P hP => hinv.page_leaf hr hv hP, hevict.fixed hi hu hv, hevict.slots,
          fun _ => h.lone_evicted hr hevict⟩
      rcases hrest with ⟨hnil', rfl, rfl⟩ | ⟨-, p, rest, hfree, rfl, rfl⟩
      · refine ⟨hun.trans (.denied t), ?_, fun _ => hinv.denied, by simp⟩
        rw [denied, hnil' rfl]
        exact List.nil_subset _
      · obtain ⟨hnot, hinv', -⟩ := hinv.taken hfree
        refine ⟨hun.trans (hinv.unseen_taken hfree), ?_, by simp, ?_⟩
        · rcases hevict.free_of_nil hnil with hf | ⟨q, hf⟩
          · rw [hf] at hfree
            cases hfree
          · rw [hf] at hfree
            cases hfree
            exact List.nil_subset _
        · rintro q ⟨⟩
          exact ⟨hnot, hinv'⟩

/-! ## Walking and mapping -/

/-- The tree of `r` gets tables at most, and the others are as before, but for evictions. -/
structure Grows (n₀ : Nat) (T H : Finset Nat) (r : Nat) (s s' : Kernel) : Prop where
  evolve : Evolve n₀ T H s s'
  only : Only T r ∅ s s'
  slots : Slots T s → Slots T s'
  lone : Lone T H r ∅ s s'

namespace Grows

omit [Image]

theorem refl (s : Kernel) : Grows n₀ T H r s s := ⟨.refl s, .refl s, id, .refl s⟩

theorem of_unseen (h : Unseen n₀ T H s s') (hr : r ∈ T) : Grows n₀ T H r s s' :=
  ⟨h.evolve, .of_fixed h.fixed hr, h.slots, h.lone r⟩

theorem trans (h : Grows n₀ T H r s t) (h' : Grows n₀ T H r t s') : Grows n₀ T H r s s' :=
  ⟨h.evolve.trans h'.evolve, (h.only.trans h'.only).mono (by simp), fun hs => h'.slots (h.slots hs),
    (h.lone.trans h'.lone).mono (by simp)⟩

theorem drop (h : Grows n₀ T H' r s s') (hH : H ⊆ H') : Grows n₀ T H r s s' :=
  ⟨h.evolve.mono (Finset.Subset.refl T) hH, h.only, h.slots, h.lone.drop hH⟩

end Grows

theorem Inv.hang_grows {n n' : Node} {k : Fin 512} (h : Inv n₀ L s T (insert p H)) (hnot : p ∉ H) (hr : r ∈ T)
    (hq : node s.mem r n = some q) (hc : child n k = some n') (hold : node s.mem r n' = none)
    (ht : t = { s with mem := (s.mem.fill p PGSIZE 0).store64 (q + 8 * k) (PA2PTE p ||| PTE_V) }) :
    Inv n₀ L t T H ∧ Grows n₀ T H r s t ∧ node t.mem r n' = some p := by
  have hself := Finset.mem_insert_self p H
  obtain ⟨hinv, hev, hn, hother, hleaf⟩ := h.hang_zero (t := t) hr hq hc hold hself (by rw [ht]) (by rw [ht])
    (by rw [ht]) (by rw [ht]) (by rw [ht])
  rw [Finset.erase_insert hnot] at hinv hev
  refine ⟨hinv, ⟨hev, .of_tables (by rw [ht]) (by rw [ht]) hr hother hleaf,
    fun hs => hs.sheds (.of_leaves (by rw [ht]) fun r' hr' v _ => hleaf r' hr' v), ?_⟩, hn⟩
  -- The page is zeroed, and then the table above it is written.
  obtain ⟨z, hz⟩ : ∃ z : Kernel, z = { s with mem := s.mem.fill p PGSIZE 0 } := ⟨_, rfl⟩
  have hm : OnPage p s.mem z.mem := by rw [hz]; exact OnPage.fill s.mem p 0
  have hoff := h.off_page (h.page_held hself) (fun _ hr' _ => h.held_not_table hself hr') hm
  have hinvz : Inv n₀ L z T (insert p H) := h.write_held hself hm (by rw [hz]) (by rw [hz]) (by rw [hz])
  have hzero : Lone T H r ∅ s z := h.lone_held (Finset.subset_insert p H) hself hnot hm (by rw [hz])
  have hqz : node z.mem r n = some q := by rw [hoff.node hr, hq]
  have htable : Lone T H r ∅ z t := by
    refine hinvz.lone_table (Finset.subset_insert p H) hr hqz ?_ (by rw [ht, hz]) fun r' hr' v _ _ => ?_
    · rw [ht, hz]
      exact store_on_page k _
    · rw [hleaf r' hr', hoff.pte hr']
  exact (hzero.trans htable).mono (by simp)

structure Enters (n₀ : Nat) (T H : Finset Nat) (r v : Nat) (e : Pte) (s s' : Kernel) : Prop where
  set : LeafSet T s.mem s'.mem r v e
  evolve : Evolve n₀ (T.erase r) H s s'
  lone : Lone T H r {v} s s'
  bytes : s.stats.swap_outs = n₀ → ∀ P, (P ∈ H ∨ ∃ r ∈ T, ∃ v < UPAGES, points (pte s.mem r v) = some P) →
    ∀ k < PGSIZE, s'.mem (P + k) = s.mem (P + k)

theorem Inv.enters {e : Pte} (h : Inv n₀ L s T H) (hr : r ∈ T) (hva : va < MAXVA) (hq : low s.mem r va = some q)
    (hmem : t.mem = s.mem.store64 (q + 8 * (lo (va / PGSIZE) : Nat)) e) (hproc : t.proc = s.proc)
    (hc : t.count = s.count) (hsw : t.stats.swap_outs = s.stats.swap_outs) :
    Enters n₀ T H r (va / PGSIZE) e s t := by
  obtain ⟨hset, hev⟩ := h.evolve_leaf (t := t) hr hva hq hmem hproc hc hsw
  have hon : OnPage q s.mem t.mem := by
    rw [hmem]
    exact store_on_page _ _
  exact ⟨hset, hev, h.lone_leaf hr hq hset hon hc, fun h0 _ hP => h.table_bytes hr hq hon h0 hP⟩

end Xv6
