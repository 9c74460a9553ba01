import Xv6.Ledger

/-!
# The moves of the ledger

Every change that the kernel makes to entries, tables, counts and the freelist is one of a few moves. Each of them keeps
`Inv`.
-/

open Xv6.Lib Xv6.Lib.Radix

namespace Xv6

section goals
variable {m m' m'' : Mem} {T H : Finset Nat} {r v p : Nat} {e : Pte}

/-! ## Held pages -/

theorem goal_insert (p : Nat) :
    goal m T (insert p H) = Function.update (goal m T H) (.held p) (some p) := by
  funext x
  by_cases hx : x = .held p
  · subst hx
    simp [goal]
  · rw [Function.update_of_ne hx]
    cases x with
    | held q =>
      have hq : q ≠ p := fun he => hx (he ▸ rfl)
      simp [goal, hq]
    | leaf _ _ => rfl
    | table _ _ => rfl

theorem goal_erase (p : Nat) :
    goal m T (H.erase p) = Function.update (goal m T H) (.held p) none := by
  funext x
  by_cases hx : x = .held p
  · subst hx
    simp [goal]
  · rw [Function.update_of_ne hx]
    cases x with
    | held q =>
      have hq : q ≠ p := fun he => hx (he ▸ rfl)
      simp [goal, hq]
    | leaf _ _ => rfl
    | table _ _ => rfl

theorem goal_held_none (hp : p ∉ H) : goal m T H (.held p) = none := if_neg hp

/-! ## One leaf changes -/

structure LeafSet (T : Finset Nat) (m m' : Mem) (r v : Nat) (e : Pte) : Prop where
  tables : ∀ r' ∈ T, ∀ n, node m' r' n = node m r' n
  leaves : ∀ r' ∈ T, ∀ v' < 512 ^ 3, pte m' r' v' = if r' = r ∧ v' = v then e else pte m r' v'
  plain : ∀ r' ∈ T, Plain m r' → Plain m' r'

theorem leafSet_store (hf : Forest points m T) (hr : r ∈ T) (hv : v < 512 ^ 3)
    (hp : node m r (.low (hi v) (md v)) = some p) (e : Pte) :
    LeafSet T m (m.store64 (p + 8 * lo v) e) r v e := by
  have htab := table_store_low hf hr hp (lo v) e
  have hwalk := table_store_low_of_le (fun _ _ => points_of_walkable) hf hr hp (lo v) e
  refine ⟨htab, entry_store_low hf hr hv hp e, fun r' hr' hp' n => ?_⟩
  exact (hwalk r' hr' n).trans ((hp' n).trans (htab r' hr' n).symm)

theorem LeafSet.off (h : LeafSet T m m' r v e) (ho : Off T m' m'') : LeafSet T m m'' r v e := by
  constructor
  · intro r' hr' n
    rw [ho.node hr', h.tables r' hr']
  · intro r' hr' v' hv'
    rw [ho.pte hr', h.leaves r' hr' v' hv']
  · exact fun r' hr' hp => ho.plain hr' (h.plain r' hr' hp)

theorem Off.leafSet (ho : Off T m m') (h : LeafSet T m' m'' r v e) : LeafSet T m m'' r v e := by
  constructor
  · intro r' hr' n
    rw [h.tables r' hr', ho.node hr']
  · intro r' hr' v' hv'
    rw [h.leaves r' hr' v' hv', ho.pte hr']
  · exact fun r' hr' hp => h.plain r' hr' (ho.plain hr' hp)

theorem LeafSet.self (h : LeafSet T m m' r v e) (hr : r ∈ T) (hv : v < 512 ^ 3) :
    pte m' r v = e := by
  rw [h.leaves r hr v hv, if_pos ⟨rfl, rfl⟩]

theorem LeafSet.other (h : LeafSet T m m' r v e) {r' v' : Nat} (hr : r' ∈ T) (hv : v' < 512 ^ 3)
    (hne : ¬ (r' = r ∧ v' = v)) : pte m' r' v' = pte m r' v' := by
  rw [h.leaves r' hr v' hv, if_neg hne]

theorem LeafSet.goal (h : LeafSet T m m' r v e) (hr : r ∈ T) (hv : v < UPAGES) :
    goal m' T H = Function.update (goal m T H) (.leaf r v) (points e) := by
  funext x
  by_cases hx : x = .leaf r v
  · subst hx
    rw [Function.update_self, goal_leaf hr hv, h.self hr (hv.trans UPAGES_lt)]
  · rw [Function.update_of_ne hx]
    cases x with
    | leaf r' v' =>
      have hne : ¬ (r' = r ∧ v' = v) := by
        rintro ⟨rfl, rfl⟩
        exact hx rfl
      simp only [Xv6.goal]
      split_ifs with hrv
      · rw [h.other hrv.1 (hrv.2.trans UPAGES_lt) hne]
      · rfl
    | table r' n =>
      simp only [Xv6.goal]
      split_ifs with hr'
      · exact h.tables r' hr' n
      · rfl
    | held _ => rfl

theorem LeafSet.goal_top (h : LeafSet T m m' r v e) (hv : UPAGES ≤ v) :
    Xv6.goal m' T H = Xv6.goal m T H := by
  apply goal_congr h.tables
  intro r' hr' v' hv'
  apply h.other hr' (hv'.trans UPAGES_lt)
  rintro ⟨-, rfl⟩
  omega

end goals

variable [Image] {n₀ : Nat} {L : Prop} {s s' : Kernel} {T H : Finset Nat} {r v p P : Nat} {e : Pte}
  {rest : List Nat}

namespace Inv

theorem flags_set (h : Inv n₀ L s T H) (hset : LeafSet T s.mem s'.mem r v e) (hok : LeafOk v e) :
    ∀ r' ∈ T, ∀ v' < 512 ^ 3, LeafOk v' (pte s'.mem r' v') := by
  intro r' hr' v' hv'
  rw [hset.leaves r' hr' v' hv']
  split_ifs with hrv
  · exact hrv.2 ▸ hok
  · exact h.flags r' hr' v' hv'

omit [Image] in
theorem compat_set (hset : LeafSet T s.mem s'.mem r v e)
    (hsw : s.stats.swap_outs ≤ s'.stats.swap_outs) {x y : Ref} {P Q : Nat}
    (hx : goal s.mem T H x = some P) (hy : goal s.mem T H y = some Q) (hxl : x ≠ .leaf r v)
    (hyl : y ≠ .leaf r v) (h : Compat n₀ s x y) : Compat n₀ s' x y := by
  refine h.mono hsw ?_ ?_
  · rintro r' v' rfl
    obtain ⟨⟨hr', hv'⟩, -⟩ := of_goal_leaf hx
    apply hset.other hr' (hv'.trans UPAGES_lt)
    rintro ⟨rfl, rfl⟩
    exact hxl rfl
  · rintro r' v' rfl
    obtain ⟨⟨hr', hv'⟩, -⟩ := of_goal_leaf hy
    apply hset.other hr' (hv'.trans UPAGES_lt)
    rintro ⟨rfl, rfl⟩
    exact hyl rfl

omit [Image] in
theorem ne_of_update {f : Ref → Option Nat} {x y : Ref} {P : Nat}
    (h : Function.update f x none y = some P) : y ≠ x ∧ f y = some P := by
  by_cases hyx : y = x
  · subst hyx
    simp at h
  · rw [Function.update_of_ne hyx] at h
    exact ⟨hyx, h⟩

theorem drop_leaf (h : Inv n₀ L s T H) (hr : r ∈ T) (hv : v < UPAGES)
    (hset : LeafSet T s.mem s'.mem r v e) (hP : points (pte s.mem r v) = some P)
    (he : points e = none) (hok : LeafOk v e)
    (hc : ∀ Q, Page Q → refs s' Q = if Q = P then refs s Q - 1 else refs s Q)
    (hf : s'.freelist = if refs s P = 1 then P :: s.freelist else s.freelist)
    (hsw : s.stats.swap_outs ≤ s'.stats.swap_outs) : Inv n₀ L s' T H := by
  refine ⟨?_, h.flags_set hset hok, fun r' hr' => hset.plain r' hr' (h.plain r' hr')⟩
  have hl : goal s.mem T H (.leaf r v) = some P := by rw [goal_leaf hr hv, hP]
  rw [hset.goal hr hv, he, hf]
  refine (h.books.del hl hc).mono ?_
  intro x y Q hx hy _ hxy
  obtain ⟨hxl, hx⟩ := ne_of_update hx
  obtain ⟨hyl, hy⟩ := ne_of_update hy
  exact compat_set hset hsw hx hy hxl hyl hxy

theorem map_held (h : Inv n₀ L s T H) (hr : r ∈ T) (hv : v < UPAGES)
    (hset : LeafSet T s.mem s'.mem r v e) (hold : points (pte s.mem r v) = none) (hp : p ∈ H)
    (he : points e = some p) (hok : LeafOk v e) (hc : s'.count = s.count)
    (hf : s'.freelist = s.freelist) (hsw : s'.stats.swap_outs = s.stats.swap_outs) :
    Inv n₀ L s' T (H.erase p) := by
  refine ⟨?_, h.flags_set hset hok, fun r' hr' => hset.plain r' hr' (h.plain r' hr')⟩
  have hl : goal s.mem T H (.leaf r v) = none := by rw [goal_leaf hr hv, hold]
  have hroot := (h.page_root hr).lt
  rw [hset.goal hr hv, goal_erase, he, hf]
  -- No reference in use is the leaf at hand, so the new entry matters to none of them.
  have hmono := h.books.mono (q := Compat n₀ s') (by
    intro x y Q hx hy _ hxy
    refine compat_set hset hsw.ge hx hy ?_ ?_ hxy
    · rintro rfl
      rw [hl] at hx
      cases hx
    · rintro rfl
      rw [hl] at hy
      cases hy)
  refine (hmono.move (goal_held hp) hl (Ref.leaf_mem hroot hv) fun z => not_compat_held).count_congr ?_
  intro Q _
  simp only [refs, hc]

theorem share (h : Inv n₀ L s T H) (hr : r ∈ T) (hv : v < UPAGES)
    (hset : LeafSet T s.mem s'.mem r v e) (hold : points (pte s.mem r v) = none) (hP : Page P)
    (hfree : P ∉ s.freelist) (he : points e = some P) (hok : LeafOk v e)
    (hcomp : ∀ y, goal s.mem T H y = some P → Compat n₀ s' (.leaf r v) y)
    (hc : ∀ Q, Page Q → refs s' Q = if Q = P then refs s Q + 1 else refs s Q)
    (hf : s'.freelist = s.freelist) (hsw : s'.stats.swap_outs = s.stats.swap_outs) :
    Inv n₀ L s' T H := by
  refine ⟨?_, h.flags_set hset hok, fun r' hr' => hset.plain r' hr' (h.plain r' hr')⟩
  have hl : goal s.mem T H (.leaf r v) = none := by rw [goal_leaf hr hv, hold]
  have hroot := (h.page_root hr).lt
  rw [hset.goal hr hv, he, hf]
  have hmono := h.books.mono (q := Compat n₀ s') (by
    intro x y Q hx hy _ hxy
    refine compat_set hset hsw.ge hx hy ?_ ?_ hxy
    · rintro rfl
      rw [hl] at hx
      cases hx
    · rintro rfl
      rw [hl] at hy
      cases hy)
  exact hmono.add (Ref.leaf_mem hroot hv) hl hP hfree (fun y hy => ⟨hcomp y hy, (hcomp y hy).symm⟩) hc

theorem recolor (h : Inv n₀ L s T H) (hr : r ∈ T) (hv : v < UPAGES)
    (hset : LeafSet T s.mem s'.mem r v e) (he : points e = points (pte s.mem r v))
    (hok : LeafOk v e)
    (hcomp : ∀ y P, points (pte s.mem r v) = some P → goal s.mem T H y = some P → y ≠ .leaf r v →
      Compat n₀ s' (.leaf r v) y)
    (hc : s'.count = s.count) (hf : s'.freelist = s.freelist)
    (hsw : s'.stats.swap_outs = s.stats.swap_outs) : Inv n₀ L s' T H := by
  refine ⟨?_, h.flags_set hset hok, fun r' hr' => hset.plain r' hr' (h.plain r' hr')⟩
  have hgoal : goal s'.mem T H = goal s.mem T H := by
    rw [hset.goal hr hv, he, ← goal_leaf (H := H) hr hv, Function.update_eq_self]
  rw [hgoal, hf]
  refine Counted.count_congr (h.books.mono ?_) fun Q _ => by simp only [refs, hc]
  intro x y Q hx hy hne hxy
  by_cases hxl : x = .leaf r v
  · subst hxl
    rw [goal_leaf hr hv] at hx
    exact hcomp y Q hx hy (Ne.symm hne)
  · by_cases hyl : y = .leaf r v
    · subst hyl
      rw [goal_leaf hr hv] at hy
      exact (hcomp x Q hy hx hne).symm
    · exact compat_set hset hsw.ge hx hy hxl hyl hxy

theorem retarget (h : Inv n₀ L s T H) (hr : r ∈ T) (hv : v < UPAGES)
    (hset : LeafSet T s.mem s'.mem r v e) (hP : points (pte s.mem r v) = some P) (hp : p ∈ H)
    (he : points e = some p) (hok : LeafOk v e) (hL : L → refs s P ≠ 1)
    (hc : ∀ Q, Page Q → refs s' Q = if Q = P then refs s Q - 1 else refs s Q)
    (hf : s'.freelist = s.freelist) (hsw : s'.stats.swap_outs = s.stats.swap_outs) :
    Inv n₀ L s' T (H.erase p) := by
  refine ⟨?_, h.flags_set hset hok, fun r' hr' => hset.plain r' hr' (h.plain r' hr')⟩
  have hl : goal s.mem T H (.leaf r v) = some P := by rw [goal_leaf hr hv, hP]
  have hroot := (h.page_root hr).lt
  have hdel := (h.books.del_keep (d := refs s') hl hL hc).mono (q := Compat n₀ s') (by
    intro x y Q hx hy _ hxy
    obtain ⟨hxl, hx⟩ := ne_of_update hx
    obtain ⟨hyl, hy⟩ := ne_of_update hy
    exact compat_set hset hsw.ge hx hy hxl hyl hxy)
  have hheld : Function.update (goal s.mem T H) (.leaf r v) none (.held p) = some p := by
    rw [Function.update_of_ne (by simp), goal_held hp]
  have hmove := hdel.move hheld (Function.update_self ..) (Ref.leaf_mem hroot hv)
    fun z => not_compat_held
  rw [hset.goal hr hv, goal_erase, he, hf]
  rw [Function.update_comm (by simp), Function.update_idem, Function.update_comm (by simp)] at hmove
  exact hmove

theorem set_top (h : Inv n₀ L s T H) (hv : UPAGES ≤ v) (hset : LeafSet T s.mem s'.mem r v e)
    (hok : LeafOk v e) (hc : s'.count = s.count) (hf : s'.freelist = s.freelist)
    (hsw : s'.stats.swap_outs = s.stats.swap_outs) : Inv n₀ L s' T H := by
  refine ⟨?_, h.flags_set hset hok, fun r' hr' => hset.plain r' hr' (h.plain r' hr')⟩
  rw [hset.goal_top hv, hf]
  refine Counted.count_congr (h.books.mono ?_) fun Q _ => by simp only [refs, hc]
  intro x y Q hx hy _ hxy
  refine compat_set hset hsw.ge hx hy ?_ ?_ hxy
  · rintro rfl
    have := (of_goal_leaf hx).1.2
    omega
  · rintro rfl
    have := (of_goal_leaf hy).1.2
    omega

/-! ## Held pages -/

theorem take (h : Inv n₀ L s T H) (hfree : s.freelist = p :: rest) (hm : OnPage p s.mem s'.mem)
    (hc : ∀ Q, Page Q → refs s' Q = if Q = p then 1 else refs s Q) (hf : s'.freelist = rest)
    (hsw : s'.stats.swap_outs = s.stats.swap_outs) : Inv n₀ L s' T (insert p H) ∧ p ∉ H := by
  have hp : p ∈ s.freelist := by simp [hfree]
  have hnot : p ∉ H := fun hin => h.held_not_free hin hp
  have hoff := h.off_page (h.page_free hp) (fun _ hr _ => h.free_not_table hp hr) hm
  have hb := h.books
  rw [hfree] at hb
  have htake := hb.take (d := refs s') (Ref.held_mem (h.page_free hp).lt) (goal_held_none hnot) hc
  refine ⟨⟨?_, ?_, fun r' hr' => hoff.plain hr' (h.plain r' hr')⟩, hnot⟩
  · rw [hoff.goal, goal_insert, hf]
    refine htake.mono ?_
    intro x y Q hx hy _ hxy
    -- A leaf among the references is in one of the trees, which are as before.
    have hleaf : ∀ {z : Ref} {r' v' : Nat}, Function.update (goal s.mem T H) (.held p) (some p) z = some Q →
        z = .leaf r' v' → pte s'.mem r' v' = pte s.mem r' v' := by
      rintro z r' v' hz rfl
      rw [Function.update_of_ne (by simp)] at hz
      exact hoff.pte (of_goal_leaf hz).1.1 v'
    exact hxy.mono hsw.ge (fun r' v' he => hleaf hx he) (fun r' v' he => hleaf hy he)
  · intro r' hr' v' hv'
    rw [hoff.pte hr']
    exact h.flags r' hr' v' hv'

theorem release (h : Inv n₀ L s T H) (hp : p ∈ H) (hm : OnPage p s.mem s'.mem)
    (hc : ∀ Q, Page Q → refs s' Q = if Q = p then refs s Q - 1 else refs s Q)
    (hf : s'.freelist = if refs s p = 1 then p :: s.freelist else s.freelist)
    (hsw : s'.stats.swap_outs = s.stats.swap_outs) : Inv n₀ L s' T (H.erase p) := by
  have hoff := h.off_page (h.page_held hp) (fun _ hr _ => h.held_not_table hp hr) hm
  refine ⟨?_, ?_, fun r' hr' => hoff.plain hr' (h.plain r' hr')⟩
  · rw [hoff.goal, goal_erase, hf]
    refine (h.books.del (goal_held hp) hc).mono ?_
    intro x y Q hx hy _ hxy
    refine hxy.mono hsw.ge ?_ ?_
    · rintro r' v' rfl
      exact hoff.pte (of_goal_leaf (ne_of_update hx).2).1.1 v'
    · rintro r' v' rfl
      exact hoff.pte (of_goal_leaf (ne_of_update hy).2).1.1 v'
  · intro r' hr' v' hv'
    rw [hoff.pte hr']
    exact h.flags r' hr' v' hv'

end Inv

/-! ## Tables -/

omit [Image]

structure NodeSet (T : Finset Nat) (m m' : Mem) (r : Nat) (n : Node) (c : Option Nat) : Prop where
  tables : ∀ r' ∈ T, ∀ x, node m' r' x = if r' = r ∧ x = n then c else node m r' x
  leaves : ∀ r' ∈ T, ∀ v < 512 ^ 3, pte m' r' v = pte m r' v ∨ pte m' r' v = 0#64
  valid : ∀ r' ∈ T, ∀ v < 512 ^ 3, points (pte m' r' v) = points (pte m r' v)
  plain : (∀ r' ∈ T, Plain m r') → ∀ r' ∈ T, Plain m' r'

theorem NodeSet.goal {m m' : Mem} {n : Node} {c : Option Nat} (h : NodeSet T m m' r n c)
    (hr : r ∈ T) : goal m' T H = Function.update (goal m T H) (.table r n) c := by
  funext x
  by_cases hx : x = .table r n
  · subst hx
    rw [Function.update_self, goal_table hr, h.tables r hr, if_pos ⟨rfl, rfl⟩]
  · rw [Function.update_of_ne hx]
    cases x with
    | leaf r' v =>
      simp only [Xv6.goal]
      split_ifs with hrv
      · exact h.valid r' hrv.1 v (hrv.2.trans UPAGES_lt)
      · rfl
    | table r' n' =>
      simp only [Xv6.goal]
      split_ifs with hr'
      · rw [h.tables r' hr', if_neg]
        rintro ⟨rfl, rfl⟩
        exact hx rfl
      · rfl
    | held _ => rfl

theorem leafOk_zero (v : Nat) : LeafOk v 0#64 := by
  unfold LeafOk
  split_ifs <;> simp

theorem NodeSet.pte_eq {m m' : Mem} {n : Node} {c : Option Nat} (h : NodeSet T m m' r n c)
    {r' : Nat} (hx : Xv6.goal m T H (.leaf r' v) = some P) : pte m' r' v = pte m r' v := by
  obtain ⟨⟨hr', hv⟩, hp⟩ := of_goal_leaf hx
  have hv3 := hv.trans UPAGES_lt
  rcases h.leaves r' hr' v hv3 with he | he
  · exact he
  · have hval := h.valid r' hr' v hv3
    rw [he, hp] at hval
    simp at hval

variable [Image] {n : Node}

namespace Inv

theorem flags_node (h : Inv n₀ L s T H) {c : Option Nat} (hset : NodeSet T s.mem s'.mem r n c) :
    ∀ r' ∈ T, ∀ v' < 512 ^ 3, LeafOk v' (pte s'.mem r' v') := by
  intro r' hr' v' hv'
  rcases hset.leaves r' hr' v' hv' with he | he
  · rw [he]
    exact h.flags r' hr' v' hv'
  · rw [he]
    exact leafOk_zero v'

theorem hang (h : Inv n₀ L s T H) (hr : r ∈ T) (hset : NodeSet T s.mem s'.mem r n (some p))
    (hold : node s.mem r n = none) (hp : p ∈ H) (hc : s'.count = s.count)
    (hf : s'.freelist = s.freelist) (hsw : s'.stats.swap_outs = s.stats.swap_outs) :
    Inv n₀ L s' T (H.erase p) := by
  refine ⟨?_, h.flags_node hset, hset.plain h.plain⟩
  have hl : goal s.mem T H (.table r n) = none := by rw [goal_table hr, hold]
  rw [hset.goal hr, goal_erase, hf]
  have hmono := h.books.mono (q := Compat n₀ s') (by
    intro x y Q hx hy _ hxy
    refine hxy.mono hsw.ge ?_ ?_
    · rintro r' v' rfl
      exact hset.pte_eq hx
    · rintro r' v' rfl
      exact hset.pte_eq hy)
  refine (hmono.move (goal_held hp) hl (Ref.table_mem (h.page_root hr).lt n)
    fun z => not_compat_held).count_congr ?_
  intro Q _
  simp only [refs, hc]

theorem prune (h : Inv n₀ L s T H) (hr : r ∈ T) (hset : NodeSet T s.mem s'.mem r n none)
    (hP : node s.mem r n = some P)
    (hc : ∀ Q, Page Q → refs s' Q = if Q = P then refs s Q - 1 else refs s Q)
    (hf : s'.freelist = if refs s P = 1 then P :: s.freelist else s.freelist)
    (hsw : s'.stats.swap_outs = s.stats.swap_outs) : Inv n₀ L s' T H := by
  refine ⟨?_, h.flags_node hset, hset.plain h.plain⟩
  have hl : goal s.mem T H (.table r n) = some P := by rw [goal_table hr, hP]
  rw [hset.goal hr, hf]
  refine (h.books.del hl hc).mono ?_
  intro x y Q hx hy _ hxy
  refine hxy.mono hsw.ge ?_ ?_
  · rintro r' v' rfl
    exact hset.pte_eq (ne_of_update hx).2
  · rintro r' v' rfl
    exact hset.pte_eq (ne_of_update hy).2

theorem new_root (h : Inv n₀ L s T H) (hp : p ∈ H)
    (hz : ∀ i : Fin 512, s.mem.load64 (p + 8 * i) = 0) : Inv n₀ L s (insert p T) (H.erase p) := by
  have hnode : ∀ n, node s.mem p n = if n = .top then some p else none :=
    table_zero hz points_zero
  have hpte : ∀ v, pte s.mem p v = 0#64 := entry_zero hz points_zero
  have hpT : p ∉ T := fun hin => h.held_not_table hp hin (n := .top) rfl
  have hl : goal s.mem T H (.table p .top) = none := if_neg hpT
  have hgoal : goal s.mem (insert p T) (H.erase p) =
      Function.update (Function.update (goal s.mem T H) (.held p) none) (.table p .top) (some p) := by
    rw [← goal_erase]
    funext x
    by_cases hx : x = .table p .top
    · subst hx
      rw [Function.update_self, goal_table (by simp), hnode, if_pos rfl]
    · rw [Function.update_of_ne hx]
      cases x with
      | leaf r' v' =>
        by_cases hrp : r' = p
        · subst hrp
          simp [goal, hpte, hpT]
        · simp [goal, hrp]
      | table r' n' =>
        by_cases hrp : r' = p
        · subst hrp
          have hn : n' ≠ .top := fun he => hx (he ▸ rfl)
          simp [goal, hpT, hnode, hn]
        · simp [goal, hrp]
      | held _ => rfl
  refine ⟨?_, ?_, ?_⟩
  · rw [hgoal]
    exact h.books.move (goal_held hp) hl (Ref.table_mem (h.page_held hp).lt _) fun z => not_compat_held
  · intro r hr v hv
    rcases Finset.mem_insert.mp hr with rfl | hr
    · rw [hpte]
      exact leafOk_zero v
    · exact h.flags r hr v hv
  · intro r hr
    rcases Finset.mem_insert.mp hr with rfl | hr
    · intro n
      rw [hnode, table_zero hz (by decide)]
    · exact h.plain r hr

theorem drop_root (h : Inv n₀ L s T H) (hr : r ∈ T) (hnode : ∀ n, n ≠ .top → node s.mem r n = none)
    (hpte : ∀ v < UPAGES, points (pte s.mem r v) = none)
    (hm : Off (T.erase r) s.mem s'.mem)
    (hc : ∀ Q, Page Q → refs s' Q = if Q = r then refs s Q - 1 else refs s Q)
    (hf : s'.freelist = if refs s r = 1 then r :: s.freelist else s.freelist)
    (hsw : s'.stats.swap_outs = s.stats.swap_outs) : Inv n₀ L s' (T.erase r) H := by
  have hl : goal s.mem T H (.table r .top) = some r := goal_table hr
  have hgoal : goal s.mem (T.erase r) H = Function.update (goal s.mem T H) (.table r .top) none := by
    funext x
    by_cases hx : x = .table r .top
    · subst hx
      simp [goal]
    · rw [Function.update_of_ne hx]
      cases x with
      | leaf r' v' =>
        by_cases hrr : r' = r
        · subst hrr
          simp only [goal, Finset.mem_erase, ne_eq, not_true_eq_false, false_and, if_false]
          split_ifs with hrv
          · exact (hpte v' hrv.2).symm
          · rfl
        · simp [goal, hrr]
      | table r' n' =>
        by_cases hrr : r' = r
        · subst hrr
          have hn : n' ≠ .top := fun he => hx (he ▸ rfl)
          simp [goal, hnode n' hn]
        · simp [goal, hrr]
      | held _ => rfl
  refine ⟨?_, ?_, fun r' hr' => hm.plain hr' (h.plain r' (Finset.mem_of_mem_erase hr'))⟩
  · rw [hm.goal, hgoal, hf]
    refine (h.books.del hl hc).mono ?_
    rw [← hgoal]
    intro x y Q hx hy _ hxy
    refine hxy.mono hsw.ge ?_ ?_
    · rintro r' v' rfl
      exact hm.pte (of_goal_leaf hx).1.1 v'
    · rintro r' v' rfl
      exact hm.pte (of_goal_leaf hy).1.1 v'
  · intro r' hr' v' hv'
    rw [hm.pte hr']
    exact h.flags r' (Finset.mem_of_mem_erase hr') v' hv'

end Inv

end Xv6
