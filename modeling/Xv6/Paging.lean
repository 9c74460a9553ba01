import Xv6.Vm
import Xv6.Evict

/-!
# Page tables

What `walk`, `mappages` and `uvmunmap` do to the ledger, with `Evolve` for the other trees.
-/

open Xv6.Lib Op Radix

namespace Xv6

/-! ## What stays of a tree -/

def present (e : Pte) : Bool := has e PTE_V || has e PTE_SWAPPED

def Bound (m : Mem) (r n : Nat) : Prop := ∀ v < UPAGES, present (pte m r v) = true → v < n

/-- From `s` to `s'` no user page was added to the tree of `r`. -/
def Still (r : Nat) (s s' : Kernel) : Prop :=
  ∀ v < 512 ^ 3, (present (pte s'.mem r v) = true → present (pte s.mem r v) = true) ∧
    (UPAGES ≤ v → pte s'.mem r v = pte s.mem r v)

theorem Still.refl (r : Nat) (s : Kernel) : Still r s s := fun _ _ => ⟨id, fun _ => rfl⟩

theorem Still.trans {r : Nat} {s t s' : Kernel} (h : Still r s t) (h' : Still r t s') :
    Still r s s' := by
  intro v hv
  obtain ⟨h1, h2⟩ := h v hv
  obtain ⟨h1', h2'⟩ := h' v hv
  exact ⟨fun hp => h1 (h1' hp), fun hu => (h2' hu).trans (h2 hu)⟩

theorem Still.bound {r n : Nat} {s s' : Kernel} (h : Still r s s') (hb : Bound s.mem r n) :
    Bound s'.mem r n := by
  intro v hv hp
  exact hb v hv ((h v (hv.trans UPAGES_lt)).1 hp)

theorem Bound.not_valid {m : Mem} {r v : Nat} (h : Bound m r v) (hv : v < UPAGES) :
    has (pte m r v) PTE_V = false := by
  by_contra hV
  have := h v hv (by simp [present, eq_true_of_ne_false hV])
  omega

theorem Bound.mono {m : Mem} {r n n' : Nat} (h : Bound m r n) (hn : n ≤ n') : Bound m r n' :=
  fun v hv hp => (h v hv hp).trans_le hn

variable [Image] {n₀ : Nat} {L : Prop} {s s' t : Kernel} {T H : Finset Nat} {r v va p P : Nat}
  {e : Pte}

omit [Image] in
theorem Evolve.still (h : Evolve n₀ T H s s') (hr : r ∈ T) : Still r s s' := by
  intro v hv
  rcases h.leaves r hr v hv with he | ⟨⟨hev, hv'⟩, k, he⟩
  · rw [he]
    exact ⟨id, fun _ => rfl⟩
  · refine ⟨fun _ => ?_, fun hu => absurd hv' (by omega)⟩
    simp [present, hev.1]

/-- Every user page of `r` in memory is writable or copy-on-write. -/
def Firm (s : Kernel) (r : Nat) : Prop :=
  ∀ v < UPAGES, has (pte s.mem r v) PTE_V = true → has (pte s.mem r v) PTE_U = true →
    has (pte s.mem r v) PTE_W = true ∨ has (pte s.mem r v) PTE_COW = true

omit [Image] in
theorem Firm.of_leaves (h : Firm s r) (hl : ∀ v < UPAGES, has (pte s'.mem r v) PTE_V = true →
    pte s'.mem r v = pte s.mem r v ∨ has (pte s'.mem r v) PTE_COW = true) : Firm s' r := by
  intro v hv hV hU
  rcases hl v hv hV with he | hc
  · rw [he] at hV hU ⊢
    exact h v hv hV hU
  · exact .inr hc

omit [Image] in
theorem Evolve.firm (h : Evolve n₀ T H s s') (hr : r ∈ T) (hf : Firm s r) : Firm s' r := by
  refine hf.of_leaves fun v hv hV => ?_
  rcases h.leaves r hr v (hv.trans UPAGES_lt) with he | ⟨-, k, he⟩
  · exact .inl he
  · rw [he, small_of_swapblock k small_V (by decide)] at hV
    cases hV

/-- What is left of `Evolve` when counts may rise and the process table may change. -/
structure Kept (n₀ : Nat) (T H : Finset Nat) (s s' : Kernel) : Prop where
  swaps : s.stats.swap_outs ≤ s'.stats.swap_outs
  still : ∀ r ∈ T, Still r s s'
  firm : ∀ r ∈ T, Firm s r → Firm s' r
  quiet : s.stats.swap_outs = n₀ → s'.stats.swap_outs = n₀ →
    ∀ r ∈ T, ∀ v < 512 ^ 3, pte s'.mem r v = pte s.mem r v
  bytes : s.stats.swap_outs = n₀ → s'.stats.swap_outs = n₀ →
    ∀ P, (P ∈ H ∨ ∃ r ∈ T, ∃ v < UPAGES, points (pte s.mem r v) = some P) →
      ∀ k < PGSIZE, s'.mem (P + k) = s.mem (P + k)

namespace Kept

omit [Image] in
theorem trans (h : Kept n₀ T H s t) (h' : Kept n₀ T H t s') : Kept n₀ T H s s' := by
  have hsw := h.swaps
  have hsw' := h'.swaps
  refine ⟨hsw.trans hsw', fun r hr => (h.still r hr).trans (h'.still r hr),
    fun r hr hf => h'.firm r hr (h.firm r hr hf), ?_, ?_⟩
  · intro h0 h1 r hr v hv
    rw [h'.quiet (by omega) h1 r hr v hv, h.quiet h0 (by omega) r hr v hv]
  · intro h0 h1 P hP k hk
    have hP' : P ∈ H ∨ ∃ r ∈ T, ∃ v < UPAGES, points (pte t.mem r v) = some P := by
      refine hP.imp_right ?_
      rintro ⟨r, hr, v, hv, hpt⟩
      refine ⟨r, hr, v, hv, ?_⟩
      rw [h.quiet h0 (by omega) r hr v (hv.trans UPAGES_lt), hpt]
    rw [h'.bytes (by omega) h1 P hP' k hk, h.bytes h0 (by omega) P hP k hk]

omit [Image] in
theorem mono {T' H' : Finset Nat} (h : Kept n₀ T' H' s s') (hT : T ⊆ T') (hH : H ⊆ H') :
    Kept n₀ T H s s' where
  swaps := h.swaps
  still := fun r hr => h.still r (hT hr)
  firm := fun r hr => h.firm r (hT hr)
  quiet := fun h0 h1 r hr => h.quiet h0 h1 r (hT hr)
  bytes := by
    intro h0 h1 P hP
    refine h.bytes h0 h1 P (hP.imp (fun hp => hH hp) ?_)
    rintro ⟨r, hr, hm⟩
    exact ⟨r, hT hr, hm⟩

omit [Image] in
theorem of_mem (hm : s'.mem = s.mem) (hsw : s'.stats.swap_outs = s.stats.swap_outs) :
    Kept n₀ T H s s' := by
  refine ⟨hsw.ge, ?_, fun r _ hf => hf.of_leaves fun v _ _ => .inl (by rw [hm]), ?_, ?_⟩
  · intro r _ v _
    rw [hm]
    exact ⟨id, fun _ => rfl⟩
  · intro _ _ r _ v _
    rw [hm]
  · intro _ _ P _ k _
    rw [hm]

end Kept

/-- If the number of pages swapped out stays at `n₀`, then the pages of `r` are where they were, with the same bytes. -/
def Pages (n₀ r : Nat) (s s' : Kernel) : Prop :=
  s.stats.swap_outs = n₀ → s'.stats.swap_outs = n₀ → ∀ v < UPAGES, ∀ P, points (pte s.mem r v) = some P →
    points (pte s'.mem r v) = some P ∧ ∀ k < PGSIZE, s'.mem (P + k) = s.mem (P + k)

omit [Image] in
theorem Kept.pages (h : Kept n₀ T H s s') (hr : r ∈ T) : Pages n₀ r s s' := by
  intro h0 h1 v hv P hP
  refine ⟨?_, h.bytes h0 h1 P (.inr ⟨r, hr, v, hv, hP⟩)⟩
  rw [h.quiet h0 h1 r hr v (hv.trans UPAGES_lt), hP]

omit [Image] in
theorem Pages.trans (h : Pages n₀ r s t) (h' : Pages n₀ r t s') (hle : s.stats.swap_outs ≤ t.stats.swap_outs)
    (hle' : t.stats.swap_outs ≤ s'.stats.swap_outs) : Pages n₀ r s s' := by
  intro h0 h1 v hv P hP
  obtain ⟨hP', hb⟩ := h h0 (by omega) v hv P hP
  obtain ⟨hP'', hb'⟩ := h' (by omega) h1 v hv P hP'
  exact ⟨hP'', fun k hk => (hb' k hk).trans (hb k hk)⟩

omit [Image] in
theorem Evolve.kept (h : Evolve n₀ T H s s') : Kept n₀ T H s s' :=
  ⟨h.swaps, fun _ hr => h.still hr, fun _ hr => h.firm hr, h.quiet, h.bytes⟩

structure Alike (s s' : Kernel) : Prop where
  mem : s'.mem = s.mem
  count : s'.count = s.count
  freelist : s'.freelist = s.freelist
  swaps : s'.stats.swap_outs = s.stats.swap_outs

theorem Inv.alike (h : Inv n₀ L s T H) (ha : Alike s s') : Inv n₀ L s' T H :=
  h.write (by rw [ha.mem]; exact Off.refl _) ha.count ha.freelist ha.swaps

/-! ## Walking down, with new tables on the way -/

theorem Inv.table_bytes {n : Node} {q : Nat} (h : Inv n₀ L s T H) (hr : r ∈ T)
    (hq : node s.mem r n = some q) {m : Mem} (hm : OnPage q s.mem m) (h0 : s.stats.swap_outs = n₀)
    (hP : P ∈ H ∨ ∃ r ∈ T, ∃ v < UPAGES, points (pte s.mem r v) = some P) :
    ∀ k < PGSIZE, m (P + k) = s.mem (P + k) := by
  intro k hk
  have hgoal : goal s.mem T H (.table r n) = some q := by rw [goal_table hr, hq]
  have hpage : Page P ∧ P ≠ q := by
    rcases hP with hin | ⟨r', hr', v', hv', hpt⟩
    · refine ⟨h.page_held hin, ?_⟩
      rintro rfl
      exact h.held_not_table hin hr hq
    · refine ⟨h.page_leaf hr' hv' hpt, ?_⟩
      rintro rfl
      have hl : goal s.mem T H (.leaf r' v') = some P := by rw [goal_leaf hr' hv', hpt]
      rcases h.books.apart _ _ P hl hgoal with he | he
      · cases he
      · have := he.2
        omega
  exact hm.bytes hpage.1 (h.page_table hr hq) hpage.2 hk

theorem Inv.evolve_table {H' : Finset Nat} {n : Node} {q : Nat} (h : Inv n₀ L s T H') (hr : r ∈ T)
    (hq : node s.mem r n = some q) (hsub : H ⊆ H') {T' : Finset Nat} (hT : T' ⊆ T)
    (hm : OnPage q s.mem s'.mem)
    (hnode : ∀ r ∈ T', ∀ n p, node s.mem r n = some p → node s'.mem r n = some p)
    (hpte : ∀ r ∈ T', ∀ v < 512 ^ 3, pte s'.mem r v = pte s.mem r v)
    (hproc : s'.proc = s.proc) (hc : s'.count = s.count)
    (hsw : s'.stats.swap_outs = s.stats.swap_outs) : Evolve n₀ T' H s s' := by
  refine ⟨hproc, hsw.ge, hnode, fun r hr v hv => .inl (hpte r hr v hv), ?_, fun _ _ => hpte, ?_⟩
  · intro r' hr' v' hv' P hP
    simp only [refs, hc]
    exact Int.le_refl _
  · intro h0 _ P hP
    refine h.table_bytes hr hq hm h0 (hP.imp (fun hp => hsub hp) ?_)
    rintro ⟨r', hr', hpt⟩
    exact ⟨r', hT hr', hpt⟩

omit [Image] in
theorem points_table (hp : p % PGSIZE = 0) (hlt : p < 2 ^ 56) :
    points (PA2PTE p ||| PTE_V) = some p := by
  rw [points_some (by rw [has_or]; simp [show has PTE_V PTE_V = true from by decide]),
    PTE2PA_or small_V, PTE2PA_PA2PTE hp hlt]

omit [Image] in
theorem walkable_table (hp : p % PGSIZE = 0) (hlt : p < 2 ^ 56) :
    walkable (PA2PTE p ||| PTE_V) = some p := by
  have hV : has (PA2PTE p ||| PTE_V) PTE_V = true := by
    rw [has_or]
    simp [show has PTE_V PTE_V = true from by decide]
  have hleaf : (PA2PTE p ||| PTE_V) &&& (PTE_R ||| PTE_W ||| PTE_X) = 0#64 := by
    have hno : has (PA2PTE p ||| PTE_V) (PTE_R ||| PTE_W ||| PTE_X) = false := by
      rw [has_or, has_PA2PTE p ((small_R.or small_W).or small_X)]
      decide
    simpa [has] using hno
  rw [walkable, if_pos ⟨hV, hleaf⟩, PTE2PA_or small_V, PTE2PA_PA2PTE hp hlt]

theorem Page.small (h : Page p) : p < 2 ^ 56 := by
  have := h.lt
  simp only [PHYSTOP, KERNBASE] at this
  omega

omit [Image] in
theorem load_zeroed {m : Mem} {q : Nat} (hp : p % PGSIZE = 0) (hq : q % PGSIZE = 0) (hne : p ≠ q) (k i : Fin 512)
    (w : BitVec 64) : ((m.fill p PGSIZE 0).store64 (q + 8 * k) w).load64 (p + 8 * i) = 0 := by
  rw [load_store_slot hq hp, if_neg (fun h => hne h.1.symm)]
  exact Mem.load64_fill_zero (by omega) (by simp only [PGSIZE]; omega)

omit [Image] in
theorem hang_tables {n n' : Node} {q : Nat} {k : Fin 512} {m m' : Mem} (hf : Forest points m T) (hr : r ∈ T)
    (hq : node m r n = some q) (hc : child n k = some n') (hold : node m r n' = none) (hal : p % PGSIZE = 0)
    (hlt : p < 2 ^ 56) (hnot : ∀ r ∈ T, ∀ n, node m r n ≠ some p)
    (hm : m' = (m.fill p PGSIZE 0).store64 (q + 8 * k) (PA2PTE p ||| PTE_V)) :
    NodeSet T m m' r n' (some p) ∧ ∀ r' ∈ T, ∀ v, pte m' r' v = pte m r' v := by
  have hoff : Off T m (m.fill p PGSIZE 0) := Off.of_page hf.aligned hal hnot (OnPage.fill m p 0)
  have hf' : Forest points (m.fill p PGSIZE 0) T := hf.congr fun _ hr n => hoff.node hr n
  have hqt : node (m.fill p PGSIZE 0) r n = some q := by rw [hoff.node hr, hq]
  have holdt : node (m.fill p PGSIZE 0) r n' = none := by rw [hoff.node hr, hold]
  have hpq : p ≠ q := by
    rintro rfl
    exact hnot r hr n hq
  have hz : ∀ i : Fin 512, m'.load64 (p + 8 * i) = 0 := by
    intro i
    rw [hm]
    exact load_zeroed hal (hf.aligned r hr n q hq) hpq k i _
  have hw := points_table hal hlt
  have htab : ∀ r' ∈ T, ∀ x, node m' r' x = if r' = r ∧ x = n' then some p else node (m.fill p PGSIZE 0) r' x := by
    rw [hm, ← hw]
    refine table_store_child hf' hr hqt hc ?_ ?_
    · intro c hcp
      cases holdt.symm.trans hcp
    · intro c hcp j
      rw [hw] at hcp
      cases hcp
      rw [next, ← hm, hz j]
      rfl
  have hent : ∀ r' ∈ T, ∀ v, pte m' r' v = pte m r' v := by
    intro r' hr' v
    rw [← hoff.pte hr']
    rw [hm] at htab hz ⊢
    exact entry_hang hf' hr hqt hc htab holdt hz r' hr' v
  refine ⟨⟨fun r' hr' x => ?_, fun r' hr' v _ => .inl (hent r' hr' v), fun r' hr' v _ => by rw [hent r' hr' v], ?_⟩, hent⟩
  · rw [htab r' hr', hoff.node hr']
  · intro hplain r' hr' x
    replace hplain : ∀ r' ∈ T, Plain (m.fill p PGSIZE 0) r' := fun r' hr' => hoff.plain hr' (hplain r' hr')
    rw [htab r' hr', ← hplain r' hr' x, ← walkable_table hal hlt]
    have hzw : Bare walkable m' (walkable (PA2PTE p ||| PTE_V)) := by
      intro c hcp j
      rw [walkable_table hal hlt] at hcp
      cases hcp
      rw [next, hz j]
      decide
    rw [hm] at hzw ⊢
    refine table_store_child (hf'.congr hplain) hr ((hplain r hr n).trans hqt) hc ?_ hzw r' hr' x
    intro c hcp
    rw [hplain r hr n'] at hcp
    cases holdt.symm.trans hcp

theorem Inv.hang_zero {n n' : Node} {q : Nat} {k : Fin 512} (h : Inv n₀ L s T H) (hr : r ∈ T)
    (hq : node s.mem r n = some q) (hc : child n k = some n') (hold : node s.mem r n' = none)
    (hp : p ∈ H) (hmem : t.mem = (s.mem.fill p PGSIZE 0).store64 (q + 8 * k) (PA2PTE p ||| PTE_V))
    (hcount : t.count = s.count) (hfree : t.freelist = s.freelist)
    (hproc : t.proc = s.proc) (hsw : t.stats.swap_outs = s.stats.swap_outs) :
    Inv n₀ L t T (H.erase p) ∧ Evolve n₀ T (H.erase p) s t ∧ node t.mem r n' = some p ∧
      (∀ r' ∈ T, r' ≠ r → ∀ x, node t.mem r' x = node s.mem r' x) ∧
      ∀ r' ∈ T, ∀ v, pte t.mem r' v = pte s.mem r' v := by
  have hpage := h.page_held hp
  have hnot : ∀ r ∈ T, ∀ n, node s.mem r n ≠ some p := fun _ hr _ => h.held_not_table hp hr
  obtain ⟨hset, hent⟩ := hang_tables h.forest hr hq hc hold hpage.aligned hpage.small hnot hmem
  -- First the page is zeroed, which is a write to a held page. Then the entry is written.
  have hoff := h.off_page hpage hnot (OnPage.fill s.mem p 0)
  let z : Kernel := { s with mem := s.mem.fill p PGSIZE 0 }
  have ht : Inv n₀ L z T H := h.write hoff rfl rfl rfl
  have hev₁ : Evolve n₀ T (H.erase p) s z := by
    exact h.evolve_page (Finset.Subset.refl T) (Finset.erase_subset p H) hpage hnot
      (fun _ hr _ hv => h.held_not_mapped hp hr hv) (Finset.notMem_erase p H) (OnPage.fill s.mem p 0) rfl
      (fun _ _ _ => rfl) rfl
  have hqt : node z.mem r n = some q := by rw [hoff.node hr, hq]
  refine ⟨h.hang hr hset hold hp hcount hfree hsw, ?_, ?_, ?_, hent⟩
  · refine hev₁.trans (ht.evolve_table hr hqt (Finset.erase_subset p H) (Finset.Subset.refl T)
      ?_ ?_ (fun r' hr' v _ => (hent r' hr' v).trans (hoff.pte hr' v).symm) hproc hcount hsw)
    · rw [hmem]
      exact store_on_page k _
    · intro r' hr' x c hx
      rw [hoff.node hr'] at hx
      rw [hset.tables r' hr', if_neg, hx]
      rintro ⟨rfl, rfl⟩
      rw [hold] at hx
      cases hx
  · rw [hset.tables r hr, if_pos ⟨rfl, rfl⟩]
  · intro r' hr' hne x
    rw [hset.tables r' hr', if_neg fun he => hne he.1]

theorem walk_false : walk r va false = walk0 r va := rfl

/-! ## Mapping a page -/

theorem mappages_loop_ok {perm : Pte} {n pa : Nat} {res : Int} (h : mappages_loop r perm n va pa s = .ok (res, s')) :
    (res = -1 ∧ walk r va true s = .ok (none, s')) ∨
      ∃ a t u, walk r va true s = .ok (some a, t) ∧ has (t.mem.load64 a) PTE_V = false ∧
        u = { t with mem := t.mem.store64 a (PA2PTE pa ||| perm ||| PTE_V) } ∧
        (n = 0 ∧ res = 0 ∧ s' = u ∨
          ∃ k, n = k + 1 ∧ mappages_loop r perm k (va + PGSIZE) (pa + PGSIZE) u = .ok (res, s')) := by
  unfold mappages_loop mappages_loop_with at h
  rw [bind_ok] at h
  obtain ⟨slot, t, hwalk, h⟩ := h
  cases slot with
  | none =>
    simp only [pure_ok] at h
    obtain ⟨rfl, rfl⟩ := h
    exact .inl ⟨rfl, hwalk⟩
  | some a =>
    simp only [bind_ok, load64_ok] at h
    obtain ⟨e, t', ⟨rfl, rfl⟩, h⟩ := h
    split_ifs at h with hV
    · simp at h
    · simp only [bind_ok, store64_ok] at h
      obtain ⟨_, u, hu, h⟩ := h
      refine .inr ⟨a, t', u, hwalk, by simpa using hV, hu, ?_⟩
      cases n with
      | zero => exact .inl ⟨rfl, pure_ok.mp h⟩
      | succ n => exact .inr ⟨n, rfl, h⟩

theorem mappages_ok {perm : Pte} {pa : Nat} {res : Int}
    (h : mappages r va PGSIZE pa perm s = .ok (res, s')) :
    va % PGSIZE = 0 ∧ ((res = -1 ∧ walk r va true s = .ok (none, s')) ∨
      ∃ a t, walk r va true s = .ok (some a, t) ∧ has (t.mem.load64 a) PTE_V = false ∧ res = 0 ∧
        s' = { t with mem := t.mem.store64 a (PA2PTE pa ||| perm ||| PTE_V) }) := by
  unfold mappages mappages_with at h
  split_ifs at h with hal hsz hzero
  · simp at h
  · simp at h
  · exact hzero.elim
  · refine ⟨by omega, (mappages_loop_ok h).imp_right ?_⟩
    rintro ⟨a, t, u, hwalk, hV, rfl, ⟨-, rfl, rfl⟩ | ⟨k, hk, -⟩⟩
    · exact ⟨a, t, hwalk, hV, rfl, rfl⟩
    · cases hk

omit [Image] in
theorem has_mapped {perm f : Pte} (hf : Small f) (hV : PTE_V &&& f = 0#64) (pa : Nat) :
    has (PA2PTE pa ||| perm ||| PTE_V) f = has perm f := by
  have h0 : has PTE_V f = false := by simp [has, hV]
  rw [has_or, has_or, has_PA2PTE pa hf, h0]
  simp

theorem points_mapped {perm : Pte} (hp : Page p) (hperm : Small perm) :
    points (PA2PTE p ||| perm ||| PTE_V) = some p := by
  rw [points_some (by rw [has_or]; simp [show has PTE_V PTE_V = true from by decide]),
    PTE2PA_or small_V, PTE2PA_or hperm, PTE2PA_PA2PTE hp.aligned hp.small]

omit [Image] in
theorem leafOk_user (hv : v < UPAGES) (h : has e PTE_SWAPPED = false)
    (hc : has e PTE_COW = true → has e PTE_W = false) : LeafOk v e := by
  rw [LeafOk, if_pos hv]
  exact ⟨fun _ => h, hc⟩

theorem Inv.evolve_leaf (h : Inv n₀ L s T H) (hr : r ∈ T) (hva : va < MAXVA) {q : Nat}
    (hq : low s.mem r va = some q)
    (hmem : t.mem = s.mem.store64 (q + 8 * (lo (va / PGSIZE) : Nat)) e)
    (hproc : t.proc = s.proc) (hc : t.count = s.count)
    (hsw : t.stats.swap_outs = s.stats.swap_outs) :
    LeafSet T s.mem t.mem r (va / PGSIZE) e ∧ Evolve n₀ (T.erase r) H s t := by
  have hset := leafSet_store h.forest hr (page_number_lt hva) hq e
  rw [← hmem] at hset
  refine ⟨hset, ?_⟩
  refine h.evolve_table hr hq (Finset.Subset.refl H) (Finset.erase_subset r T) ?_ ?_ ?_ hproc hc hsw
  · rw [hmem]
    exact store_on_page _ _
  · intro r' hr' n p hp
    rw [hset.tables r' (Finset.mem_of_mem_erase hr'), hp]
  · intro r' hr' v' hv'
    exact hset.other (Finset.mem_of_mem_erase hr') hv' fun hrv => Finset.ne_of_mem_erase hr' hrv.1

/-! ## Unmapping -/

theorem Inv.evolve_freed (h : Inv n₀ L s T H) {x : Ref} (hx : goal s.mem T H x = some P)
    (hxr : ∀ r' ∈ T.erase r, ∀ v, x ≠ .leaf r' v) (hxh : ∀ p, x ≠ .held p) (hr : r ∈ T) {n : Node}
    {q : Nat} (hq : node s.mem r n = some q) (hm : OnPage q (freed P s).mem s'.mem)
    (hnode : ∀ r' ∈ T.erase r, ∀ n, node s'.mem r' n = node s.mem r' n)
    (hpte : ∀ r' ∈ T.erase r, ∀ v < 512 ^ 3, pte s'.mem r' v = pte s.mem r' v)
    (hproc : s'.proc = s.proc) (hc : s'.count = (freed P s).count)
    (hsw : s'.stats.swap_outs = s.stats.swap_outs) : Evolve n₀ (T.erase r) H s s' := by
  have hP := (h.books.mem x P hx).2
  have hcount : ∀ Q, Page Q → refs s' Q ≤ refs s Q := by
    intro Q hQ
    have := freed_refs (s := s) hP hQ
    simp only [refs, hc] at this ⊢
    rw [this]
    split_ifs <;> omega
  refine ⟨hproc, hsw.ge, ?_, fun r' hr' v hv => .inl (hpte r' hr' v hv), ?_, fun _ _ => hpte, ?_⟩
  · intro r' hr' n p hp
    rw [hnode r' hr', hp]
  · intro r' hr' v hv Q hQ
    rw [hpte r' hr' v (hv.trans UPAGES_lt)] at hQ
    exact hcount Q (h.page_leaf (Finset.mem_of_mem_erase hr') hv hQ)
  · intro h0 _ Q hQ k hk
    -- The page `Q` is neither the table, nor the freed page.
    obtain ⟨y, hy, hyx, hyt⟩ : ∃ y, goal s.mem T H y = some Q ∧ y ≠ x ∧ ∀ r' n, y ≠ .table r' n := by
      rcases hQ with hin | ⟨r', hr', v', hv', hpt⟩
      · exact ⟨.held Q, goal_held hin, (hxh Q).symm, by simp⟩
      · exact ⟨.leaf r' v', by rw [goal_leaf (Finset.mem_of_mem_erase hr') hv', hpt],
          (hxr r' hr' v').symm, by simp⟩
    have hQpage := (h.books.mem y Q hy).2
    have hQq : Q ≠ q := by
      rintro rfl
      have hgt : goal s.mem T H (.table r n) = some Q := by rw [goal_table hr, hq]
      rcases h.books.apart y _ Q hy hgt with he | he
      · exact hyt r n he
      · cases y with
        | leaf r' v' =>
          have := he.2
          omega
        | table r' n' => exact he
        | held p => exact he
    have hd := hQpage.disjoint (h.page_table hr hq) hQq
    rw [hm _ (by simp only [PGSIZE] at *; omega)]
    by_cases h1 : refs s P = 1
    · have hQP : Q ≠ P := by
        rintro rfl
        exact hyx (h.books.unique h1.le hy hx)
      have hd' := hQpage.disjoint hP hQP
      exact freed_on_page _ (by simp only [PGSIZE] at *; omega)
    · rw [freed_mem_of_shared h1]

theorem Inv.unmap (h : Inv n₀ L s T H) (hr : r ∈ T) (hva : va < MAXVA) (hv : va / PGSIZE < UPAGES)
    {q : Nat} (hq : low s.mem r va = some q) (hP : points (pte s.mem r (va / PGSIZE)) = some P)
    (hs : s' = { freed P s with
      mem := (freed P s).mem.store64 (q + 8 * (lo (va / PGSIZE) : Nat)) 0#64 }) :
    LeafSet T s.mem s'.mem r (va / PGSIZE) 0#64 ∧ Inv n₀ L s' T H ∧ Evolve n₀ (T.erase r) H s s' := by
  subst hs
  have hpage := h.page_leaf hr hv hP
  have hoff : Off T s.mem (freed P s).mem := h.freed_off hr hv hP (fun _ _ _ => rfl) rfl rfl
  have hforest : Forest points (freed P s).mem T := h.forest.congr fun r hr n => hoff.node hr n
  have hq' : low (freed P s).mem r va = some q := (hoff.node hr _).trans hq
  have hset := hoff.leafSet (leafSet_store hforest hr (page_number_lt hva) hq' 0#64)
  refine ⟨hset, ?_, ?_⟩
  · exact h.drop_leaf hr hv hset hP points_zero (leafOk_zero _) (fun Q hQ => freed_refs hpage hQ)
      freed_freelist (by simp)
  · refine h.evolve_freed (x := .leaf r (va / PGSIZE)) (by rw [goal_leaf hr hv, hP]) ?_ (by simp) hr hq
      (store_on_page _ _) ?_ ?_ freed_proc rfl freed_swap_outs
    · rintro r' hr' v ⟨⟩
      exact Finset.ne_of_mem_erase hr' rfl
    · intro r' hr' n
      exact hset.tables r' (Finset.mem_of_mem_erase hr') n
    · intro r' hr' v' hv'
      exact hset.other (Finset.mem_of_mem_erase hr') hv' fun hrv => Finset.ne_of_mem_erase hr' hrv.1

end Xv6
