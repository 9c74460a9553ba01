import Xv6.Panics
import Xv6.Proc

/-!
# Address spaces

Growing, shrinking and freeing the tree of a process: `uvmunmap`, `uvmdealloc`, `uvmalloc`,
`freewalk`, `uvmfree` and the page tables of `proc.c`.
-/

open Xv6.Lib Op Radix

namespace Xv6

variable [Image] {n₀ : Nat} {L Z : Prop} {E : String → Prop} {s s' t : Kernel} {T H : Finset Nat}
  {r v va p P : Nat} {e : Pte}

/-! ## Unmapping a range -/

omit [Image] in
theorem present_false {e : Pte} : present e = false ↔ has e PTE_V = false ∧ has e PTE_SWAPPED = false := by
  simp [present]

omit [Image] in
@[simp] theorem present_zero : present 0#64 = false := by simp [present]

def Text (m m' : Mem) : Prop := ∀ a < kend, m' a = m a

omit [Image] in
theorem Text.trans [Image] {m m' m'' : Mem} (h : Text m m') (h' : Text m' m'') : Text m m'' :=
  fun a ha => (h' a ha).trans (h a ha)

theorem OnPage.text {m m' : Mem} (h : OnPage p m m') (hp : Page p) : Text m m' :=
  fun _ ha => h _ (.inl (ha.trans_le hp.ge))

def blocks (m : Mem) (r a n : Nat) : List Nat := (List.range' a n).filterMap fun v => block (pte m r v)

structure Unmapped (n₀ : Nat) (L : Prop) (T H : Finset Nat) (r a n : Nat) (s s' : Kernel) : Prop where
  inv : Inv n₀ L s' T H
  evolve : Evolve n₀ (T.erase r) H s s'
  tables : ∀ r' ∈ T, ∀ n, node s'.mem r' n = node s.mem r' n
  leaves : ∀ v < 512 ^ 3, pte s'.mem r v = pte s.mem r v ∨
    (a ≤ v ∧ v < a + n) ∧ pte s'.mem r v = 0#64
  gone : ∀ v, a ≤ v → v < a + n → present (pte s'.mem r v) = false
  others : Fixed (T.erase r) s s'
  swaps : s'.stats.swap_outs = s.stats.swap_outs
  slots : Slots T s → Slots T s'
  text : Text s.mem s'.mem
  swap : s'.swap = (blocks s.mem r a n).foldl Swap.release s.swap
  lone : Lone (T.erase r) H r ∅ s s'

theorem Unmapped.still {a n : Nat} (h : Unmapped n₀ L T H r a n s s') (hn : a + n ≤ UPAGES) :
    Still r s s' := by
  intro v hv
  rcases h.leaves v hv with he | ⟨hrange, he⟩
  · rw [he]
    exact ⟨id, fun _ => rfl⟩
  · rw [he]
    exact ⟨by simp, fun hu => by omega⟩

theorem Unmapped.bound {a n : Nat} (h : Unmapped n₀ L T H r a n s s') (hn : a + n ≤ UPAGES)
    (hb : Bound s.mem r (a + n)) : Bound s'.mem r a := by
  intro v hv hp
  by_contra hge
  have hlt := (h.still hn).bound hb v hv hp
  rw [h.gone v (by omega) hlt] at hp
  cases hp

theorem Unmapped.refl {a : Nat} (h : Inv n₀ L s T H) : Unmapped n₀ L T H r a 0 s s :=
  ⟨h, Evolve.refl _, fun _ _ _ => rfl, fun v _ => .inl rfl, fun v _ _ => by omega, .refl _, rfl, id,
    fun _ _ => rfl, rfl, .refl s⟩

theorem Unmapped.nothing {a : Nat} (h : Unmapped n₀ L T H r a 0 s s') : Still r s s' := by
  intro v hv
  rw [(h.leaves v hv).resolve_right fun hin => by omega]
  exact ⟨id, fun _ => rfl⟩

theorem Unmapped.cons {a n : Nat} (h : Unmapped n₀ L T H r a 1 s t)
    (h' : Unmapped n₀ L T H r (a + 1) n t s') (hn : a + (n + 1) ≤ UPAGES) :
    Unmapped n₀ L T H r a (n + 1) s s' := by
  have hv3 : a + n < 512 ^ 3 := by
    have := UPAGES_lt
    omega
  refine ⟨h'.inv, h.evolve.trans h'.evolve, ?_, ?_, ?_, h.others.trans h'.others, h'.swaps.trans h.swaps,
    fun hs => h'.slots (h.slots hs), h.text.trans h'.text, ?_, (h.lone.trans h'.lone).mono (by simp)⟩
  · intro r' hr' n
    rw [h'.tables r' hr', h.tables r' hr']
  · intro v hv
    rcases h'.leaves v hv with he' | ⟨hrange, he'⟩
    · rcases h.leaves v hv with he | ⟨hrange, he⟩
      · exact .inl (he'.trans he)
      · exact .inr ⟨by omega, he'.trans he⟩
    · exact .inr ⟨by omega, he'⟩
  · intro v hlo hhi
    by_cases hva : v = a
    · subst hva
      rcases h'.leaves v (by omega) with he' | ⟨hrange, -⟩
      · rw [he']
        exact h.gone v (by omega) (by omega)
      · omega
    · exact h'.gone v (by omega) (by omega)
  · have hsame : blocks t.mem r (a + 1) n = blocks s.mem r (a + 1) n := by
      refine List.filterMap_congr fun v hv => ?_
      have := List.mem_range'_1.mp hv
      rw [(h.leaves v (by omega)).resolve_right fun hin => by omega]
    have hcons : blocks s.mem r a (n + 1) = blocks s.mem r a 1 ++ blocks s.mem r (a + 1) n := by
      rw [blocks, blocks, blocks, ← List.filterMap_append, Nat.add_comm n 1, List.range'_append_1]
    rw [h'.swap, h.swap, hsame, hcons, List.foldl_append]

theorem Inv.unmapped_none (h : Inv n₀ L s T H) {a : Nat} (hno : present (pte s.mem r a) = false) :
    Unmapped n₀ L T H r a 1 s s := by
  refine ⟨h, Evolve.refl s, fun _ _ _ => rfl, fun v _ => .inl rfl, ?_, .refl s, rfl, id,
    fun _ _ => rfl, ?_, .refl s⟩
  · intro v hlo hhi
    rw [show v = a by omega]
    exact hno
  · have hS : has (pte s.mem r a) PTE_SWAPPED = false := by
      rw [present, Bool.or_eq_false_iff] at hno
      exact hno.2
    simp [blocks, block_none hS]

theorem LeafSet.unmapped {a : Nat} (hset : LeafSet T s.mem s'.mem r a 0#64) (hr : r ∈ T)
    (ha : a < 512 ^ 3) (hinv : Inv n₀ L s' T H) (hev : Evolve n₀ (T.erase r) H s s')
    (hsw : s'.stats.swap_outs = s.stats.swap_outs) (hslots : Slots T s → Slots T s')
    (htext : Text s.mem s'.mem)
    (hswap : s'.swap = (block (pte s.mem r a)).elim s.swap s.swap.release)
    (hlone : Lone (T.erase r) H r ∅ s s') : Unmapped n₀ L T H r a 1 s s' := by
  refine ⟨hinv, hev, hset.tables, ?_, ?_, ?_, hsw, hslots, htext, ?_, hlone⟩
  · intro v hv
    by_cases hva : v = a
    · subst hva
      exact .inr ⟨by omega, hset.self hr hv⟩
    · exact .inl (hset.other hr hv fun h => hva h.2)
  · intro v hlo hhi
    rw [show v = a by omega, hset.self hr ha]
    simp
  · refine .of_leaves hev.proc hsw (fun r' hr' n => hset.tables r' (Finset.mem_of_mem_erase hr') n) ?_
    intro r' hr' v hv
    exact hset.other (Finset.mem_of_mem_erase hr') hv fun he => Finset.ne_of_mem_erase hr' he.1
  · rw [hswap, blocks, List.range'_one]
    cases hb : block (pte s.mem r a) with
    | none => simp [hb]
    | some k => simp [hb]

theorem uvmunmap_loop_ends (n : Nat) (h : Inv n₀ L s T H) (hz : Z → Slots T s) (hr : r ∈ T)
    (hn : va / PGSIZE + n ≤ UPAGES) :
    Ends (uvmunmap_loop r true n va) s (fun _ t => Unmapped n₀ L T H r (va / PGSIZE) n s t) (Stray Z) := by
  induction n generalizing va s with
  | zero => exact .refl h
  | succ n ih =>
    have hrest : ∀ t, Unmapped n₀ L T H r (va / PGSIZE) 1 s t →
        Ends (uvmunmap_loop r true n (va + PGSIZE)) t
          (fun _ t => Unmapped n₀ L T H r (va / PGSIZE) (n + 1) s t) (Stray Z) := by
      intro t hone
      refine (ih hone.inv (fun hZ => hone.slots (hz hZ)) (by rw [next_page]; omega)).mono fun _ t' hmore => ?_
      rw [next_page] at hmore
      exact hone.cons hmore hn
    have hv : va / PGSIZE < UPAGES := by omega
    have hva : va < MAXVA := by
      rw [UPAGES_eq] at hv
      simp only [PGSIZE, MAXVA] at *
      omega
    have hv3 := page_number_lt hva
    rw [uvmunmap_loop, ends_bind, walk_false, ends_of_run (walk0_run hva)]
    cases hlow : low s.mem r va with
    | none => exact hrest s (h.unmapped_none (by rw [pte_of_low_none hlow]; simp))
    | some q =>
      simp only [Option.map_some, ends_bind, load64, ends_gets, pte_of_low hlow, if_true]
      refine ends_ite.mpr ⟨fun hno => hrest s (h.unmapped_none (by simpa [present] using hno)), fun hno => ?_⟩
      refine ends_ite.mpr ⟨fun hsw => ?_, fun hsw => ?_⟩
      · have hV : has (pte s.mem r (va / PGSIZE)) PTE_V = false := by
          by_contra hV
          rw [h.not_swapped hr hv (by simpa using hV)] at hsw
          cases hsw
        rw [ends_bind]
        refine (swapfree_ends fun hZ => (hz hZ).used r hr _ hv3 _ (block_some hsw)).mono fun _ t ht => ?_
        rw [ends_bind, store64, ends_update, ht]
        obtain ⟨hset, hev⟩ := h.evolve_leaf (e := 0#64)
          (t := { s with
            swap := s.swap.release (pte_to_swapblock (pte s.mem r (va / PGSIZE)))
            mem := s.mem.store64 (q + 8 * (lo (va / PGSIZE) : Nat)) 0#64 })
          hr hva hlow rfl rfl rfl rfl
        have hinv := h.recolor hr hv hset (by rw [points_zero, points_none hV]) (leafOk_zero _) (fun y P hP => by
          rw [points_none hV] at hP
          cases hP) rfl rfl rfl
        refine hrest _ (hset.unmapped hr hv3 hinv hev rfl (fun hs => ?_)
          ((store_on_page _ _).text (h.page_table hr hlow)) (by rw [block_some hsw]; rfl) ?_)
        · exact hs.release hr hv3 (block_some hsw) hset (has_zero _) rfl
        · refine Lone.others (A := {va / PGSIZE}) ?_
          exact h.lone_leaf hr hlow hset (store_on_page _ _) rfl
      · have hV : has (pte s.mem r (va / PGSIZE)) PTE_V = true := by
          by_contra hV
          exact hno ⟨by simpa using hV, by simpa using hsw⟩
        have hP := points_some hV
        rw [ends_bind, ends_of_run (h.kfree_run (x := .leaf r (va / PGSIZE)) (by rw [goal_leaf hr hv, hP])), ends_bind,
          store64, ends_update]
        obtain ⟨hset, hinv, hev⟩ := h.unmap hr hva hv hlow hP rfl
        have hlone := h.lone_freed (x := .leaf r (va / PGSIZE)) (by rw [goal_leaf hr hv, hP])
          (by rintro r' hr' v ⟨⟩; exact Finset.ne_of_mem_erase hr' rfl) (by simp) hr hlow (store_on_page _ _)
          (fun r' hr' v hv => hset.other (Finset.mem_of_mem_erase hr') hv fun he => Finset.ne_of_mem_erase hr' he.1) rfl
        refine hrest _ (hset.unmapped hr hv3 hinv hev freed_swap_outs (fun hs => ?_)
          ((freed_on_page.text (h.page_leaf hr hv hP)).trans ((store_on_page _ _).text (h.page_table hr hlow)))
          (by rw [block_none (by simpa using hsw)]; exact freed_swap) hlone)
        · exact hs.sheds (.of_set hset (has_zero _) freed_swap)

theorem uvmunmap_ends {n : Nat} (h : Inv n₀ L s T H) (hz : Z → Slots T s) (hr : r ∈ T) (hal : va % PGSIZE = 0)
    (hn : va / PGSIZE + n ≤ UPAGES) :
    Ends (uvmunmap r va n true) s (fun _ t => Unmapped n₀ L T H r (va / PGSIZE) n s t) (Stray Z) :=
  ends_ite.mpr ⟨fun hbad => absurd hal hbad, fun _ => uvmunmap_loop_ends n h hz hr hn⟩

theorem uvmunmap_top (h : Inv n₀ L s T H) (hr : r ∈ T) (hv : UPAGES ≤ va / PGSIZE) {u : Unit}
    (hrun : uvmunmap r va 1 false s = .ok (u, s')) :
    Inv n₀ L s' T H ∧ Evolve n₀ (T.erase r) H s s' ∧
      (∀ v < 512 ^ 3, v ≠ va / PGSIZE → pte s'.mem r v = pte s.mem r v) ∧
      has (pte s'.mem r (va / PGSIZE)) PTE_V = false := by
  unfold uvmunmap at hrun
  split_ifs at hrun
  · simp at hrun
  · simp only [uvmunmap_loop, bind_ok, walk_false] at hrun
    obtain ⟨slot, t, hwalk, hrun⟩ := hrun
    obtain ⟨hva, rfl, rfl⟩ := walk0_ok hwalk
    cases hlow : low t.mem r va with
    | none =>
      simp only [hlow, Option.map_none, pure_ok] at hrun
      obtain ⟨-, rfl⟩ := hrun
      exact ⟨h, Evolve.refl _, fun _ _ _ => rfl, by rw [pte_of_low_none hlow]; simp⟩
    | some q =>
      simp only [hlow, Option.map_some, bind_ok, load64_ok] at hrun
      obtain ⟨e, t, ⟨rfl, rfl⟩, hrun⟩ := hrun
      rw [pte_of_low hlow] at hrun
      by_cases hno : (!has (pte t.mem r (va / PGSIZE)) PTE_V) = true ∧
          (!has (pte t.mem r (va / PGSIZE)) PTE_SWAPPED) = true
      · rw [if_pos hno, pure_ok] at hrun
        obtain ⟨-, rfl⟩ := hrun
        exact ⟨h, Evolve.refl _, fun _ _ _ => rfl, by simpa using hno.1⟩
      · rw [if_neg hno] at hrun
        simp only [bind_ok, pure_ok, store64_ok, Bool.false_eq_true, if_false] at hrun
        obtain ⟨_, _, ⟨-, rfl⟩, _, t₂, rfl, -, rfl⟩ := hrun
        obtain ⟨hset, hev⟩ := h.evolve_leaf (e := 0#64)
          (t := { t with mem := t.mem.store64 (q + 8 * (lo (va / PGSIZE) : Nat)) 0#64 })
          hr hva hlow rfl rfl rfl rfl
        refine ⟨h.set_top hv hset (leafOk_zero _) rfl rfl rfl, hev, ?_, ?_⟩
        · intro v hv' hne
          exact hset.other hr hv' fun he => hne he.2
        · exact (congrArg (has · PTE_V) (hset.self hr (page_number_lt hva))).trans (has_zero _)

/-! ## Sizes in pages -/

omit [Image] in
theorem PGROUNDUP_div {sz : Nat} (h : sz ≤ MAXVA) : PGROUNDUP sz / PGSIZE = npages sz := by
  rw [PGROUNDUP_eq h]
  simp only [npages, PGSIZE]
  omega

omit [Image] in
theorem npages_le {sz : Nat} (h : sz ≤ TRAPFRAME) : npages sz ≤ UPAGES := by
  rw [UPAGES_eq]
  simp only [npages, PGSIZE, TRAPFRAME, TRAMPOLINE, MAXVA] at *
  omega

omit [Image] in
theorem npages_mono {a b : Nat} (h : a ≤ b) : npages a ≤ npages b :=
  Nat.div_le_div_right (by omega)

theorem uvmdealloc_ends {old new : Nat} (h : Inv n₀ L s T H) (hz : Z → Slots T s) (hr : r ∈ T)
    (hold : old ≤ TRAPFRAME) :
    Ends (uvmdealloc r old new) s (fun sz t => sz = min old new ∧
      Unmapped n₀ L T H r (npages new) (npages old - npages new) s t) (Stray Z) := by
  have hmax : TRAPFRAME ≤ MAXVA := by decide
  have hup := npages_le hold
  unfold uvmdealloc
  split_ifs with hge hlt
  · rw [show npages old - npages new = 0 by have := npages_mono hge; omega]
    exact ⟨by omega, .refl h⟩
  · have hdiv := PGROUNDUP_div (show new ≤ MAXVA by omega)
    have hcount : (PGROUNDUP old - PGROUNDUP new) / PGSIZE = npages old - npages new := by
      rw [PGROUNDUP_eq (by omega), PGROUNDUP_eq (by omega)]
      simp only [npages, PGSIZE]
      omega
    have hal : PGROUNDUP new % PGSIZE = 0 := by
      rw [PGROUNDUP_eq (by omega)]
      simp only [PGSIZE]
      omega
    have hmono := npages_mono (show new ≤ old by omega)
    rw [ends_bind, hcount]
    refine (uvmunmap_ends h hz hr hal (by rw [hdiv]; omega)).mono fun _ t hun => ?_
    rw [hdiv] at hun
    exact ⟨by omega, hun⟩
  · rw [PGROUNDUP_eq (by omega), PGROUNDUP_eq (by omega)] at hlt
    rw [show npages old - npages new = 0 by simp only [npages, PGSIZE]; omega]
    exact ⟨by omega, .refl h⟩

theorem uvmdealloc_spec {old new sz : Nat} (h : Inv n₀ L s T H) (hr : r ∈ T) (hold : old ≤ TRAPFRAME)
    (hb : Bound s.mem r (npages old)) (hrun : uvmdealloc r old new s = .ok (sz, s')) :
    Inv n₀ L s' T H ∧ Evolve n₀ (T.erase r) H s s' ∧ Still r s s' ∧ Bound s'.mem r (npages sz) ∧
      sz = min old new := by
  obtain ⟨hsz, hun⟩ := (uvmdealloc_ends (Z := False) h False.elim hr hold).of_ok hrun
  have hup := npages_le hold
  by_cases hle : npages new ≤ npages old
  · refine ⟨hun.inv, hun.evolve, hun.still (by omega), ?_, hsz⟩
    refine (hun.bound (by omega) (hb.mono (by omega))).mono ?_
    rw [hsz]
    rcases Nat.le_total old new with hon | hon
    · rw [Nat.min_eq_left hon]
      omega
    · rw [Nat.min_eq_right hon]
  · rw [Nat.sub_eq_zero_of_le (by omega)] at hun
    have hon : old ≤ new := by
      by_contra hlt
      exact hle (npages_mono (by omega))
    have hstill : Still r s s' := hun.nothing
    refine ⟨hun.inv, hun.evolve, hstill, ?_, hsz⟩
    rw [hsz, Nat.min_eq_left hon]
    exact hstill.bound hb

/-! ## Growing -/

def Capped (m : Mem) (r : Nat) : Prop := has (pte m r UPAGES) PTE_V = true

def Private (s : Kernel) (r : Nat) : Prop :=
  ∀ v < UPAGES, ∀ P, points (pte s.mem r v) = some P →
    has (pte s.mem r v) PTE_COW = false ∧ refs s P = 1

omit [Image] in
theorem Still.capped (h : Still r s s') (hc : Capped s.mem r) : Capped s'.mem r := by
  rw [Capped, (h UPAGES UPAGES_lt).2 (Nat.le_refl _)]
  exact hc

theorem Evolve.keeps_private {T' H' : Finset Nat} (h : Evolve n₀ T H s s') (hr : r ∈ T)
    (hinv : Inv n₀ L s' T' H') (hr' : r ∈ T') (hp : Private s r) : Private s' r := by
  intro v hv P hP
  have hpos := hinv.books.pos (x := .leaf r v) (by rw [goal_leaf hr' hv, hP])
  have hle := h.counts r hr v hv P hP
  rcases h.leaves r hr v (hv.trans UPAGES_lt) with he | ⟨-, k, he⟩
  · rw [he] at hP ⊢
    obtain ⟨hcow, hone⟩ := hp v hv P hP
    exact ⟨hcow, by omega⟩
  · rw [he, points_swapblock] at hP
    cases hP

omit [Image] in
theorem LeafSet.bound {n : Nat} (hset : LeafSet T s.mem s'.mem r n e) (hr : r ∈ T)
    (hb : Bound s.mem r n) : Bound s'.mem r (n + 1) := by
  intro v hv hp
  by_cases hvn : v = n
  · omega
  · rw [hset.other hr (hv.trans UPAGES_lt) fun h => hvn h.2] at hp
    have := hb v hv hp
    omega

structure Grown (n₀ : Nat) (L : Prop) (T H : Finset Nat) (r : Nat) (s s' : Kernel) : Prop where
  inv : Inv n₀ L s' T H
  evolve : Evolve n₀ (T.erase r) H s s'
  top : ∀ v < 512 ^ 3, UPAGES ≤ v → pte s'.mem r v = pte s.mem r v

theorem Grown.capped (h : Grown n₀ L T H r s s') (hc : Capped s.mem r) : Capped s'.mem r := by
  rw [Capped, h.top UPAGES UPAGES_lt (Nat.le_refl _)]
  exact hc

theorem Grown.trans (h : Grown n₀ L T H r s t) (h' : Grown n₀ L T H r t s') : Grown n₀ L T H r s s' :=
  ⟨h'.inv, h.evolve.trans h'.evolve, fun v hv hu => (h'.top v hv hu).trans (h.top v hv hu)⟩

theorem Inv.grown (h : Inv n₀ L s' T H) (hr : r ∈ T) (hev : Evolve n₀ T H s s') :
    Grown n₀ L T H r s s' :=
  ⟨h, hev.mono (Finset.erase_subset r T) (Finset.Subset.refl H), fun v hv hu => (hev.still hr v hv).2 hu⟩

structure Gains (n₀ : Nat) (L Z : Prop) (T H : Finset Nat) (r v p : Nat) (perm : Pte) (s t : Kernel) : Prop where
  grown : Grown n₀ L T H r s t
  bound : ∀ n, Bound s.mem r n → n ≤ v → Bound t.mem r (v + 1)
  own : Private s r → Private t r
  only : Only T r {v} s t
  lone : Lone T (insert p H) r {v} s t
  entry : pte t.mem r v = PA2PTE p ||| perm ||| PTE_V
  slots : Z → Slots T t

theorem MapsOne.gains {perm : Pte} {res : Int} (h : MapsOne n₀ L Z T (insert p H) r v (PA2PTE p ||| perm ||| PTE_V) s res s')
    (hnot : p ∉ H) (hr : r ∈ T) (hlt : v < UPAGES) (hperm : Small perm) (hsw : has perm PTE_SWAPPED = false)
    (hcow : has perm PTE_COW = false) :
    res = -1 ∧ Sane n₀ L Z T (insert p H) s' ∧ Grows n₀ T (insert p H) r s s' ∨
      res = 0 ∧ Gains n₀ L Z T H r v p perm s s' := by
  obtain ⟨t, hg, ht, -, ⟨rfl, rfl⟩ | ⟨rfl, hV, hs, hent⟩⟩ := h
  · exact .inl ⟨rfl, ht, hg⟩
  have hsub := Finset.subset_insert p H
  have hself := Finset.mem_insert_self p H
  have hset := hent.set
  have hev := hg.evolve
  have hinv := hent.held hs ht.inv hr hlt hV hself hperm hsw (by simp [hcow])
  rw [Finset.erase_insert hnot] at hinv
  have hentry := hset.self hr (hlt.trans UPAGES_lt)
  refine .inr ⟨rfl, ⟨hinv, ?_, ?_⟩, ?_, ?_, ?_, (hg.lone.trans hent.lone).mono (by simp), hentry, fun hZ => ?_⟩
  · exact (hev.mono (Finset.erase_subset r T) hsub).trans (hent.evolve.mono (Finset.Subset.refl _) hsub)
  · intro v' hv' hu
    rw [hset.other hr hv' fun he => by omega]
    exact (hev.still hr v' hv').2 hu
  · intro n hb hn
    exact hset.bound hr ((hev.still hr).bound hb |>.mono hn)
  · intro hpriv v' hv' P hP
    have hpt := hev.keeps_private hr ht.inv hr hpriv
    have hrefs : ∀ Q, refs s' Q = refs t Q := fun Q => by rw [hs]; rfl
    by_cases hvv : v' = v
    · rw [hvv, hentry] at hP ⊢
      rw [points_mapped (ht.inv.page_held hself) hperm] at hP
      cases hP
      rw [has_mapped small_COW (by decide), hrefs]
      exact ⟨hcow, ht.inv.refs_held hself⟩
    · rw [hset.other hr (hv'.trans UPAGES_lt) fun he => hvv he.2] at hP ⊢
      rw [hrefs]
      exact hpt v' hv' P hP
  · exact (hg.only.trans (.of_set hr hset (by rw [hs]) (by rw [hs]))).mono (by simp)
  · refine (ht.slots hZ).sheds (.of_set hset ?_ (by rw [hs]))
    rw [has_mapped small_SWAPPED (by decide), hsw]

omit [Image] in
theorem npages_aligned {a : Nat} (h : a % PGSIZE = 0) : npages a = a / PGSIZE := by
  simp only [npages, PGSIZE] at *
  omega

omit [Image] in
theorem small_user {perm : Pte} (h : Small perm) : Small (PTE_R ||| PTE_U ||| perm) :=
  (small_R.or small_U).or h

omit [Image] in
theorem has_user {perm f : Pte} (h : has (PTE_R ||| PTE_U) f = false) :
    has (PTE_R ||| PTE_U ||| perm) f = has perm f := by
  rw [has_or, h, Bool.false_or]

end Xv6
