import Xv6.Freewalk

/-!
# Growing an address space

`uvmalloc` panics only if it maps a page twice. `exec` does not check the new size, but memory ends before the address
space does.
-/

open Xv6.Lib Op Radix

namespace Xv6

variable [Image] {n₀ : Nat} {L Z : Prop} {s s' t : Kernel} {T H H' : Finset Nat}
  {r v va p P n old new : Nat} {e xperm : Pte}

/-! ## Memory is small -/

def Full (m : Mem) (r n : Nat) : Prop := ∀ v < n, has (pte m r v) PTE_V = true

abbrev NPAGES : Nat := (PHYSTOP - KERNBASE) / PGSIZE

theorem Inv.full_le (h : Inv n₀ L s T H) (hr : r ∈ T) (hpriv : Private s r) (hfull : Full s.mem r n)
    (hn : n ≤ UPAGES) : n ≤ NPAGES := by
  have hpage : ∀ v < n, points (pte s.mem r v) = some (PTE2PA (pte s.mem r v)) :=
    fun v hv => points_some (hfull v hv)
  have hmem : ∀ v < n, Page (PTE2PA (pte s.mem r v)) :=
    fun v hv => h.page_leaf hr (hv.trans_le hn) (hpage v hv)
  have hcard := Finset.card_le_card_of_injOn (s := Finset.range n) (t := Finset.range NPAGES)
    (fun v => (PTE2PA (pte s.mem r v) - KERNBASE) / PGSIZE) ?_ ?_
  · simpa using hcard
  · intro v hv
    have hP := hmem v (by simpa using hv)
    have hlt := hP.lt
    simp only [Finset.coe_range, Set.mem_Iio, NPAGES, PHYSTOP, KERNBASE, PGSIZE] at *
    omega
  · intro v hv v' hv' he
    rw [Finset.coe_range, Set.mem_Iio] at hv hv'
    have hsame := index_inj (hmem v hv) (hmem v' hv') he
    have hone := (hpriv v (hv.trans_le hn) _ (hpage v hv)).2
    have hx := h.only_leaf hr (hv.trans_le hn) (hpage v hv) hone.le (x := .leaf r v')
      (by rw [goal_leaf hr (hv'.trans_le hn), hpage v' hv', hsame])
    cases hx
    rfl

theorem Inv.full_lt (h : Inv n₀ L s T H) (hr : r ∈ T) (hpriv : Private s r) (hfull : Full s.mem r n) :
    n < UPAGES := by
  by_contra hge
  have hle := h.full_le (n := UPAGES) hr hpriv (fun v hv => hfull v (by omega)) (Nat.le_refl _)
  exact absurd hle (by decide)

/-! ## Growing -/

def UserPte (xperm e : Pte) : Prop := ∃ P, e = PA2PTE P ||| (PTE_R ||| PTE_U ||| xperm) ||| PTE_V

omit [Image] in
theorem UserPte.valid (h : UserPte xperm e) : has e PTE_V = true := by
  obtain ⟨P, rfl⟩ := h
  rw [has_or, show has PTE_V PTE_V = true from by decide, Bool.or_true]

omit [Image] in
theorem UserPte.has {f : Pte} (h : UserPte xperm e) (hf : Small f) (hV : PTE_V &&& f = 0#64) :
    Xv6.has e f = Xv6.has (PTE_R ||| PTE_U ||| xperm) f := by
  obtain ⟨P, rfl⟩ := h
  exact has_mapped hf hV P

/-- Room for one more page at every step: the end is checked, or the tree is one that is being built. -/
def RoomFor (s : Kernel) (r va n : Nat) : Prop :=
  va + n * PGSIZE ≤ TRAPFRAME ∨ Apart s r ∧ Private s r ∧ Full s.mem r (va / PGSIZE)

theorem RoomFor.lt (h : RoomFor s r va (n + 1)) (hinv : Inv n₀ L s T H) (hr : r ∈ T) :
    va / PGSIZE < UPAGES := by
  rcases h with hle | ⟨-, hpriv, hfull⟩
  · rw [UPAGES_eq]
    simp only [PGSIZE, TRAPFRAME, TRAMPOLINE, MAXVA] at *
    omega
  · exact hinv.full_lt hr hpriv hfull

def Blank (s : Kernel) (P : Nat) : Prop := refs s P = 1 ∧ ∀ k < PGSIZE, s.mem (P + k) = 0

omit [Image] in
theorem Blank.intact (h : Blank s P) (hi : Intact P s t) : Blank t P := by
  obtain ⟨h1, hb⟩ := hi h.1
  exact ⟨h1, fun k hk => (hb k hk).trans (h.2 k hk)⟩

structure Filled (T H : Finset Nat) (r a b : Nat) (xperm : Pte) (s t : Kernel) : Prop where
  only : Only T r (Set.Ico a b) s t
  user : t.stats.swap_outs = s.stats.swap_outs ∨ Spared s r a → ∀ v ∈ Set.Ico a b, UserPte xperm (pte t.mem r v)
  lone : Lone T H r (Set.Ico a b) s t
  blank : ∀ v ∈ Set.Ico a b, ∀ P, points (pte t.mem r v) = some P → Blank t P

namespace Filled

variable {a b : Nat}

omit [Image]

theorem nil (s : Kernel) : Filled T H r a a xperm s s :=
  ⟨.refl s, fun _ _ hv => absurd (hv.1.trans_lt hv.2) (Nat.lt_irrefl _), .refl s,
    fun _ hv => absurd (hv.1.trans_lt hv.2) (Nat.lt_irrefl _)⟩

theorem cons (ho : Only T r {a} s t) (hl : Lone T H r {a} s t) (hself : UserPte xperm (pte t.mem r a))
    (hz : ∀ P, points (pte t.mem r a) = some P → Blank t P) (hr : r ∈ T) (ha : a < UPAGES) (hab : a < b)
    (h : Filled T H r (a + 1) b xperm t s') : Filled T H r a b xperm s s' := by
  have hle := ho.others.swaps
  have hle' := h.only.others.swaps
  have hno : a ∉ Set.Ico (a + 1) b := fun hin => absurd hin.1 (by omega)
  have hset : ({a} : Set Nat) ∪ Set.Ico (a + 1) b ⊆ Set.Ico a b := by
    rintro v (rfl | hv)
    · exact ⟨Nat.le_refl _, hab⟩
    · exact ⟨(Nat.le_succ a).trans hv.1, hv.2⟩
  have hrest : ∀ v ∈ Set.Ico a b, v ≠ a → v ∈ Set.Ico (a + 1) b := fun v hv hva =>
    ⟨by have : a ≤ v := hv.1; omega, hv.2⟩
  refine ⟨(ho.trans h.only).mono hset, fun hcalm v hv => ?_, (hl.trans h.lone).mono hset, fun v hv P hP => ?_⟩
  · by_cases hva : v = a
    · subst hva
      have hsame : pte s'.mem r v = pte t.mem r v := by
        rcases hcalm with hsw | hsp
        · exact h.only.calm (by omega) v (ha.trans UPAGES_lt) hno
        · exact h.only.spared v (hsp.congr ho.proc) v (ha.trans UPAGES_lt) (Nat.le_refl _) hno
      rw [hsame]
      exact hself
    · exact h.user (hcalm.imp (fun hsw => by omega) fun hsp => (hsp.congr ho.proc).mono (Nat.le_succ a)) v
        (hrest v hv hva)
  · by_cases hva : v = a
    · subst hva
      have hi := h.lone.mapped r hr v ha (fun _ => hno) P hP
      rw [h.lone.valid r hr v ha (fun _ => hno) (valid_of_points hP).1] at hP
      exact (hz P hP).intact hi
    · exact h.blank v (hrest v hv hva) P hP

end Filled

/-- The leaf at `v` is new, and its page is blank. -/
structure Added (n₀ : Nat) (L Z : Prop) (T H : Finset Nat) (r v : Nat) (xperm : Pte) (s t : Kernel) : Prop where
  sane : Sane n₀ L Z T H t
  grown : Grown n₀ L T H r s t
  only : Only T r {v} s t
  lone : Lone T H r {v} s t
  user : UserPte xperm (pte t.mem r v)
  blank : ∀ P, points (pte t.mem r v) = some P → Blank t P
  bound : Bound t.mem r (v + 1)
  own : Private s r → Private t r

theorem Gains.added (h : Gains n₀ L Z T H r v p (PTE_R ||| PTE_U ||| xperm) t s') (hs : Sane n₀ L Z T H s)
    (ht : Inv n₀ L t T (insert p H)) (hg : Grows n₀ T H r s t) (hr : r ∈ T) (hx : Small xperm)
    (hb : Bound s.mem r v) (hz : ∀ k < PGSIZE, t.mem (p + k) = 0) : Added n₀ L Z T H r v xperm s s' := by
  have hself := Finset.mem_insert_self p H
  have hev := hg.evolve
  have ho := (hg.only.trans h.only).mono (B := {v}) (by simp)
  exact {
    sane := hs.next h.grown.inv (Finset.Subset.refl T) ho.proc h.slots
    grown := ⟨h.grown.inv, (hev.mono (Finset.erase_subset r T) (Finset.Subset.refl H)).trans h.grown.evolve,
      fun v hv hu => (h.grown.top v hv hu).trans ((hev.still hr v hv).2 hu)⟩
    only := ho
    lone := (hg.lone.trans (h.lone.drop (Finset.subset_insert p H))).mono (by simp)
    user := ⟨p, h.entry⟩
    blank := by
      intro P hP
      rw [h.entry, points_mapped (ht.page_held hself) (small_user hx)] at hP
      cases hP
      exact Blank.intact ⟨ht.refs_held hself, hz⟩ (h.lone.held p hself)
    bound := h.bound _ ((hev.still hr).bound hb) (Nat.le_refl _)
    own := fun hpriv => h.own (hev.keeps_private hr ht hr hpriv) }

theorem Added.room (h : Added n₀ L Z T H r (va / PGSIZE) xperm s t) (hlt : va / PGSIZE < UPAGES)
    (hroom : RoomFor s r va (n + 1)) : RoomFor t r (va + PGSIZE) n := by
  rcases hroom with hend | ⟨ha, hown, hfull⟩
  · exact .inl (by rw [Nat.succ_mul] at hend; omega)
  · refine .inr ⟨h.only.apart ha, h.own hown, fun v hv => ?_⟩
    rw [next_page] at hv
    by_cases hvv : v = va / PGSIZE
    · rw [hvv]
      exact h.user.valid
    · rw [h.only.leaves ha v (by have := UPAGES_lt; omega) hvv]
      exact hfull v (by omega)

structure Looped (n₀ : Nat) (L Z : Prop) (T H : Finset Nat) (r old va n : Nat) (xperm : Pte) (s : Kernel) (ok : Bool)
    (t : Kernel) : Prop where
  sane : Sane n₀ L Z T H t
  grown : Grown n₀ L T H r s t
  failed : ok = false → Only T r (Set.Ici (old / PGSIZE)) s t ∧ Bound t.mem r (old / PGSIZE)
  filled : ok = true → Filled T H r (va / PGSIZE) (va / PGSIZE + n) xperm s t ∧ va + n * PGSIZE ≤ TRAPFRAME ∧
    Bound t.mem r (va / PGSIZE + n) ∧ (Private s r → Private t r)

theorem Added.looped {ok : Bool} (h : Added n₀ L Z T H r (va / PGSIZE) xperm s t) (hr : r ∈ T)
    (hlt : va / PGSIZE < UPAGES) (hle : old ≤ va) (hrest : Looped n₀ L Z T H r old (va + PGSIZE) n xperm t ok s') :
    Looped n₀ L Z T H r old va (n + 1) xperm s ok s' where
  sane := hrest.sane
  grown := h.grown.trans hrest.grown
  failed hfail := by
    obtain ⟨ho, hb⟩ := hrest.failed hfail
    refine ⟨(h.only.trans ho).mono ?_, hb⟩
    rintro v (rfl | hv)
    · exact Nat.div_le_div_right hle
    · exact hv
  filled hok := by
    obtain ⟨hfill, hend, hb, hpriv⟩ := hrest.filled hok
    rw [next_page, Nat.add_right_comm, Nat.add_assoc] at hfill hb
    exact ⟨.cons h.only h.lone h.user h.blank hr hlt (by omega) hfill, by simp only [PGSIZE] at hend ⊢; omega, hb,
      fun hown => hpriv (h.own hown)⟩

theorem Sane.dealloc_looped (ht : Sane n₀ L Z T H t) (hg : Grows n₀ T H r s t) (hr : r ∈ T)
    (hal : va % PGSIZE = 0) (hold : old % PGSIZE = 0) (hle : old ≤ va) (hva : va ≤ TRAPFRAME)
    (hb : Bound s.mem r (va / PGSIZE)) : Ends (do let _ ← uvmdealloc r va old; pure false) t
      (Looped n₀ L Z T H r old va (n + 1) xperm s) (Stray Z) := by
  rw [ends_bind]
  refine (uvmdealloc_ends ht.inv ht.slots hr hva).with_run.mono ?_
  rintro _ t' ⟨⟨_, hun⟩, hrun⟩
  have hlo := npages_aligned hold
  have hhi := npages_aligned hal
  obtain ⟨hinv, hev, hstill, hb', rfl⟩ := uvmdealloc_spec ht.inv hr hva
    (by rw [hhi]; exact (hg.evolve.still hr).bound hb) hrun
  rw [Nat.min_eq_right hle, hlo] at hb'
  refine ⟨ht.next hun.inv (Finset.Subset.refl T) hun.others.proc fun hZ => hun.slots (ht.slots hZ),
    (ht.inv.grown hr hg.evolve).trans ⟨hinv, hev, fun v hv hu => (hstill v hv).2 hu⟩,
    fun _ => ⟨(hg.only.trans hun.only).mono ?_, hb'⟩, (by simp)⟩
  rw [hlo]
  rintro v (hv | hv)
  · cases hv
  · exact hv.1

theorem uvmalloc_loop_ends (n : Nat) (h : Sane n₀ L Z T H s) (hr : r ∈ T)
    (hx : Small xperm) (hxs : has xperm PTE_SWAPPED = false) (hxc : has xperm PTE_COW = false)
    (hal : va % PGSIZE = 0) (hold : old % PGSIZE = 0) (hle : old ≤ va) (hva : va ≤ TRAPFRAME)
    (hb : Bound s.mem r (va / PGSIZE)) (hroom : RoomFor s r va n) :
    Ends (uvmalloc_loop r old xperm n va) s (Looped n₀ L Z T H r old va n xperm s) (Stray Z) := by
  induction n generalizing va s with
  | zero => exact ⟨h, h.inv.grown hr (.refl s), (by simp), fun _ => ⟨.nil s, by omega, hb, id⟩⟩
  | succ n ih =>
    have hlt := hroom.lt h.inv hr
    rw [uvmalloc_loop, ends_bind]
    refine (kalloc_ends h).mono ?_
    rintro res t ⟨hun, _, hno, hsome⟩
    have hg := Grows.of_unseen hun hr
    cases res with
    | none => exact (hno rfl).dealloc_looped hg hr hal hold hle hva hb
    | some p =>
      obtain ⟨hnot, hs⟩ := hsome p rfl
      have hself := Finset.mem_insert_self p H
      rw [ends_bind]
      refine Safe.ends trivial fun _ t₁ hset => ?_
      obtain ⟨hinv₁, hun₁⟩ := hs.inv.memset_in_hand hnot hset
      have hg₁ := hg.trans (.of_unseen hun₁ hr)
      rw [ends_bind]
      refine (mappages_ends (hs.unseen hinv₁ hun₁) hr hal (hva.trans_lt (by decide)) fun hbad => ?_).mono ?_
      · rw [hg₁.evolve.not_valid hr (hlt.trans UPAGES_lt) (hb.not_valid hlt)] at hbad
        cases hbad
      intro res t₂ hres
      rcases hres.gains hnot hr hlt (small_user hx) (by rw [has_user (by decide), hxs])
        (by rw [has_user (by decide), hxc]) with ⟨rfl, hs₂, hg₂⟩ | ⟨rfl, hgain⟩
      · -- The page is given back before the others are.
        have hfree := hs₂.inv.kfree_run (goal_held hself)
        rw [if_pos (by decide), ends_bind, ends_of_run hfree]
        obtain ⟨hinv₃, hun₃⟩ := hs₂.inv.kfree_in_hand hnot hfree
        exact (hs₂.unseen hinv₃ hun₃).dealloc_looped
          ((hg₁.trans (hg₂.drop (Finset.subset_insert p H))).trans (.of_unseen hun₃ hr)) hr hal hold hle hva hb
      · have hadd := hgain.added h hinv₁ hg₁ hr hx hb fun k hk => by
          rw [memset_ok.mp hset]
          exact if_pos (by omega)
        have hva₂ : va + PGSIZE ≤ TRAPFRAME := by
          rw [UPAGES_eq] at hlt
          simp only [PGSIZE, TRAPFRAME, TRAMPOLINE, MAXVA] at *
          omega
        rw [if_neg (by decide)]
        exact (ih hadd.sane (by simp only [PGSIZE] at *; omega) (by omega) hva₂ (by rw [next_page]; exact hadd.bound)
          (hadd.room hlt hroom)).mono fun ok t₃ hend => hadd.looped hr hlt hle hend

structure Allocated (n₀ : Nat) (L Z : Prop) (T H : Finset Nat) (r old new : Nat) (xperm : Pte) (s : Kernel) (sz : Nat)
    (t : Kernel) : Prop where
  only : Only T r (Set.Ici (npages old)) s t
  filled : sz ≠ 0 → Filled T H r (npages old) (npages sz) xperm s t
  sane : Sane n₀ L Z T H t
  grown : Grown n₀ L T H r s t
  failed : sz = 0 → Bound t.mem r (npages old)
  size : sz ≠ 0 → sz = max old new ∧ sz ≤ TRAPFRAME ∧ Bound t.mem r (npages sz) ∧ (Private s r → Private t r)

theorem uvmalloc_ends (h : Sane n₀ L Z T H s) (hr : r ∈ T)
    (hx : Small xperm) (hxs : has xperm PTE_SWAPPED = false) (hxc : has xperm PTE_COW = false)
    (hold : old ≤ TRAPFRAME) (hb : Bound s.mem r (npages old))
    (hroom : new ≤ TRAPFRAME ∨ Apart s r ∧ Private s r ∧ Full s.mem r (npages old)) :
    Ends (uvmalloc r old new xperm) s (Allocated n₀ L Z T H r old new xperm s) (Stray Z) := by
  have hmax : TRAPFRAME ≤ MAXVA := by decide
  have hdiv := PGROUNDUP_div (show old ≤ MAXVA by omega)
  have hup := PGROUNDUP_eq (show old ≤ MAXVA by omega)
  have hal : PGROUNDUP old % PGSIZE = 0 := by
    simp only [PGSIZE] at *
    omega
  have hle : PGROUNDUP old ≤ TRAPFRAME := by
    simp only [PGSIZE, TRAPFRAME, TRAMPOLINE, MAXVA] at *
    omega
  unfold uvmalloc
  split_ifs with hlt
  · exact ⟨Only.refl s, fun _ => .nil s, h, h.inv.grown hr (.refl s), fun _ => hb,
      fun _ => ⟨by omega, hold, hb, id⟩⟩
  · rw [ends_bind]
    refine (uvmalloc_loop_ends _ h hr hx hxs hxc hal hal (Nat.le_refl _) hle (by rw [hdiv]; exact hb) ?_).mono
      fun ok t hloop => ?_
    · refine hroom.imp (fun hle => ?_) fun hbuild => by rw [hdiv]; exact hbuild
      simp only [PGSIZE, TRAPFRAME, TRAMPOLINE, MAXVA] at *
      omega
    · cases ok with
      | false =>
        obtain ⟨ho, hb'⟩ := hloop.failed rfl
        rw [hdiv] at ho hb'
        exact ⟨ho, fun h0 => absurd rfl h0, hloop.sane, hloop.grown, fun _ => hb', fun h0 => absurd rfl h0⟩
      | true =>
        obtain ⟨hfill, hend, hb', hpriv⟩ := hloop.filled rfl
        have hcount : npages old + (new - PGROUNDUP old + PGSIZE - 1) / PGSIZE = npages new := by
          simp only [npages, PGSIZE] at *
          omega
        rw [hdiv, hcount] at hfill hb'
        refine ⟨hfill.only.mono fun v hv => hv.1, fun _ => hfill, hloop.sane, hloop.grown, fun h0 => ?_,
          fun _ => ⟨by omega, ?_, hb', hpriv⟩⟩
        · exact hb'.mono (npages_mono (by omega))
        · simp only [PGSIZE, TRAPFRAME, TRAMPOLINE, MAXVA] at *
          omega

end Xv6
