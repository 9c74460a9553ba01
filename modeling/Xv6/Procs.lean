import Xv6.Freewalk
import Xv6.Uvmcopy

/-!
# Processes and their pages

Every slot of the process table in use has a page-table tree and a trapframe of its own. `Good` says
so, and every function of `proc.c` keeps it.
-/

open Xv6.Lib Op Radix

namespace Xv6

variable [Image] {n₀ : Nat} {L Z : Prop} {E : String → Prop} {s s' t : Kernel} {T H C : Finset Nat} {r v va p P i j : Nat}
  {e : Pte}

/-! ## A new address space -/

theorem uvmcreate_ends (h : Sane n₀ L Z T H s) :
    Ends uvmcreate s (fun res t => Evolve n₀ T H s t ∧ Fixed T s t ∧ (res = none → Sane n₀ L Z T H t) ∧
      ∀ r, res = some r → r ∉ T ∧ Sane n₀ L Z (insert r T) H t ∧ ∀ v, pte t.mem r v = 0#64) E := by
  unfold uvmcreate uvmcreate_with
  rw [ends_bind]
  refine (kalloc_ends h).mono ?_
  rintro res t ⟨hun, _, hnone, hsome⟩
  cases res with
  | none => exact ⟨hun.evolve, hun.fixed, hnone, by simp⟩
  | some p =>
    obtain ⟨hnot, hs⟩ := hsome p rfl
    rw [ends_bind]
    refine Safe.ends trivial fun _ t₁ hset => ?_
    obtain ⟨hinv, hun₁⟩ := hs.inv.memset_in_hand hnot hset
    have hself := Finset.mem_insert_self p H
    have hzero : ∀ i : Fin 512, t₁.mem.load64 (p + 8 * i) = 0 := by
      intro i
      rw [memset_ok] at hset
      rw [hset]
      exact Mem.load64_fill_zero (by omega) (by simp only [PGSIZE]; omega)
    have hentry : ∀ v, pte t₁.mem p v = 0#64 := entry_zero hzero points_zero
    have hroot := hinv.new_root hself hzero
    rw [Finset.erase_insert hnot] at hroot
    have hun := hun.trans hun₁
    refine ⟨hun.evolve, hun.fixed, by simp, ?_⟩
    rintro _ ⟨⟩
    refine ⟨fun hin => hinv.held_not_table hself hin (n := .top) rfl, h.next hroot (Finset.subset_insert p T)
      hun.evolve.proc fun hZ => (hun.slots (h.slots hZ)).insert fun v _ => ?_, hentry⟩
    rw [hentry, has_zero]

theorem mappages_top_ends {perm : Pte} {pa : Nat} (h : Sane n₀ L Z T H s) (hr : r ∈ T) (hal : va % PGSIZE = 0)
    (hva : va < MAXVA) (hv : UPAGES ≤ va / PGSIZE) (hV : has (pte s.mem r (va / PGSIZE)) PTE_V = false)
    (hU : has perm PTE_U = false) (hC : has perm PTE_COW = false) (hS : has perm PTE_SWAPPED = false) :
    Ends (mappages r va PGSIZE pa perm) s (fun res t => Sane n₀ L Z T H t ∧ Evolve n₀ (T.erase r) H s t ∧
      (res = -1 ∧ Only T r ∅ s t ∨ res = 0 ∧ Only T r {va / PGSIZE} s t ∧
        pte t.mem r (va / PGSIZE) = PA2PTE pa ||| perm ||| PTE_V)) E := by
  refine (mappages_ends h hr hal hva fun hbad => absurd (hV.symm.trans hbad) (by decide)).mono ?_
  rintro res t ⟨u, hg, hs, _, hend⟩
  rcases hend with ⟨rfl, rfl⟩ | ⟨rfl, -, ht, hent⟩
  · exact ⟨hs, hg.evolve.mono (Finset.erase_subset _ _) (Finset.Subset.refl H), .inl ⟨rfl, hg.only⟩⟩
  · have hok : LeafOk (va / PGSIZE) (PA2PTE pa ||| perm ||| PTE_V) := by
      rw [LeafOk, if_neg (by omega), has_mapped small_U (by decide), has_mapped small_COW (by decide),
        has_mapped small_SWAPPED (by decide)]
      refine ⟨hU, hC, hS, fun hge => absurd hge ?_⟩
      simp only [MAXVA, PGSIZE] at *
      omega
    have hinv' : Inv n₀ L t T H := hs.inv.set_top hv hent.set hok (by rw [ht]) (by rw [ht]) (by rw [ht])
    have hproc : t.proc = u.proc := by rw [ht]
    refine ⟨hs.keep hinv' hproc (.of_set hent.set ?_ (by rw [ht])),
      (hg.evolve.mono (Finset.erase_subset _ _) (Finset.Subset.refl H)).trans hent.evolve,
      .inr ⟨rfl, (hg.only.trans (.of_set hr hent.set hproc (by rw [ht]))).mono (by simp), ?_⟩⟩
    · rw [has_mapped small_SWAPPED (by decide), hS]
    · exact hent.set.self hr (page_number_lt hva)

omit [Image] in
theorem Bound.of_zero {m : Mem} {n : Nat} (h : ∀ v < UPAGES, pte m r v = 0#64) : Bound m r n := by
  intro v hv hpres
  rw [h v hv] at hpres
  simp at hpres

omit [Image] in
theorem Only.fixed {A : Set Nat} (h : Only (insert r T) r A s s') (hr : r ∉ T) : Fixed T s s' := by
  have hf := h.others
  rwa [Finset.erase_insert hr] at hf

omit [Image] in
theorem ProcsIn.apart (hin : ProcsIn s T) (hr : r ∉ T) (h0 : r ≠ 0) : Apart s r := by
  rintro i hi hu rfl
  exact hr (hin i hi hu h0)

theorem proc_pagetable_ends (h : Sane n₀ L Z T H s) :
    Ends (proc_pagetable i) s (fun res t => Evolve n₀ T H s t ∧ Fixed T s t ∧ (res = none → Sane n₀ L Z T H t) ∧
      ∀ r, res = some r → r ∉ T ∧ Sane n₀ L Z (insert r T) H t ∧ (∀ v < UPAGES, pte t.mem r v = 0#64) ∧
        Capped t.mem r) (Stray Z) := by
  unfold proc_pagetable proc_pagetable_with
  rw [ends_bind]
  refine (uvmcreate_ends h).mono ?_
  rintro root t ⟨hev, hf, hnone, hsome⟩
  cases root with
  | none => exact ⟨hev, hf, hnone, by simp⟩
  | some r =>
    obtain ⟨hrT, hs, hzero⟩ := hsome r rfl
    have hr := Finset.mem_insert_self r T
    have herase := Finset.erase_insert hrT
    have ha : Apart t r := by
      intro j hj hu
      rw [hf.proc] at hu ⊢
      exact h.procsIn.apart hrT (hs.inv.page_root hr).ne_zero j hj hu
    have hlt : UPAGES + 1 < 512 ^ 3 := by decide
    -- A tree whose leaves but that of the trampoline are empty, and that one is not valid.
    have hfree : ∀ t', Sane n₀ L Z (insert r T) H t' → Evolve n₀ T H s t' → Fixed T s t' →
        (∀ v < 512 ^ 3, v ≠ UPAGES + 1 → pte t'.mem r v = 0#64) → has (pte t'.mem r (UPAGES + 1)) PTE_V = false →
        Ends (uvmfree r 0) t' (fun _ u => Evolve n₀ T H s u ∧ Fixed T s u ∧ Sane n₀ L Z T H u) (Stray Z) := by
      intro t' hs' hev' hf' hz htramp
      refine (uvmfree_ends hs'.inv hs'.slots hr (Nat.zero_le _) ?_ ?_).mono ?_
      · intro v hv hp
        rw [hz v (hv.trans UPAGES_lt) (by omega)] at hp
        simp at hp
      · exact hs'.inv.noTop hr (by rw [hz _ UPAGES_lt (by omega)]; simp) htramp
      · rintro _ u ⟨⟨hinv, hevu, hfu, hslots, -⟩, _⟩
        rw [herase] at hinv hevu hfu hslots
        have hfu := hf'.trans hfu
        exact ⟨hev'.trans hevu, hfu, h.next hinv (Finset.Subset.refl T) hfu.proc fun hZ => hslots (hs'.slots hZ)⟩
    rw [ends_bind]
    refine (mappages_top_ends hs hr (by decide) (by decide) (by rw [trampoline_page]; omega) (by rw [hzero]; simp)
      (by decide) (by decide) (by decide)).mono ?_
    rintro res₁ t₁ ⟨hs₁, hev₁, hend₁⟩
    rw [herase] at hev₁
    rw [trampoline_page] at hend₁
    have hev₁ := hev.trans hev₁
    rcases hend₁ with ⟨rfl, ho₁⟩ | ⟨rfl, ho₁, -⟩
    · rw [if_pos (by decide), ends_bind]
      refine (hfree t₁ hs₁ hev₁ (hf.trans (ho₁.fixed hrT)) (fun v hv _ => ?_) ?_).mono
        fun _ u hu => ⟨hu.1, hu.2.1, fun _ => hu.2.2, by simp⟩
      · rw [ho₁.leaves ha v hv (by simp), hzero]
      · rw [ho₁.leaves ha _ hlt (by simp), hzero]
        simp
    · rw [if_neg (by decide)]
      have hf₁ := hf.trans (ho₁.fixed hrT)
      have hz₁ : ∀ v < 512 ^ 3, v ≠ UPAGES + 1 → pte t₁.mem r v = 0#64 :=
        fun v hv hne => (ho₁.leaves ha v hv hne).trans (hzero v)
      have ha₁ := ho₁.apart ha
      simp only [ends_bind, getProc, ends_gets]
      refine (mappages_top_ends hs₁ hr (by decide) (by decide) (by rw [trapframe_page])
        (by rw [trapframe_page, hz₁ _ UPAGES_lt (by omega)]; simp) (by decide) (by decide) (by decide)).mono ?_
      rintro res₂ t₂ ⟨hs₂, hev₂, hend₂⟩
      rw [herase] at hev₂
      rw [trapframe_page] at hend₂
      have hev₂ := hev₁.trans hev₂
      rcases hend₂ with ⟨rfl, ho₂⟩ | ⟨rfl, ho₂, hself⟩
      · rw [if_pos (by decide), ends_bind]
        refine (uvmunmap_top_ends hs₂.inv hr (by decide) (by decide)).with_run.mono ?_
        rintro _ t₄ ⟨⟨ho₄, hsh₄, _⟩, hun⟩
        obtain ⟨hinv₄, hev₄, hsame₄, hgone₄⟩ := uvmunmap_top hs₂.inv hr (by rw [trampoline_page]; omega) hun
        rw [trampoline_page] at hsame₄ hgone₄
        rw [herase] at hev₄
        rw [ends_bind]
        refine (hfree t₄ (hs₂.keep hinv₄ ho₄.proc hsh₄) (hev₂.trans hev₄)
          ((hf₁.trans (ho₂.fixed hrT)).trans (ho₄.fixed hrT)) (fun v hv hne => ?_) hgone₄).mono
          fun _ u hu => ⟨hu.1, hu.2.1, fun _ => hu.2.2, by simp⟩
        rw [hsame₄ v hv hne, ho₂.leaves ha₁ v hv (by simp), hz₁ v hv hne]
      · rw [if_neg (by decide)]
        refine ⟨hev₂, hf₁.trans (ho₂.fixed hrT), by simp, ?_⟩
        rintro _ ⟨⟩
        refine ⟨hrT, hs₂, fun v hv => ?_, ?_⟩
        · rw [ho₂.leaves ha₁ v (hv.trans UPAGES_lt) (by simp only [Set.mem_singleton_iff]; omega),
            hz₁ v (hv.trans UPAGES_lt) (by omega)]
        · rw [Capped, hself, has_or]
          simp [show has PTE_V PTE_V = true from by decide]

/-! ## The process table -/

section slots
variable {f : Proc → Nat} {procs : Nat → Proc} {q : Proc}
omit [Image]

def setSlot (procs : Nat → Proc) (i : Nat) (p : Proc) : Nat → Proc :=
  fun j => if j = i then p else procs j

@[simp] theorem setSlot_self : setSlot procs i q i = q := if_pos rfl

theorem setSlot_of_ne (h : j ≠ i) : setSlot procs i q j = procs j := if_neg h

@[simp] theorem setSlot_setSlot (q' : Proc) : setSlot (setSlot procs i q') i q = setSlot procs i q := by
  funext k
  simp only [setSlot]
  split_ifs <;> rfl

@[simp] theorem setSlot_eq : setSlot procs i (procs i) = procs := by
  funext k
  simp only [setSlot]
  split_ifs with hk
  · rw [hk]
  · rfl

def addrs (f : Proc → Nat) (procs : Nat → Proc) : Finset Nat :=
  ((Finset.range NPROC).image fun i => f (procs i)).erase 0

theorem mem_addrs {a : Nat} : a ∈ addrs f procs ↔ a ≠ 0 ∧ ∃ i < NPROC, f (procs i) = a := by
  simp [addrs]

def Distinct (f : Proc → Nat) (procs : Nat → Proc) : Prop :=
  ∀ i < NPROC, ∀ j < NPROC, f (procs i) = f (procs j) → f (procs i) ≠ 0 → i = j

theorem addrs_congr {procs' : Nat → Proc} (h : ∀ i, f (procs' i) = f (procs i)) :
    addrs f procs' = addrs f procs := by
  simp only [addrs, h]

theorem field_setSlot (h : f q = f (procs i)) (j : Nat) : f (setSlot procs i q j) = f (procs j) := by
  by_cases hj : j = i
  · rw [hj, setSlot_self, h]
  · rw [setSlot_of_ne hj]

theorem addrs_setSlot (hi : i < NPROC) (hd : Distinct f procs) : addrs f (setSlot procs i q) =
    if f q = 0 then (addrs f procs).erase (f (procs i))
    else insert (f q) ((addrs f procs).erase (f (procs i))) := by
  have hother : ∀ a, a ≠ 0 → ((∃ j < NPROC, j ≠ i ∧ f (procs j) = a) ↔
      a ∈ (addrs f procs).erase (f (procs i))) := by
    intro a ha
    rw [Finset.mem_erase, mem_addrs]
    constructor
    · rintro ⟨j, hj, hji, rfl⟩
      exact ⟨fun he => hji (hd j hj i hi he ha), ha, j, hj, rfl⟩
    · rintro ⟨hne, -, j, hj, rfl⟩
      exact ⟨j, hj, fun he => hne (by rw [he]), rfl⟩
  ext a
  by_cases ha : a = 0
  · subst ha
    split_ifs with h0
    · simp [mem_addrs]
    · simp [mem_addrs, Ne.symm h0]
  · have hset : a ∈ addrs f (setSlot procs i q) ↔ f q = a ∨ a ∈ (addrs f procs).erase (f (procs i)) := by
      rw [mem_addrs, ← hother a ha]
      constructor
      · rintro ⟨-, j, hj, he⟩
        by_cases hji : j = i
        · rw [hji, setSlot_self] at he
          exact .inl he
        · rw [setSlot_of_ne hji] at he
          exact .inr ⟨j, hj, hji, he⟩
      · rintro (he | ⟨j, hj, hji, he⟩)
        · exact ⟨ha, i, hi, by rw [setSlot_self, he]⟩
        · exact ⟨ha, j, hj, by rw [setSlot_of_ne hji, he]⟩
    rw [hset]
    split_ifs with h0
    · rw [h0]
      exact or_iff_right (Ne.symm ha)
    · rw [Finset.mem_insert, eq_comm]

theorem Distinct.congr {procs' : Nat → Proc} (h : Distinct f procs) (he : ∀ i, f (procs' i) = f (procs i)) :
    Distinct f procs' := by
  intro i hi j hj
  rw [he, he]
  exact h i hi j hj

theorem Distinct.set (hd : Distinct f procs) (h : f q ≠ 0 → f q ∉ addrs f procs) :
    Distinct f (setSlot procs i q) := by
  have hone : ∀ j < NPROC, j ≠ i → f (procs j) = f q → f q = 0 := by
    intro j hj _ he
    by_contra h0
    exact h h0 (mem_addrs.mpr ⟨h0, j, hj, he⟩)
  intro j hj k hk he h0
  by_cases hji : j = i
  · by_cases hki : k = i
    · rw [hji, hki]
    · rw [hji, setSlot_self] at h0 he
      rw [setSlot_of_ne hki] at he
      exact absurd (hone k hk hki he.symm) h0
  · rw [setSlot_of_ne hji] at h0 he
    by_cases hki : k = i
    · rw [hki, setSlot_self] at he
      rw [he] at h0
      exact absurd (hone j hj hji he) h0
    · rw [setSlot_of_ne hki] at he
      exact hd j hj k hk he h0

end slots

abbrev roots (procs : Nat → Proc) : Finset Nat := addrs (·.pagetable) procs

abbrev frames (procs : Nat → Proc) : Finset Nat := addrs (·.trapframe) procs

/-- The pages that the kernel holds: trapframes, and those in `C` for other parts of the kernel. -/
abbrev held (procs : Nat → Proc) (C : Finset Nat) : Finset Nat := frames procs ∪ C

structure Used (m : Mem) (p : Proc) : Prop where
  root : p.pagetable ≠ 0
  frame : p.trapframe ≠ 0
  size : p.sz ≤ TRAPFRAME
  bound : Bound m p.pagetable (npages p.sz)
  capped : Capped m p.pagetable

def Slot (m : Mem) (p : Proc) : Prop :=
  if p.state = .UNUSED then p.pagetable = 0 ∧ p.trapframe = 0 ∧ p.sz = 0 else Used m p

structure Table (n₀ : Nat) (L : Prop) (s : Kernel) (C : Finset Nat) : Prop where
  inv : Inv n₀ L s (roots s.proc) (held s.proc C)
  ownRoot : Distinct (·.pagetable) s.proc
  ownFrame : Distinct (·.trapframe) s.proc
  apart : Disjoint (frames s.proc) C

def SlotsBut (j : Nat) (s : Kernel) : Prop := ∀ i < NPROC, i ≠ j → Slot s.mem (s.proc i)

/-- What holds between two calls of the kernel. -/
structure Good (n₀ : Nat) (L : Prop) (s : Kernel) (C : Finset Nat) : Prop extends Table n₀ L s C where
  slots : ∀ i < NPROC, Slot s.mem (s.proc i)

omit [Image] in
@[simp] theorem modifyProc_ok {f : Proc → Proc} {u : Unit} : modifyProc i f s = .ok (u, s') ↔
    s' = { s with proc := setSlot s.proc i (f (s.proc i)) } := by
  simp only [modifyProc, getProc, setProc, bind_ok, gets_ok, update_ok]
  constructor
  · rintro ⟨_, _, ⟨rfl, rfl⟩, rfl⟩
    rfl
  · rintro rfl
    exact ⟨_, _, ⟨rfl, rfl⟩, rfl⟩

namespace Table

theorem procsIn (_h : Table n₀ L s C) : ProcsIn s (roots s.proc) :=
  fun i hi _ hp => mem_addrs.mpr ⟨hp, i, hi, rfl⟩

theorem of_inv (h : Table n₀ L s C) (hinv : Inv n₀ L s' (roots s.proc) (held s.proc C))
    (hp : s'.proc = s.proc) : Table n₀ L s' C := by
  refine ⟨?_, ?_, ?_, ?_⟩
  all_goals rw [hp]
  · exact hinv
  · exact h.ownRoot
  · exact h.ownFrame
  · exact h.apart

theorem congr (h : Table n₀ L s C) (ha : Alike s s')
    (hr : ∀ i, (s'.proc i).pagetable = (s.proc i).pagetable)
    (hf : ∀ i, (s'.proc i).trapframe = (s.proc i).trapframe) : Table n₀ L s' C := by
  have hroots : roots s'.proc = roots s.proc := addrs_congr hr
  have hframes : frames s'.proc = frames s.proc := addrs_congr hf
  refine ⟨?_, h.ownRoot.congr hr, h.ownFrame.congr hf, ?_⟩
  · rw [hroots, held, hframes]
    exact h.inv.alike ha
  · rw [hframes]
    exact h.apart

end Table

section
omit [Image]

theorem Slot.still {q : Proc} (h : Slot s.mem q) (hs : q.pagetable ≠ 0 → Still q.pagetable s s') :
    Slot s'.mem q := by
  unfold Slot at *
  split_ifs at * with hu
  · exact h
  · exact ⟨h.root, h.frame, h.size, (hs h.root).bound h.bound, (hs h.root).capped h.capped⟩

theorem Slot.used {q : Proc} (h : Slot s.mem q) (hu : q.state ≠ .UNUSED) : Used s.mem q := by
  rwa [Slot, if_neg hu] at h

theorem Slot.size_le {q : Proc} (h : Slot s.mem q) : q.sz ≤ TRAPFRAME := by
  rw [Slot] at h
  split_ifs at h with hu
  · rw [h.2.2]
    exact Nat.zero_le _
  · exact h.size

theorem root_mem_erase (hd : Distinct (·.pagetable) s.proc) (hi : i < NPROC) (hj : j < NPROC)
    (hij : i ≠ j) (hp : (s.proc i).pagetable ≠ 0) :
    (s.proc i).pagetable ∈ (roots s.proc).erase (s.proc j).pagetable :=
  Finset.mem_erase.mpr ⟨fun he => hij (hd i hi j hj he hp), mem_addrs.mpr ⟨hp, i, hi, rfl⟩⟩

/-! ## Freeing and allocating slots -/

abbrev emptySlot (p : Proc) : Proc :=
  { p with pagetable := 0, trapframe := 0, sz := 0, pid := 0, parent := none, name := [],
           killed := false, xstate := 0, state := .UNUSED }

theorem zero_not_mem_addrs {f : Proc → Nat} {procs : Nat → Proc} : 0 ∉ addrs f procs := by
  simp [mem_addrs]

theorem held_erase (h : Disjoint (frames s.proc) C) (hp : p ∈ frames s.proc) :
    (held s.proc C).erase p = (frames s.proc).erase p ∪ C := by
  rw [held, Finset.erase_union_distrib, Finset.erase_eq_of_notMem (Finset.disjoint_left.mp h hp)]

theorem SlotsBut.kept {T' H' : Finset Nat} (h : SlotsBut j s) (hk : Kept n₀ T' H' s s')
    (hd : Distinct (·.pagetable) s.proc) (hj : j < NPROC)
    (hT : (roots s.proc).erase (s.proc j).pagetable ⊆ T') (hp : ∀ i, i ≠ j → s'.proc i = s.proc i) :
    SlotsBut j s' := by
  intro i hi hij
  rw [hp i hij]
  exact (h i hi hij).still fun hr => hk.still _ (hT (root_mem_erase hd hi hj hij hr))

theorem ends_modifyProc {f : Proc → Proc} {Q : Unit → Kernel → Prop} :
    Ends (modifyProc j f) s Q E ↔ Q () { s with proc := setSlot s.proc j (f (s.proc j)) } := Iff.rfl

end

structure Steady (T : Finset Nat) (s s' : Kernel) : Prop where
  swaps : s.stats.swap_outs ≤ s'.stats.swap_outs
  tables : ∀ r ∈ T, ∀ n, node s'.mem r n = node s.mem r n
  calm : s'.stats.swap_outs = s.stats.swap_outs → ∀ r ∈ T, ∀ v < 512 ^ 3, pte s'.mem r v = pte s.mem r v
  valid : ∀ r ∈ T, ∀ v < 512 ^ 3, has (pte s'.mem r v) PTE_V = true → pte s'.mem r v = pte s.mem r v

namespace Steady

omit [Image]

theorem of_fixed (h : Fixed T s s') : Steady T s s' := ⟨h.swaps, h.tables, h.calm, h.valid⟩

theorem of_mem (hm : s'.mem = s.mem) (hsw : s'.stats.swap_outs = s.stats.swap_outs) : Steady T s s' :=
  ⟨hsw.ge, fun _ _ _ => by rw [hm], fun _ _ _ _ _ => by rw [hm], fun _ _ _ _ _ => by rw [hm]⟩

theorem trans (h : Steady T s t) (h' : Steady T t s') : Steady T s s' := by
  have hle := h.swaps
  have hle' := h'.swaps
  refine ⟨hle.trans hle', fun r hr n => (h'.tables r hr n).trans (h.tables r hr n), fun hsw r hr v hv => ?_,
    fun r hr v hv hV => ?_⟩
  · rw [h'.calm (by omega) r hr v hv, h.calm (by omega) r hr v hv]
  · have he := h'.valid r hr v hv hV
    rw [he] at hV ⊢
    exact h.valid r hr v hv hV

theorem mono {T' : Finset Nat} (h : Steady T' s s') (hT : T ⊆ T') : Steady T s s' :=
  ⟨h.swaps, fun r hr => h.tables r (hT hr), fun hsw r hr => h.calm hsw r (hT hr), fun r hr => h.valid r (hT hr)⟩

end Steady

structure Freed (n₀ : Nat) (L : Prop) (j : Nat) (C : Finset Nat) (s t : Kernel) : Prop where
  good : Good n₀ L t C
  kept : Kept n₀ ((roots s.proc).erase (s.proc j).pagetable) ((frames s.proc).erase (s.proc j).trapframe ∪ C) s t
  steady : Steady ((roots s.proc).erase (s.proc j).pagetable) s t
  slots : Slots (roots s.proc) s → Slots (roots t.proc) t
  proc : t.proc = setSlot s.proc j (emptySlot (s.proc j))

theorem Table.freed (h : Table n₀ L s C) (hb : SlotsBut j s) (hj : j < NPROC)
    (hinv : Inv n₀ L t ((roots s.proc).erase (s.proc j).pagetable) ((frames s.proc).erase (s.proc j).trapframe ∪ C))
    (hk : Kept n₀ ((roots s.proc).erase (s.proc j).pagetable) ((frames s.proc).erase (s.proc j).trapframe ∪ C) s t)
    (hst : Steady ((roots s.proc).erase (s.proc j).pagetable) s t)
    (hslots : Slots (roots s.proc) s → Slots ((roots s.proc).erase (s.proc j).pagetable) t)
    (hp : t.proc = setSlot s.proc j { s.proc j with trapframe := 0 })
    (hs : s' = { t with proc := setSlot t.proc j { t.proc j with
      pagetable := 0, sz := 0, pid := 0, parent := none, name := [], killed := false, xstate := 0,
      state := .UNUSED } }) : Freed n₀ L j C s s' := by
  have hproc : s'.proc = setSlot s.proc j (emptySlot (s.proc j)) := by
    rw [hs]
    simp only [hp, setSlot_self, setSlot_setSlot]
  have ha : Alike t s' := by
    rw [hs]
    exact ⟨rfl, rfl, rfl, rfl⟩
  have hk' := hk.trans (Kept.of_mem ha.mem ha.swaps)
  have hroots : roots s'.proc = (roots s.proc).erase (s.proc j).pagetable := by
    rw [hproc, roots, addrs_setSlot hj h.ownRoot, if_pos rfl]
  have hframes : frames s'.proc = (frames s.proc).erase (s.proc j).trapframe := by
    rw [hproc, frames, addrs_setSlot hj h.ownFrame, if_pos rfl]
  refine ⟨⟨⟨?_, ?_, ?_, ?_⟩, ?_⟩, hk', hst.trans (.of_mem ha.mem ha.swaps), fun hz => ?_, hproc⟩
  · rw [hroots, held, hframes]
    exact hinv.alike ha
  · rw [hproc]
    exact h.ownRoot.set fun h0 => absurd rfl h0
  · rw [hproc]
    exact h.ownFrame.set fun h0 => absurd rfl h0
  · rw [hframes]
    exact h.apart.mono_left (Finset.erase_subset _ _)
  · intro i hi
    by_cases hij : i = j
    · rw [hij, hproc, setSlot_self, Slot, if_pos rfl]
      exact ⟨rfl, rfl, rfl⟩
    · exact hb.kept hk' h.ownRoot hj (Finset.Subset.refl _)
        (fun i hij => by rw [hproc, setSlot_of_ne hij]) i hi hij
  · rw [hroots]
    exact (hslots hz).sheds (.of_off (by rw [ha.mem]; exact .refl _) (by rw [hs]))

theorem freeproc_ends (h : Table n₀ L s C) (hb : SlotsBut j s) (hz : Z → Slots (roots s.proc) s) (hj : j < NPROC)
    (hsz : (s.proc j).pagetable ≠ 0 →
      (s.proc j).sz ≤ TRAPFRAME ∧ Bound s.mem (s.proc j).pagetable (npages (s.proc j).sz)) :
    Ends (freeproc j) s (fun _ t => Freed n₀ L j C s t) (Stray Z) := by
  have hrest : ∀ t, Inv n₀ L t (roots s.proc) ((frames s.proc).erase (s.proc j).trapframe ∪ C) →
      Unseen n₀ (roots s.proc) ((frames s.proc).erase (s.proc j).trapframe ∪ C) s t →
      Ends (do
        modifyProc j fun p => { p with trapframe := 0 }
        if (s.proc j).pagetable ≠ 0 then proc_freepagetable (s.proc j).pagetable (s.proc j).sz else pure ()
        modifyProc j fun p => { p with
          pagetable := 0, sz := 0, pid := 0, parent := none, name := [], killed := false, xstate := 0,
          state := .UNUSED }) t (fun _ t => Freed n₀ L j C s t) (Stray Z) := by
    intro t hinv hun
    obtain ⟨t₁, ht₁⟩ : ∃ t₁ : Kernel,
        t₁ = { t with proc := setSlot t.proc j { t.proc j with trapframe := 0 } } := ⟨_, rfl⟩
    have ha : Alike t t₁ := by
      rw [ht₁]
      exact ⟨rfl, rfl, rfl, rfl⟩
    have hk := hun.evolve.kept.trans (Kept.of_mem ha.mem ha.swaps)
    have hst := (Steady.of_fixed hun.fixed).trans (.of_mem ha.mem ha.swaps)
    have hp₁ : t₁.proc = setSlot s.proc j { s.proc j with trapframe := 0 } := by rw [ht₁, hun.fixed.proc]
    have hslots : Slots (roots s.proc) s → Slots (roots s.proc) t₁ := fun hs =>
      (hun.slots hs).sheds (.of_off (by rw [ha.mem]; exact .refl _) (by rw [ht₁]))
    rw [ends_bind, ends_modifyProc, ← ht₁]
    refine ends_ite.mpr ⟨fun h0 => ?_, fun h0 => ?_⟩
    · obtain ⟨hle, hbound⟩ := hsz h0
      have hr : (s.proc j).pagetable ∈ roots s.proc := mem_addrs.mpr ⟨h0, j, hj, rfl⟩
      rw [ends_bind]
      refine (proc_freepagetable_ends (hinv.alike ha) (fun hZ => hslots (hz hZ)) hr hle
        ((hk.still _ hr).bound hbound)).mono ?_
      rintro _ t₂ ⟨hrem, _⟩
      exact ends_modifyProc.mpr (h.freed hb hj hrem.inv
        ((hk.mono (Finset.erase_subset _ _) (Finset.Subset.refl _)).trans hrem.evolve.kept)
        ((hst.mono (Finset.erase_subset _ _)).trans (.of_fixed hrem.fixed)) (fun hs => hrem.slots (hslots hs))
        (hrem.fixed.proc.trans hp₁) rfl)
    · have hroot := Finset.erase_eq_of_notMem (a := (s.proc j).pagetable) (s := roots s.proc)
        (by rw [not_not.mp h0]; exact zero_not_mem_addrs)
      refine ends_modifyProc.mpr (h.freed hb hj ?_ ?_ ?_ ?_ hp₁ rfl)
      all_goals rw [hroot]
      · exact hinv.alike ha
      · exact hk
      · exact hst
      · exact hslots
  simp only [freeproc, getProc, ends_bind, ends_gets]
  refine ends_ite.mpr ⟨fun h0 => ?_, fun h0 => hrest s ?_ (.refl s)⟩
  · have hp : (s.proc j).trapframe ∈ frames s.proc := mem_addrs.mpr ⟨h0, j, hj, rfl⟩
    have hin : (s.proc j).trapframe ∈ held s.proc C := Finset.mem_union_left C hp
    have hfree := h.inv.kfree_run (goal_held hin)
    have hinv := h.inv
    rw [← Finset.insert_erase hin] at hinv
    obtain ⟨hinv₁, hun⟩ := hinv.kfree_in_hand (Finset.notMem_erase _ _) hfree
    rw [held_erase h.apart hp] at hinv₁ hun
    rw [ends_bind, ends_of_run hfree]
    exact hrest _ hinv₁ hun
  · rw [not_not.mp h0, Finset.erase_eq_of_notMem zero_not_mem_addrs]
    exact h.inv

theorem Good.sized (h : Good n₀ L s C) : Sized s := fun i hi => (h.slots i hi).size_le

theorem Good.sane (h : Good n₀ L s C) (hz : Z → Slots (roots s.proc) s) :
    Sane n₀ L Z (roots s.proc) (held s.proc C) s := ⟨h.inv, h.procsIn, h.sized, hz⟩

theorem Table.put_frame (h : Table n₀ L s C) (hj : j < NPROC) (h0 : (s.proc j).trapframe = 0)
    (hinv : Inv n₀ L s' (roots s.proc) (insert p (held s.proc C))) (hp : p ∉ held s.proc C)
    (hs : s'.proc = setSlot s.proc j { s.proc j with trapframe := p }) :
    Table n₀ L s' C ∧ roots s'.proc = roots s.proc ∧ frames s'.proc = insert p (frames s.proc) := by
  have hp0 : p ≠ 0 := (hinv.page_held (Finset.mem_insert_self _ _)).ne_zero
  have hpf : p ∉ frames s.proc := fun hin => hp (Finset.mem_union_left C hin)
  have hpt : ∀ i, (s'.proc i).pagetable = (s.proc i).pagetable := by
    rw [hs]
    exact field_setSlot (f := (·.pagetable)) rfl
  have hroots : roots s'.proc = roots s.proc := addrs_congr hpt
  have hframes : frames s'.proc = insert p (frames s.proc) := by
    rw [hs, frames, addrs_setSlot hj h.ownFrame, if_neg hp0, h0,
      Finset.erase_eq_of_notMem zero_not_mem_addrs]
  refine ⟨⟨?_, h.ownRoot.congr hpt, ?_, ?_⟩, hroots, hframes⟩
  · rw [hroots, held, hframes, Finset.insert_union]
    exact hinv
  · rw [hs]
    exact h.ownFrame.set fun _ => hpf
  · rw [hframes, Finset.disjoint_insert_left]
    exact ⟨fun hin => hp (Finset.mem_union_right _ hin), h.apart⟩

theorem Table.put_root (h : Table n₀ L s C) (hj : j < NPROC) (h0 : (s.proc j).pagetable = 0)
    (hinv : Inv n₀ L s' (insert r (roots s.proc)) (held s.proc C)) (hr : r ∉ roots s.proc)
    (hs : s'.proc = setSlot s.proc j { s.proc j with pagetable := r }) : Table n₀ L s' C := by
  have hr0 : r ≠ 0 := (hinv.page_root (Finset.mem_insert_self _ _)).ne_zero
  have hft : ∀ i, (s'.proc i).trapframe = (s.proc i).trapframe := by
    rw [hs]
    exact field_setSlot (f := (·.trapframe)) rfl
  have hframes : frames s'.proc = frames s.proc := addrs_congr hft
  refine ⟨?_, ?_, h.ownFrame.congr hft, ?_⟩
  · rw [held, hframes, hs, roots, addrs_setSlot hj h.ownRoot, if_neg hr0, h0,
      Finset.erase_eq_of_notMem zero_not_mem_addrs]
    exact hinv
  · rw [hs]
    exact h.ownRoot.set fun _ => hr
  · rw [hframes]
    exact h.apart

def Emptied (s t : Kernel) : Prop :=
  t.proc = s.proc ∨ ∃ j < NPROC, (s.proc j).state = .UNUSED ∧ t.proc = setSlot s.proc j (emptySlot (s.proc j))

theorem Emptied.roots (h : Emptied s t) (hg : Good n₀ L s C) : roots t.proc = roots s.proc := by
  rcases h with hp | ⟨j, hj, hu, hp⟩
  · rw [hp]
  · have hslot := hg.slots j hj
    rw [Slot, if_pos hu] at hslot
    rw [hp]
    exact addrs_congr (field_setSlot (f := (·.pagetable)) hslot.1.symm)

theorem Emptied.held (h : Emptied s t) (hg : Good n₀ L s C) : held t.proc C = held s.proc C := by
  rcases h with hp | ⟨j, hj, hu, hp⟩
  · rw [hp]
  · have hslot := hg.slots j hj
    rw [Slot, if_pos hu] at hslot
    rw [hp, Xv6.held, Xv6.held, frames, frames, addrs_congr (field_setSlot (f := (·.trapframe)) hslot.2.1.symm)]

omit [Image] in
theorem Emptied.proc (h : Emptied s t) (k : Nat) :
    t.proc k = s.proc k ∨ (s.proc k).state = .UNUSED ∧ (t.proc k).state = .UNUSED := by
  rcases h with hp | ⟨j, hj, hu, hp⟩
  · exact .inl (by rw [hp])
  · rw [hp]
    by_cases hk : k = j
    · rw [hk, setSlot_self]
      exact .inr ⟨hu, rfl⟩
    · exact .inl (setSlot_of_ne hk)

structure Fresh (j : Nat) (C : Finset Nat) (s s' : Kernel) : Prop where
  lt : j < NPROC
  unused : (s.proc j).state = .UNUSED
  others : ∀ i, i ≠ j → s'.proc i = s.proc i
  state : (s'.proc j).state = .USED
  size : (s'.proc j).sz = 0
  root : (s'.proc j).pagetable ∉ roots s.proc
  frame : (s'.proc j).trapframe ∉ held s.proc C

structure Allotted (n₀ : Nat) (L Z : Prop) (C : Finset Nat) (res : Option Nat) (s t : Kernel) : Prop where
  good : Good n₀ L t C
  kept : Kept n₀ (roots s.proc) (held s.proc C) s t
  steady : Steady (roots s.proc) s t
  slots : Z → Slots (roots t.proc) t
  empty : res = none → Emptied s t
  fresh : ∀ j, res = some j → Fresh j C s t

theorem Allotted.alive {res : Option Nat} (h : Allotted n₀ L Z C res s t) (i : Nat)
    (hu : (s.proc i).state ≠ .UNUSED) : t.proc i = s.proc i := by
  cases res with
  | none => exact ((h.empty rfl).proc i).resolve_right fun hbad => hu hbad.1
  | some j =>
    have hf := h.fresh j rfl
    refine hf.others i ?_
    rintro rfl
    exact hu hf.unused

structure Draft (n₀ : Nat) (L Z : Prop) (j : Nat) (C : Finset Nat) (s t : Kernel) : Prop where
  table : Table n₀ L t C
  slots : SlotsBut j t
  others : ∀ i, i ≠ j → t.proc i = s.proc i
  state : (t.proc j).state = .USED
  root : (t.proc j).pagetable = 0
  size : (t.proc j).sz = 0
  trees : roots t.proc = roots s.proc
  hands : (frames t.proc).erase (t.proc j).trapframe = frames s.proc
  kept : Kept n₀ (roots s.proc) (held s.proc C) s t
  steady : Steady (roots s.proc) s t
  blocks : Z → Slots (roots t.proc) t

namespace Draft

theorem held_sub (h : Draft n₀ L Z j C s t) : held s.proc C ⊆ held t.proc C := by
  rw [held, held, ← h.hands]
  exact Finset.union_subset_union (Finset.erase_subset _ _) (Finset.Subset.refl C)

theorem sane (h : Draft n₀ L Z j C s t) : Sane n₀ L Z (roots t.proc) (held t.proc C) t := by
  refine ⟨h.table.inv, h.table.procsIn, fun i hi => ?_, h.blocks⟩
  by_cases hij : i = j
  · rw [hij, h.size]
    exact Nat.zero_le _
  · exact (h.slots i hi hij).size_le

theorem next (h : Draft n₀ L Z j C s t) (hj : j < NPROC) (hs : Sane n₀ L Z (roots t.proc) (held t.proc C) s')
    (hev : Evolve n₀ (roots t.proc) (held t.proc C) t s') (hf : Fixed (roots t.proc) t s') :
    Draft n₀ L Z j C s s' := by
  have hslots := h.slots.kept hev.kept h.table.ownRoot hj (Finset.erase_subset _ _) (fun i _ => by rw [hf.proc])
  refine ⟨h.table.of_inv hs.inv hf.proc, hslots, ?_, ?_, ?_, ?_, ?_, ?_, h.kept.trans (hev.kept.mono h.trees.ge h.held_sub),
    h.steady.trans ((Steady.of_fixed hf).mono h.trees.ge), ?_⟩
  all_goals rw [hf.proc]
  exacts [h.others, h.state, h.root, h.size, h.trees, h.hands, hs.slots]

theorem put_frame {u : Kernel} (h : Draft n₀ L Z j C s t) (hj : j < NPROC) (h0 : (t.proc j).trapframe = 0)
    (hnot : p ∉ held t.proc C) (hs : Sane n₀ L Z (roots t.proc) (insert p (held t.proc C)) u)
    (hun : Unseen n₀ (roots t.proc) (held t.proc C) t u)
    (hs' : s' = { u with proc := setSlot u.proc j { u.proc j with trapframe := p } }) : Draft n₀ L Z j C s s' := by
  have ha : Alike u s' := by
    rw [hs']
    exact ⟨rfl, rfl, rfl, rfl⟩
  have hp : s'.proc = setSlot t.proc j { t.proc j with trapframe := p } := by rw [hs', hun.fixed.proc]
  obtain ⟨htab, hroots, hframes⟩ := h.table.put_frame hj h0 (hs.inv.alike ha) hnot hp
  have hk : Kept n₀ (roots t.proc) (held t.proc C) t s' := hun.evolve.kept.trans (Kept.of_mem ha.mem ha.swaps)
  have hself : s'.proc j = { t.proc j with trapframe := p } := by rw [hp, setSlot_self]
  have hst : Steady (roots t.proc) t s' := (Steady.of_fixed hun.fixed).trans (.of_mem ha.mem ha.swaps)
  refine ⟨htab, ?_, ?_, ?_, ?_, ?_, hroots.trans h.trees, ?_, h.kept.trans (hk.mono h.trees.ge h.held_sub),
    h.steady.trans (hst.mono h.trees.ge), fun hZ => ?_⟩
  · exact h.slots.kept hk h.table.ownRoot hj (Finset.erase_subset _ _) fun i hij => by rw [hp, setSlot_of_ne hij]
  · intro i hij
    rw [hp, setSlot_of_ne hij, h.others i hij]
  · rw [hself, h.state]
  · rw [hself, h.root]
  · rw [hself, h.size]
  · have hout : p ∉ frames t.proc := fun hin => hnot (Finset.mem_union_left C hin)
    rw [hframes, hself, Finset.erase_insert hout, ← h.hands, h0, Finset.erase_eq_of_notMem zero_not_mem_addrs]
  · rw [hroots]
    exact (hs.slots hZ).sheds (.of_off (by rw [ha.mem]; exact .refl _) (by rw [hs']))

theorem put_root {u : Kernel} (h : Draft n₀ L Z j C s t) (hj : j < NPROC) (hu : (s.proc j).state = .UNUSED)
    (h0 : (t.proc j).trapframe ≠ 0) (hnot : (t.proc j).trapframe ∉ held s.proc C) (hr : r ∉ roots t.proc)
    (hs : Sane n₀ L Z (insert r (roots t.proc)) (held t.proc C) u)
    (hev : Evolve n₀ (roots t.proc) (held t.proc C) t u) (hf : Fixed (roots t.proc) t u)
    (hzero : ∀ v < UPAGES, pte u.mem r v = 0#64) (hcap : Capped u.mem r)
    (hs' : s' = { u with proc := setSlot u.proc j { u.proc j with pagetable := r } }) :
    Allotted n₀ L Z C (some j) s s' := by
  have ha : Alike u s' := by
    rw [hs']
    exact ⟨rfl, rfl, rfl, rfl⟩
  have hp : s'.proc = setSlot t.proc j { t.proc j with pagetable := r } := by rw [hs', hf.proc]
  have hself : s'.proc j = { t.proc j with pagetable := r } := by rw [hp, setSlot_self]
  have hother : ∀ i, i ≠ j → s'.proc i = t.proc i := fun i hij => by rw [hp, setSlot_of_ne hij]
  have hr0 := (hs.inv.page_root (Finset.mem_insert_self _ _)).ne_zero
  have hk : Kept n₀ (roots t.proc) (held t.proc C) t s' := hev.kept.trans (Kept.of_mem ha.mem ha.swaps)
  have hst : Steady (roots t.proc) t s' := (Steady.of_fixed hf).trans (.of_mem ha.mem ha.swaps)
  have hused : Used s'.mem (s'.proc j) := by
    rw [hself, ha.mem]
    refine ⟨hr0, h0, ?_, .of_zero hzero, hcap⟩
    simp only [h.size]
    exact Nat.zero_le _
  refine ⟨⟨h.table.put_root hj h.root (hs.inv.alike ha) hr hp, fun i hi => ?_⟩, h.kept.trans (hk.mono h.trees.ge h.held_sub),
    h.steady.trans (hst.mono h.trees.ge), fun hZ => ?_, (by simp), ?_⟩
  · by_cases hij : i = j
    · rw [hij, Slot, if_neg (by rw [hself, h.state]; simp)]
      exact hused
    · exact h.slots.kept hk h.table.ownRoot hj (Finset.erase_subset _ _) hother i hi hij
  · refine ((hs.slots hZ).mono ?_).sheds (.of_off (by rw [ha.mem]; exact .refl _) (by rw [hs']))
    rw [hp, roots, addrs_setSlot hj h.table.ownRoot, if_neg hr0]
    exact Finset.insert_subset_insert _ (Finset.erase_subset _ _)
  · rintro _ ⟨⟩
    refine ⟨hj, hu, fun i hij => (hother i hij).trans (h.others i hij), ?_, ?_, ?_, ?_⟩
    all_goals rw [hself]
    · exact h.state
    · exact h.size
    · rwa [← h.trees]
    · exact hnot

theorem undo {f : Proc → Proc} (h : Draft n₀ L Z j C s t) (hj : j < NPROC) (hu : (s.proc j).state = .UNUSED)
    (hf : f (t.proc j) = t.proc j) :
    Ends (do modifyProc j f; freeproc j; pure none) t (fun res t => Allotted n₀ L Z C res s t) (Stray Z) := by
  rw [ends_bind, ends_modifyProc, hf, setSlot_eq, ends_bind]
  refine (freeproc_ends h.table h.slots h.blocks hj fun h0 => absurd h.root h0).mono fun _ u hfree => ?_
  obtain ⟨hgood, hk, hst, hslots, hp⟩ := hfree
  have hroots : (roots t.proc).erase (t.proc j).pagetable = roots s.proc := by
    rw [h.root, Finset.erase_eq_of_notMem zero_not_mem_addrs]
    exact h.trees
  rw [hroots] at hk hst
  rw [h.hands] at hk
  refine ⟨hgood, h.kept.trans hk, h.steady.trans hst, fun hZ => hslots (h.blocks hZ), fun _ => .inr ⟨j, hj, hu, ?_⟩, (by simp)⟩
  rw [hp]
  funext k
  by_cases hk : k = j
  · rw [hk, setSlot_self, setSlot_self]
  · rw [setSlot_of_ne hk, setSlot_of_ne hk, h.others k hk]

end Draft

theorem allocproc_ends (h : Good n₀ L s C) (hz : Z → Slots (roots s.proc) s) :
    Ends allocproc s (fun res t => Allotted n₀ L Z C res s t) (Stray Z) := by
  simp only [allocproc, allocproc_with, ends_bind, ends_gets]
  split
  · exact ⟨h, .of_mem rfl rfl, .of_mem rfl rfl, hz, fun _ => .inl rfl, (by simp)⟩
  · rename_i j hfind
    have hj : j < NPROC := List.mem_range.mp (List.mem_of_find?_eq_some hfind)
    have hunused := List.find?_some hfind
    simp only [decide_eq_true_eq] at hunused
    have hslot := h.slots j hj
    rw [Slot, if_pos hunused] at hslot
    obtain ⟨hroot0, hframe0, hsize0⟩ := hslot
    simp only [allocpid, ends_bind, ends_gets, ends_update, ends_pure, ends_modifyProc]
    obtain ⟨t, ht⟩ : ∃ t : Kernel, t = { s with
        nextpid := s.nextpid + 1
        proc := setSlot s.proc j { s.proc j with pid := s.nextpid, state := .USED } } := ⟨_, rfl⟩
    rw [← ht]
    have ha : Alike s t := by
      rw [ht]
      exact ⟨rfl, rfl, rfl, rfl⟩
    have hp : t.proc = setSlot s.proc j { s.proc j with pid := s.nextpid, state := .USED } := by rw [ht]
    have hself : t.proc j = { s.proc j with pid := s.nextpid, state := .USED } := by rw [hp, setSlot_self]
    have hother : ∀ i, i ≠ j → t.proc i = s.proc i := fun i hij => by rw [hp, setSlot_of_ne hij]
    have hrt : ∀ i, (t.proc i).pagetable = (s.proc i).pagetable := by
      rw [hp]
      exact field_setSlot (f := (·.pagetable)) rfl
    have hft : ∀ i, (t.proc i).trapframe = (s.proc i).trapframe := by
      rw [hp]
      exact field_setSlot (f := (·.trapframe)) rfl
    have hroots : roots t.proc = roots s.proc := addrs_congr hrt
    have hframes : frames t.proc = frames s.proc := addrs_congr hft
    have hdraft : Draft n₀ L Z j C s t := by
      refine ⟨h.toTable.congr ha hrt hft, fun i hi hij => ?_, hother, by rw [hself], by rw [hrt, hroot0],
        by rw [hself]; exact hsize0, hroots, ?_, .of_mem ha.mem ha.swaps, .of_mem ha.mem ha.swaps,
        fun hZ => ?_⟩
      · rw [hother i hij, ha.mem]
        exact h.slots i hi
      · rw [hft, hframe0, hframes, Finset.erase_eq_of_notMem zero_not_mem_addrs]
      · rw [hroots]
        exact (hz hZ).sheds (.of_off (by rw [ha.mem]; exact .refl _) (by rw [ht]))
    have hframe : (t.proc j).trapframe = 0 := by rw [hft, hframe0]
    refine (kalloc_ends hdraft.sane).mono ?_
    rintro res t₁ ⟨hun, _, hnone, hsome⟩
    cases res with
    | none =>
      refine (hdraft.next hj (hnone rfl) hun.evolve hun.fixed).undo hj hunused ?_
      rw [hun.fixed.proc, ← hframe]
    | some frame =>
      obtain ⟨hnot, hs⟩ := hsome frame rfl
      simp only [ends_bind, ends_modifyProc]
      obtain ⟨t₂, ht₂⟩ : ∃ t₂ : Kernel,
          t₂ = { t₁ with proc := setSlot t₁.proc j { t₁.proc j with trapframe := frame } } := ⟨_, rfl⟩
      rw [← ht₂]
      have hdraft₂ := hdraft.put_frame hj hframe hnot hs hun ht₂
      have hframe₂ : (t₂.proc j).trapframe = frame := by simp [ht₂]
      refine (proc_pagetable_ends hdraft₂.sane).mono ?_
      rintro root t₃ ⟨hev, hf, hnone, hsome⟩
      cases root with
      | none =>
        refine (hdraft₂.next hj (hnone rfl) hev hf).undo hj hunused ?_
        rw [hf.proc, ← hdraft₂.root]
      | some r =>
        obtain ⟨hr, hs₃, hzero, hcap⟩ := hsome r rfl
        rw [ends_bind, ends_modifyProc, ends_pure]
        refine hdraft₂.put_root hj hunused ?_ ?_ hr hs₃ hev hf hzero hcap rfl
        · rw [hframe₂]
          exact (hs.inv.page_held (Finset.mem_insert_self _ _)).ne_zero
        · rw [hframe₂]
          exact fun hin => hnot (hdraft.held_sub hin)

end Xv6
