import Xv6.Procs
import Xv6.Room

/-!
# What the calls of a process keep

Each function takes a `Good` state to a `Good` state, and leaves alone what the other processes have.
-/

open Xv6.Lib Op Radix

namespace Xv6

variable [Image] {n₀ : Nat} {L Z : Prop} {s s' t : Kernel} {T T' H C : Finset Nat} {r v va p P i j : Nat}
  {e : Pte}

theorem Inv.evolve_held (h : Inv n₀ L s T H) (hp : p ∈ H) (hm : OnPage p s.mem s'.mem)
    (hproc : s'.proc = s.proc) (hc : s'.count = s.count) (hf : s'.freelist = s.freelist)
    (hsw : s'.stats.swap_outs = s.stats.swap_outs) :
    Inv n₀ L s' T H ∧ Evolve n₀ T (H.erase p) s s' := by
  refine ⟨h.write_held hp hm hc hf hsw, ?_⟩
  rw [← Finset.insert_erase hp] at h
  exact h.evolve_in_hand (Finset.notMem_erase _ _) hm hproc (fun Q _ _ => by simp only [refs, hc]) hsw

theorem Good.root_mem (h : Good n₀ L s C) (hi : i < NPROC) (hu : (s.proc i).state ≠ .UNUSED) :
    (s.proc i).pagetable ∈ roots s.proc := mem_addrs.mpr ⟨((h.slots i hi).used hu).root, i, hi, rfl⟩

theorem Good.frame_mem (h : Good n₀ L s C) (hi : i < NPROC) (hu : (s.proc i).state ≠ .UNUSED) :
    (s.proc i).trapframe ∈ held s.proc C :=
  Finset.mem_union_left C (mem_addrs.mpr ⟨((h.slots i hi).used hu).frame, i, hi, rfl⟩)

/-! ## Fork -/

theorem Fresh.sub (hf : Fresh j C s t) (h : Good n₀ L s C) :
    roots s.proc ⊆ (roots t.proc).erase (t.proc j).pagetable ∧
      held s.proc C ⊆ (held t.proc C).erase (t.proc j).trapframe := by
  have hslot := h.slots j hf.lt
  rw [Slot, if_pos hf.unused] at hslot
  constructor
  · intro a ha
    refine Finset.mem_erase.mpr ⟨?_, ?_⟩
    · rintro rfl
      exact hf.root ha
    · obtain ⟨h0, k, hk, rfl⟩ := mem_addrs.mp ha
      have hkj : k ≠ j := by
        rintro rfl
        exact h0 hslot.1
      exact mem_addrs.mpr ⟨h0, k, hk, by rw [hf.others k hkj]⟩
  · intro a ha
    refine Finset.mem_erase.mpr ⟨?_, ?_⟩
    · rintro rfl
      exact hf.frame ha
    · rcases Finset.mem_union.mp ha with ha | ha
      · obtain ⟨h0, k, hk, rfl⟩ := mem_addrs.mp ha
        have hkj : k ≠ j := by
          rintro rfl
          exact h0 hslot.2.1
        exact Finset.mem_union_left C (mem_addrs.mpr ⟨h0, k, hk, by rw [hf.others k hkj]⟩)
      · exact Finset.mem_union_right _ ha

/-- The tree `new` of `n` pages has the pages and the bytes that the tree `old` had. -/
structure Twin (old new n : Nat) (s s' : Kernel) : Prop where
  parent : ∀ v < 512 ^ 3, pte s'.mem old v = pte s.mem old v ∨
    has (pte s.mem old v) PTE_V = true ∧ has (pte s.mem old v) PTE_W = true ∧
      pte s'.mem old v = marked (pte s.mem old v)
  child : ∀ v < n, has (pte s.mem old v) PTE_V = true → has (pte s.mem old v) PTE_U = true →
    points (pte s'.mem new v) = points (pte s.mem old v) ∧ has (pte s'.mem new v) PTE_U = true
  absent : ∀ v < UPAGES, ¬ (v < n ∧ has (pte s.mem old v) PTE_V = true ∧
    has (pte s.mem old v) PTE_U = true) → present (pte s'.mem new v) = false
  bytes : ∀ v < UPAGES, ∀ P, points (pte s.mem old v) = some P →
    ∀ k < PGSIZE, s'.mem (P + k) = s.mem (P + k)

omit [Image] in
theorem OnPage.frame (m : Mem) (p src : Nat) :
    OnPage p m ((m.copy p src TF_SIZE).store64 (p + TF_A0) 0) := by
  intro a ha
  rw [Mem.store64_of_outside (by simp only [TF_A0, PGSIZE] at *; omega),
    Mem.copy_of_outside (by simp only [TF_SIZE, PGSIZE] at *; omega)]

structure Forked (n₀ i j : Nat) (s s' : Kernel) : Prop where
  lt : j < NPROC
  unused : (s.proc j).state = .UNUSED
  others : ∀ k, k ≠ j → s'.proc k = s.proc k
  parent : (s'.proc j).parent = some i
  state : (s'.proc j).state = .RUNNABLE
  size : (s'.proc j).sz = (s.proc i).sz
  twin : s.stats.swap_outs = n₀ → s'.stats.swap_outs = n₀ →
    Twin (s.proc i).pagetable (s'.proc j).pagetable (npages (s.proc i).sz) s s'

structure Rolled (T : Finset Nat) (old : Nat) (s t : Kernel) : Prop where
  tables : ∀ r ∈ T, ∀ n, node t.mem r n = node s.mem r n
  others : t.stats.swap_outs = s.stats.swap_outs → ∀ r ∈ T, r ≠ old → ∀ v < 512 ^ 3, pte t.mem r v = pte s.mem r v
  parent : t.stats.swap_outs = s.stats.swap_outs → ∀ v < 512 ^ 3, pte t.mem old v = pte s.mem old v ∨
    has (pte s.mem old v) PTE_V = true ∧ has (pte s.mem old v) PTE_W = true ∧ pte t.mem old v = marked (pte s.mem old v)

namespace Rolled

variable {old : Nat}

omit [Image]

theorem of_steady (h : Steady T s t) (hold : old ∈ T) : Rolled T old s t :=
  ⟨h.tables, fun hsw r hr _ => h.calm hsw r hr, fun hsw v hv => .inl (h.calm hsw old hold v hv)⟩

theorem of_marks {new a b : Nat} (h : Steady T s t) (hm : Marks T' old new a b t s') (hT : T ⊆ T') (hold : old ∈ T)
    (hnew : new ∉ T) : Rolled T old s s' := by
  have hsub : ∀ r ∈ T, r ≠ old → r ∈ (T'.erase old).erase new := fun r hr hne =>
    Finset.mem_erase.mpr ⟨fun he => hnew (he ▸ hr), Finset.mem_erase.mpr ⟨hne, hT hr⟩⟩
  have hle := h.swaps
  have hle' := hm.others.swaps
  refine ⟨fun r hr n => ?_, fun hsw r hr hne v hv => ?_, fun hsw v hv => ?_⟩
  · by_cases hne : r = old
    · rw [hne, hm.tables, h.tables old hold]
    · rw [hm.others.tables r (hsub r hr hne), h.tables r hr]
  · rw [hm.others.calm (by omega) r (hsub r hr hne) v hv, h.calm (by omega) r hr v hv]
  · rw [← h.calm (by omega) old hold v hv]
    rcases hm.parent v hv with he | ⟨-, he⟩ | ⟨hlt, -⟩
    · exact .inl he
    · exact .inr he
    · omega

theorem steady (h : Rolled T old s t) (hle : s.stats.swap_outs ≤ t.stats.swap_outs) (h' : Steady T t s')
    (hold : old ∈ T) : Rolled T old s s' := by
  have hle' := h'.swaps
  refine ⟨fun r hr n => (h'.tables r hr n).trans (h.tables r hr n), fun hsw r hr hne v hv => ?_, fun hsw v hv => ?_⟩
  · rw [h'.calm (by omega) r hr v hv, h.others (by omega) r hr hne v hv]
  · rw [h'.calm (by omega) old hold v hv]
    exact h.parent (by omega) v hv

end Rolled

structure Offspring (i j : Nat) (s t : Kernel) : Prop where
  lt : j < NPROC
  unused : (s.proc j).state = .UNUSED
  used : (t.proc j).state ≠ .UNUSED
  leaves : ∀ v < UPAGES, present (pte t.mem (t.proc j).pagetable v) = true →
    v < npages (s.proc i).sz ∧ Inherits (pte s.mem (s.proc i).pagetable v) (pte t.mem (t.proc j).pagetable v)
  copied : t.stats.swap_outs = s.stats.swap_outs → ∀ v < npages (s.proc i).sz,
    has (pte s.mem (s.proc i).pagetable v) PTE_V = true → has (pte s.mem (s.proc i).pagetable v) PTE_U = true →
      has (pte t.mem (t.proc j).pagetable v) PTE_V = true

omit [Image] in
theorem Offspring.twin (h : Offspring i j s t) (hr : Rolled T (s.proc i).pagetable s t)
    (hp : Pages n₀ (s.proc i).pagetable s t) (hle : npages (s.proc i).sz ≤ UPAGES) (h0 : s.stats.swap_outs = n₀)
    (h1 : t.stats.swap_outs = n₀) :
    Twin (s.proc i).pagetable (t.proc j).pagetable (npages (s.proc i).sz) s t := by
  have hsw := h1.trans h0.symm
  refine ⟨hr.parent hsw, fun v hv hV hU => ?_, fun v hv hno => ?_, fun v hv P hP => (hp h0 h1 v hv P hP).2⟩
  · obtain ⟨-, hi⟩ := h.leaves v (hv.trans_le hle) (by simp [present, h.copied hsw v hv hV hU])
    exact ⟨hi.points, hi.user⟩
  · by_contra hpres
    obtain ⟨hlt, hi⟩ := h.leaves v hv (by simpa using hpres)
    exact hno ⟨hlt, hi.parent_valid, (hi.same _ (.inl rfl)).symm.trans hi.user⟩

/-- What `kfork` does for the process `i`, with or without success. -/
structure Spawns (n₀ : Nat) (L Z : Prop) (C : Finset Nat) (i : Nat) (res : Int) (s t : Kernel) : Prop where
  good : Good n₀ L t C
  kept : Kept n₀ ((roots s.proc).erase (s.proc i).pagetable) (held s.proc C) s t
  alive : ∀ k, (s.proc k).state ≠ .UNUSED → t.proc k = s.proc k
  pages : Pages n₀ (s.proc i).pagetable s t
  slots : Z → Slots (roots t.proc) t
  rolled : Rolled (roots s.proc) (s.proc i).pagetable s t
  ends : res = -1 ∧ Emptied s t ∨ res ≠ -1 ∧ ∃ j, Forked n₀ i j s t ∧ Offspring i j s t

structure Newborn (i j : Nat) (s t : Kernel) : Prop where
  apart : i ≠ j
  parent : t.proc i = s.proc i
  used : (t.proc j).state ≠ .UNUSED
  old : (s.proc i).pagetable ∈ roots t.proc
  new : (t.proc j).pagetable ∈ roots t.proc
  ne : (s.proc i).pagetable ≠ (t.proc j).pagetable
  bound : Bound t.mem (t.proc j).pagetable 0
  spared : Spared t (t.proc j).pagetable 0

theorem Allotted.newborn (ha : Allotted n₀ L Z C (some j) s t) (hi : i < NPROC) (hu : (s.proc i).state ≠ .UNUSED) :
    Newborn i j s t := by
  have hf := ha.fresh j rfl
  have hpi := ha.alive i hu
  have hij : i ≠ j := by
    rintro rfl
    exact hu hf.unused
  have hju : (t.proc j).state ≠ .UNUSED := by
    rw [hf.state]
    simp
  have hislot := (ha.good.slots i hi).used (by rwa [hpi])
  have hjslot := (ha.good.slots j hf.lt).used hju
  refine ⟨hij, hpi, hju, ?_, ha.good.root_mem hf.lt hju, ?_, ?_, ?_⟩
  · rw [← hpi]
    exact ha.good.root_mem hi (by rwa [hpi])
  · rw [← hpi]
    exact fun he => hij (ha.good.ownRoot i hi j hf.lt he hislot.root)
  · have := hjslot.bound
    rwa [hf.size] at this
  · intro k hk hku he
    have hkj : k = j := ha.good.ownRoot k hk j hf.lt he fun h0 => hjslot.root (he.symm.trans h0)
    rw [hkj, hf.size]
    exact Nat.le_refl 0

section forking
variable {u : Kernel} (h : Good n₀ L s C) (hi : i < NPROC) (hu : (s.proc i).state ≠ .UNUSED)
  (ha : Allotted n₀ L Z C (some j) s t)
  (hc : Cloned n₀ L (roots t.proc) (held t.proc C) (s.proc i).pagetable (t.proc j).pagetable t u)
include h hi hu ha hc

omit hi hu in
theorem Cloned.kept_parents : Kept n₀ ((roots s.proc).erase (s.proc i).pagetable) (held s.proc C) s u := by
  obtain ⟨hsub, hsubH⟩ := (ha.fresh j rfl).sub h
  refine (ha.kept.mono (Finset.erase_subset _ _) (Finset.Subset.refl _)).trans
    (hc.kept.mono ?_ (hsubH.trans (Finset.erase_subset _ _)))
  rw [Finset.erase_right_comm]
  exact Finset.erase_subset_erase _ hsub

theorem Cloned.pages_parent : Pages n₀ (s.proc i).pagetable s u :=
  (ha.kept.pages (h.root_mem hi hu)).trans hc.pages ha.kept.swaps hc.kept.swaps

omit h in
theorem Cloned.slotsBut : SlotsBut j u := by
  have hf := ha.fresh j rfl
  intro k hk hkj
  rw [hc.proc]
  refine (ha.good.slots k hk).still fun hr => ?_
  by_cases hki : k = i
  · rw [hki, ha.alive i hu]
    exact hc.still
  · refine hc.kept.still _ (Finset.mem_erase.mpr ⟨fun he => hkj (ha.good.ownRoot k hk j hf.lt he hr), ?_⟩)
    rw [← ha.alive i hu]
    exact root_mem_erase ha.good.ownRoot hk hi hki hr

theorem Freed.spawns {a b : Nat} (hm : Marks (roots t.proc) (s.proc i).pagetable (t.proc j).pagetable a b t u)
    (hslots : Z → Slots (roots t.proc) u)
    (hfree : Freed n₀ L j C u s') : Spawns n₀ L Z C i (-1) s s' := by
  have hf := ha.fresh j rfl
  obtain ⟨hsub, hsubH⟩ := hf.sub h
  obtain ⟨hgood, hk, hst, hsl, hp⟩ := hfree
  rw [hc.proc] at hk hst hsl hp
  have hw := hc.kept_parents h ha
  have hold := h.root_mem hi hu
  have hle := ha.steady.swaps
  have hle' := hm.others.swaps
  have hrolled := Rolled.of_marks ha.steady hm (hsub.trans (Finset.erase_subset _ _)) hold hf.root
  have hempty : Emptied s s' := by
    refine .inr ⟨j, hf.lt, hf.unused, hp.trans ?_⟩
    funext k
    by_cases hkj : k = j
    · rw [hkj, setSlot_self, setSlot_self]
    · rw [setSlot_of_ne hkj, setSlot_of_ne hkj, hf.others k hkj]
  refine ⟨hgood, hw.trans (hk.mono ((Finset.erase_subset _ _).trans hsub) ?_), fun k hku => ?_, ?_,
    fun hZ => hsl (hslots hZ), hrolled.steady (by omega) (hst.mono hsub) hold, .inl ⟨rfl, hempty⟩⟩
  · have hframe : (t.proc j).trapframe ∈ frames t.proc :=
      mem_addrs.mpr ⟨((ha.good.slots j hf.lt).used (by rw [hf.state]; simp)).frame, j, hf.lt, rfl⟩
    rw [← held_erase ha.good.apart hframe]
    exact hsubH
  · exact (hempty.proc k).resolve_right fun hbad => hku hbad.1
  · exact (hc.pages_parent h hi hu ha).trans (hk.pages (hsub hold)) hw.swaps hk.swaps

theorem Cloned.spawns {pid : Int} (hm : Marks (roots t.proc) (s.proc i).pagetable (t.proc j).pagetable 0 (npages (s.proc i).sz) t u)
    (hb : Bound u.mem (t.proc j).pagetable (npages (s.proc i).sz)) (hslots : Z → Slots (roots t.proc) u)
    (hinh : Inherited (s.proc i).pagetable (t.proc j).pagetable 0 (npages (s.proc i).sz) t u)
    (hcomp : Complete (s.proc i).pagetable (t.proc j).pagetable 0 (npages (s.proc i).sz) t u) (hpid : pid ≠ -1)
    (hs : s' = { u with
      mem := (u.mem.copy (t.proc j).trapframe (s.proc i).trapframe TF_SIZE).store64 ((t.proc j).trapframe + TF_A0) 0
      proc := setSlot u.proc j { u.proc j with
        sz := (s.proc i).sz, name := (s.proc i).name, parent := some i, state := .RUNNABLE } }) :
    Spawns n₀ L Z C i pid s s' := by
  have hf := ha.fresh j rfl
  have hn := ha.newborn hi hu
  obtain ⟨hsub, hsubH⟩ := hf.sub h
  have hold := h.root_mem hi hu
  have hjslot := (ha.good.slots j hf.lt).used hn.used
  have hsize := ((h.slots i hi).used hu).size
  have hframe : (t.proc j).trapframe ∈ held t.proc C := ha.good.frame_mem hf.lt hn.used
  obtain ⟨w, hw⟩ : ∃ w : Kernel, w = { u with mem := s'.mem } := ⟨_, rfl⟩
  have hmem : OnPage (t.proc j).trapframe u.mem w.mem := by
    rw [hw, hs]
    exact OnPage.frame _ _ _
  obtain ⟨hinvw, hevw⟩ := hc.inv.evolve_held hframe hmem (by rw [hw]) (by rw [hw]) (by rw [hw]) (by rw [hw])
  have hoff := hc.inv.off_page (hc.inv.page_held hframe) (fun _ hr _ => hc.inv.held_not_table hframe hr) hmem
  have hal : Alike w s' := by
    rw [hw, hs]
    exact ⟨rfl, rfl, rfl, rfl⟩
  rw [← hal.mem] at hoff
  have hwp : w.proc = t.proc := by rw [hw, hc.proc]
  have hp : s'.proc = setSlot t.proc j { t.proc j with
      sz := (s.proc i).sz, name := (s.proc i).name, parent := some i, state := .RUNNABLE } := by
    rw [hs, hc.proc]
  have hroot : ∀ k, (s'.proc k).pagetable = (t.proc k).pagetable := by
    rw [hp]
    exact field_setSlot (f := (·.pagetable)) rfl
  have htab : Table n₀ L s' C := (ha.good.toTable.of_inv hinvw hwp).congr hal (by rw [hwp]; exact hroot)
    (by rw [hp, hwp]; exact field_setSlot (f := (·.trapframe)) rfl)
  have hk : Kept n₀ (roots t.proc) ((held t.proc C).erase (t.proc j).trapframe) u s' :=
    hevw.kept.trans (Kept.of_mem hal.mem hal.swaps)
  have hself : s'.proc j = { t.proc j with
      sz := (s.proc i).sz, name := (s.proc i).name, parent := some i, state := .RUNNABLE } := by
    rw [hp, setSlot_self]
  have hother : ∀ k, k ≠ j → s'.proc k = t.proc k := fun k hkj => by rw [hp, setSlot_of_ne hkj]
  have hused : (s'.proc j).state ≠ .UNUSED := by
    rw [hself]
    simp
  have hsw : s'.stats.swap_outs = u.stats.swap_outs := by rw [hs]
  have hle := ha.steady.swaps
  have hle' := hm.others.swaps
  have hst : Steady (roots t.proc) u s' :=
    ⟨hsw.ge, fun _ hr n => hoff.node hr n, fun _ _ hr v _ => hoff.pte hr v, fun _ hr v _ _ => hoff.pte hr v⟩
  have hrolled : Rolled (roots s.proc) (s.proc i).pagetable s s' :=
    (Rolled.of_marks ha.steady hm (hsub.trans (Finset.erase_subset _ _)) hold hf.root).steady (by omega)
      (hst.mono (hsub.trans (Finset.erase_subset _ _))) hold
  have hkept := hc.kept_parents h ha
  have hpages : Pages n₀ (s.proc i).pagetable s s' :=
    (hc.pages_parent h hi hu ha).trans (hk.pages hn.old) hkept.swaps hk.swaps
  have hspring : Offspring i j s s' := by
    refine ⟨hf.lt, hf.unused, hused, fun v hv hpres => ?_, fun hcalm v hv hV hU => ?_⟩
    · rw [hroot, hoff.pte hn.new] at hpres ⊢
      rcases hinh v (hv.trans UPAGES_lt) with he | ⟨hr, hi'⟩
      · rw [he] at hpres
        exact absurd (hn.bound v hv hpres) (Nat.not_lt_zero v)
      · refine ⟨hr.2, ?_⟩
        rwa [ha.steady.valid _ hold v (hv.trans UPAGES_lt) hi'.parent_valid] at hi'
    · have hsame := ha.steady.calm (by omega) _ hold v ((hv.trans_le (npages_le hsize)).trans UPAGES_lt)
      rw [hroot, hoff.pte hn.new]
      exact hcomp (by omega) v (Nat.zero_le v) hv (by rwa [hsame]) (by rwa [hsame])
  refine ⟨⟨htab, fun k hk' => ?_⟩, hkept.trans (hk.mono ?_ hsubH), fun k hku => ?_, hpages, fun hZ => ?_,
    hrolled, .inr ⟨hpid, j, ?_, hspring⟩⟩
  · by_cases hkj : k = j
    · have hstill := hk.still _ hn.new
      rw [hkj, Slot, if_neg hused, hself]
      refine ⟨hjslot.root, hjslot.frame, hsize, hstill.bound hb, hstill.capped ?_⟩
      have hcap := hjslot.capped
      rwa [Capped, ← hc.top _ UPAGES_lt (Nat.le_refl _)] at hcap
    · have hslot := hc.slotsBut hi hu ha k hk' hkj
      rw [hother k hkj]
      rw [hc.proc] at hslot
      exact hslot.still fun hr => hk.still _ (mem_addrs.mpr ⟨hr, k, hk', rfl⟩)
  · exact (Finset.erase_subset _ _).trans (hsub.trans (Finset.erase_subset _ _))
  · have hkj : k ≠ j := by
      rintro rfl
      exact hku hf.unused
    rw [hother k hkj, ha.alive k hku]
  · rw [show roots s'.proc = roots t.proc from addrs_congr hroot]
    exact (hslots hZ).sheds (.of_off hoff (by rw [hs]))
  · refine ⟨hf.lt, hf.unused, fun k hkj => (hother k hkj).trans (hf.others k hkj), by rw [hself], by rw [hself],
      by rw [hself], fun h0 h1 => ?_⟩
    exact hspring.twin hrolled hpages (npages_le hsize) h0 h1

end forking

theorem kfork_ends (h : Good n₀ L s C) (hz : Z → Slots (roots s.proc) s)
    (hq : n₀ ≤ s.stats.swap_outs ∨ Firm s (s.proc i).pagetable) (hi : i < NPROC) (hu : (s.proc i).state ≠ .UNUSED) :
    Ends (kfork i) s (fun res t => Spawns n₀ L Z C i res s t) (Stray Z) := by
  have holdT := h.root_mem hi hu
  have hsize := ((h.slots i hi).used hu).size
  refine ends_bind.mpr ((allocproc_ends h hz).mono fun slot t ha => ?_)
  cases slot with
  | none =>
    exact ⟨ha.good, ha.kept.mono (Finset.erase_subset _ _) (Finset.Subset.refl _), ha.alive, ha.kept.pages holdT, ha.slots,
      .of_steady ha.steady holdT, .inl ⟨rfl, ha.empty rfl⟩⟩
  | some j =>
    have hf := ha.fresh j rfl
    have hn := ha.newborn hi hu
    simp only [ends_bind, getProc, ends_gets, uvmcopy_with, hn.parent]
    have hzero : 0 / PGSIZE = 0 := rfl
    have hnpages : 0 / PGSIZE + npages (s.proc i).sz ≤ UPAGES := by
      rw [hzero, Nat.zero_add]
      exact npages_le hsize
    refine (uvmcopy_loop_ends (npages (s.proc i).sz) (ha.good.sane ha.slots)
      (hq.imp (fun hb => hb.trans ha.kept.swaps) (ha.kept.firm _ holdT)) hn.old hn.new hn.ne (by decide) hnpages
      hn.bound).mono ?_
    rintro res u ⟨hc, hm, hres⟩
    rw [hzero, Nat.zero_add] at hm hres
    have hslots : Z → Slots (roots t.proc) u := fun hZ => hc.slots (ha.slots hZ)
    have hup : u.proc = t.proc := hc.proc
    refine ends_ite.mpr ⟨fun hneg => ?_, fun hpos => ?_⟩
    · have hb := (hres.resolve_right fun hz => by rw [hz.1] at hneg; exact absurd hneg (by decide)).2
      rw [ends_bind]
      refine (freeproc_ends (ha.good.toTable.of_inv hc.inv hup) (hc.slotsBut hi hu ha) (by rwa [hup]) hf.lt
        fun _ => ?_).mono fun _ s' hfree => hfree.spawns h hi hu ha hc hm hslots
      rw [hup, hf.size]
      exact ⟨Nat.zero_le _, hb⟩
    · obtain ⟨-, hb, hinh, hcomp⟩ := hres.resolve_left fun hz => by rw [hz.1] at hpos; exact hpos (by decide)
      simp only [ends_bind, ends_modifyProc, memmove, store64, ends_update, ends_pure, setSlot_self,
        setSlot_setSlot]
      exact hc.spawns h hi hu ha hm hb hslots (hinh (.inr hn.spared)) hcomp (by omega) rfl

/-! ## One process at work -/

theorem Good.set_slot {H' : Finset Nat} {q : Proc} (h : Good n₀ L s C) (hi : i < NPROC)
    (hinv : Inv n₀ L t (roots s.proc) (held s.proc C))
    (hk : Kept n₀ ((roots s.proc).erase (s.proc i).pagetable) H' s t) (ha : Alike t s')
    (hp : s'.proc = setSlot s.proc i q) (hr : q.pagetable = (s.proc i).pagetable)
    (hf : q.trapframe = (s.proc i).trapframe) (hslot : Slot t.mem q) : Good n₀ L s' C := by
  have hrt : ∀ k, (s'.proc k).pagetable = (s.proc k).pagetable := by
    rw [hp]
    exact field_setSlot (f := (·.pagetable)) hr
  have hft : ∀ k, (s'.proc k).trapframe = (s.proc k).trapframe := by
    rw [hp]
    exact field_setSlot (f := (·.trapframe)) hf
  have hframes : frames s'.proc = frames s.proc := addrs_congr hft
  refine ⟨⟨?_, h.ownRoot.congr hrt, h.ownFrame.congr hft, ?_⟩, ?_⟩
  · rw [held, hframes, show roots s'.proc = roots s.proc from addrs_congr hrt]
    exact hinv.alike ha
  · rw [hframes]
    exact h.apart
  · intro k hk'
    by_cases hki : k = i
    · rw [hki, hp, setSlot_self, ha.mem]
      exact hslot
    · rw [hp, setSlot_of_ne hki, ha.mem]
      exact (h.slots k hk').still fun h0 => hk.still _ (root_mem_erase h.ownRoot hk' hi hki h0)

omit [Image] in
theorem Slot.congr {m : Mem} {q q' : Proc} (h : Slot m q) (hr : q'.pagetable = q.pagetable)
    (hf : q'.trapframe = q.trapframe) (hz : q'.sz = q.sz)
    (hu : q'.state = .UNUSED ↔ q.state = .UNUSED) : Slot m q' := by
  unfold Slot at *
  by_cases hun : q.state = .UNUSED
  · rw [if_pos hun] at h
    rw [if_pos (hu.mpr hun), hr, hf, hz]
    exact h
  · rw [if_neg hun] at h
    rw [if_neg fun hq => hun (hu.mp hq)]
    exact ⟨by rw [hr]; exact h.root, by rw [hf]; exact h.frame, by rw [hz]; exact h.size,
      by rw [hr, hz]; exact h.bound, by rw [hr]; exact h.capped⟩

theorem Good.set_fields {q : Proc} (h : Good n₀ L s C) (hi : i < NPROC) (ha : Alike s s')
    (hp : s'.proc = setSlot s.proc i q) (hr : q.pagetable = (s.proc i).pagetable)
    (hf : q.trapframe = (s.proc i).trapframe) (hz : q.sz = (s.proc i).sz)
    (hu : q.state = .UNUSED ↔ (s.proc i).state = .UNUSED) : Good n₀ L s' C := by
  refine h.set_slot hi h.inv (Kept.of_mem rfl rfl : Kept n₀ _ ∅ s s) ha hp hr hf ?_
  exact (h.slots i hi).congr hr hf hz hu

def Proc.live (p : Proc) : Prop := p.state ≠ .UNUSED ∧ p.state ≠ .ZOMBIE

instance (p : Proc) : Decidable p.live := inferInstanceAs (Decidable (_ ∧ _))

def others (i : Nat) (procs : Nat → Proc) : Finset Nat :=
  ((Finset.range NPROC).filter fun k => k ≠ i ∧ (procs k).live).image fun k => (procs k).pagetable

omit [Image] in
theorem mem_others {procs : Nat → Proc} : r ∈ others i procs ↔
    ∃ k < NPROC, k ≠ i ∧ (procs k).live ∧ (procs k).pagetable = r := by
  simp [others, and_assoc]

/-- What a call of process `i` does, seen from outside. -/
structure Acts (n₀ : Nat) (L : Prop) (C : Finset Nat) (i : Nat) (s s' : Kernel) : Prop where
  good : Good n₀ L s' C
  kept : Kept n₀ (others i s.proc) ∅ s s'
  same : ∀ k < NPROC, k ≠ i → (s.proc k).live → (s'.proc k).pagetable = (s.proc k).pagetable ∧
    (s'.proc k).sz = (s.proc k).sz ∧ (s'.proc k).state = (s.proc k).state
  used : (s.proc i).state ≠ .UNUSED → (s'.proc i).state ≠ .UNUSED

theorem Good.others_sub (h : Good n₀ L s C) (hi : i < NPROC) :
    others i s.proc ⊆ (roots s.proc).erase (s.proc i).pagetable := by
  intro r hr
  obtain ⟨k, hk, hki, hlive, rfl⟩ := mem_others.mp hr
  exact root_mem_erase h.ownRoot hk hi hki ((h.slots k hk).used hlive.1).root

omit [Image] in
theorem others_eq {procs procs' : Nat → Proc} (h : ∀ k < NPROC, k ≠ i → (procs k).live →
    (procs' k).pagetable = (procs k).pagetable ∧ (procs' k).sz = (procs k).sz ∧
      (procs' k).state = (procs k).state) : others i procs ⊆ others i procs' := by
  intro r hr
  obtain ⟨k, hk, hki, hlive, rfl⟩ := mem_others.mp hr
  obtain ⟨h1, -, h2⟩ := h k hk hki hlive
  refine mem_others.mpr ⟨k, hk, hki, ?_, h1⟩
  rw [Proc.live, h2]
  exact hlive

namespace Acts

theorem trans (h : Acts n₀ L C i s t) (h' : Acts n₀ L C i t s') : Acts n₀ L C i s s' where
  good := h'.good
  kept := h.kept.trans (h'.kept.mono (others_eq h.same) (Finset.Subset.refl _))
  same := by
    intro k hk hki hlive
    obtain ⟨h1, h2, h3⟩ := h.same k hk hki hlive
    obtain ⟨h1', h2', h3'⟩ := h'.same k hk hki (by rw [Proc.live, h3]; exact hlive)
    exact ⟨h1'.trans h1, h2'.trans h2, h3'.trans h3⟩
  used := fun hu => h'.used (h.used hu)

theorem refl (h : Good n₀ L s C) : Acts n₀ L C i s s :=
  ⟨h, Kept.of_mem rfl rfl, fun _ _ _ _ => ⟨rfl, rfl, rfl⟩, id⟩

theorem set_slot {H' : Finset Nat} {q : Proc} (h : Good n₀ L s C) (hi : i < NPROC)
    (hinv : Inv n₀ L t (roots s.proc) (held s.proc C))
    (hk : Kept n₀ ((roots s.proc).erase (s.proc i).pagetable) H' s t) (ha : Alike t s')
    (hp : s'.proc = setSlot s.proc i q) (hr : q.pagetable = (s.proc i).pagetable)
    (hf : q.trapframe = (s.proc i).trapframe) (hslot : Slot t.mem q) : Acts n₀ L C i s s' where
  good := h.set_slot hi hinv hk ha hp hr hf hslot
  kept := (hk.mono (h.others_sub hi) (Finset.empty_subset _)).trans (Kept.of_mem ha.mem ha.swaps)
  same := by
    intro k _ hki _
    rw [hp, setSlot_of_ne hki]
    exact ⟨rfl, rfl, rfl⟩
  used := by
    rw [hp, setSlot_self]
    intro hu hq
    rw [Slot, if_pos hq, hr] at hslot
    exact ((h.slots i hi).used hu).root hslot.1

theorem of_kept {H' : Finset Nat} (h : Good n₀ L s C) (hi : i < NPROC)
    (hinv : Inv n₀ L s' (roots s.proc) (held s.proc C))
    (hk : Kept n₀ ((roots s.proc).erase (s.proc i).pagetable) H' s s') (hp : s'.proc = s.proc)
    (hslot : Slot s'.mem (s.proc i)) : Acts n₀ L C i s s' :=
  set_slot h hi hinv hk ⟨rfl, rfl, rfl, rfl⟩ (by rw [hp, setSlot_eq]) rfl rfl hslot

theorem set_fields {q : Proc} (h : Good n₀ L s C) (hi : i < NPROC) (ha : Alike s s')
    (hp : s'.proc = setSlot s.proc i q) (hr : q.pagetable = (s.proc i).pagetable)
    (hf : q.trapframe = (s.proc i).trapframe) (hz : q.sz = (s.proc i).sz)
    (hu : q.state = .UNUSED ↔ (s.proc i).state = .UNUSED) : Acts n₀ L C i s s' where
  good := h.set_fields hi ha hp hr hf hz hu
  kept := Kept.of_mem ha.mem ha.swaps
  same := by
    intro k _ hki _
    rw [hp, setSlot_of_ne hki]
    exact ⟨rfl, rfl, rfl⟩
  used := by
    rw [hp, setSlot_self]
    exact fun hs hq => hs (hu.mp hq)

theorem of_evolve {H' : Finset Nat} (h : Good n₀ L s C) (hi : i < NPROC)
    (hinv : Inv n₀ L s' (roots s.proc) (held s.proc C)) (hev : Evolve n₀ (roots s.proc) H' s s') :
    Acts n₀ L C i s s' :=
  of_kept h hi hinv (hev.kept.mono (Finset.erase_subset _ _) (Finset.Subset.refl _)) hev.proc
    ((h.slots i hi).still fun h0 => hev.still (mem_addrs.mpr ⟨h0, i, hi, rfl⟩))

theorem of_touches (h : Good n₀ L s C) (hi : i < NPROC) (hu : (s.proc i).state ≠ .UNUSED)
    (ht : Touches n₀ L (roots s.proc) (held s.proc C) (s.proc i).pagetable v s s') (hv : v < UPAGES)
    (hn : v < npages (s.proc i).sz ∨ present (pte s.mem (s.proc i).pagetable v) = true) :
    Acts n₀ L C i s s' := by
  have hs := (h.slots i hi).used hu
  have hr := h.root_mem hi hu
  refine of_kept h hi ht.inv ht.evolve.kept ht.proc ?_
  rw [Slot, if_neg hu]
  refine ⟨hs.root, hs.frame, hs.size, ht.bound hr (hn.elim id (hs.bound v hv)) hs.bound, ?_⟩
  exact (ht.grown hr hv).capped hs.capped

theorem of_copied (h : Good n₀ L s C) (hi : i < NPROC) (hu : (s.proc i).state ≠ .UNUSED)
    (hc : Copied n₀ L (roots s.proc) (held s.proc C) (s.proc i).pagetable (s.proc i).pagetable
      (npages (s.proc i).sz) s s') : Acts n₀ L C i s s' := by
  have hs := (h.slots i hi).used hu
  refine of_kept h hi hc.inv (hc.evolve.kept.mono ?_ (Finset.Subset.refl _)) hc.evolve.proc ?_
  · rw [Finset.erase_idem]
  · rw [Slot, if_neg hu]
    refine ⟨hs.root, hs.frame, hs.size, hc.bound hs.bound, ?_⟩
    rw [Capped, hc.top _ UPAGES_lt (Nat.le_refl _)]
    exact hs.capped

theorem set_size {H' : Finset Nat} {n : Nat} (h : Good n₀ L s C) (hi : i < NPROC)
    (hu : (s.proc i).state ≠ .UNUSED) (hinv : Inv n₀ L t (roots s.proc) (held s.proc C))
    (hk : Kept n₀ ((roots s.proc).erase (s.proc i).pagetable) H' s t) (hp : t.proc = s.proc)
    (hn : n ≤ TRAPFRAME) (hb : Bound t.mem (s.proc i).pagetable (npages n))
    (hcap : Capped t.mem (s.proc i).pagetable)
    (hs : s' = { t with proc := setSlot t.proc i { t.proc i with sz := n } }) : Acts n₀ L C i s s' := by
  have hused := (h.slots i hi).used hu
  refine set_slot h hi hinv hk (by rw [hs]; exact ⟨rfl, rfl, rfl, rfl⟩)
    (q := { s.proc i with sz := n }) (by rw [hs, hp]) rfl rfl ?_
  rw [Slot, if_neg hu]
  exact ⟨hused.root, hused.frame, hn, hb, hcap⟩

end Acts

omit [Image] in
theorem Slots.roots_eq (h : Slots (roots s.proc) s) (hm : t.mem = s.mem) (hsw : t.swap = s.swap)
    (hp : ∀ k, (t.proc k).pagetable = (s.proc k).pagetable) : Slots (roots t.proc) t := by
  rw [show roots t.proc = roots s.proc from addrs_congr hp]
  refine h.sheds (.of_off ?_ hsw)
  rw [hm]
  exact .refl _

/-- What a call of process `i` does to the swap blocks too, where `Z` holds. -/
structure Does (n₀ : Nat) (L Z : Prop) (C : Finset Nat) (i : Nat) (s s' : Kernel) : Prop
    extends Acts n₀ L C i s s' where
  swapped : Z → Slots (roots s'.proc) s'

namespace Does

theorem trans (h : Does n₀ L Z C i s t) (h' : Does n₀ L Z C i t s') : Does n₀ L Z C i s s' :=
  ⟨h.toActs.trans h'.toActs, h'.swapped⟩

variable (h : Good n₀ L s C) (hz : Z → Slots (roots s.proc) s)
include h

theorem of_evolve {H' : Finset Nat} (hi : i < NPROC) (hs : Sane n₀ L Z (roots s.proc) (held s.proc C) t)
    (hev : Evolve n₀ (roots s.proc) H' s t) : Does n₀ L Z C i s t :=
  ⟨.of_evolve h hi hs.inv hev, by rw [hev.proc]; exact hs.slots⟩

theorem set_size {H' : Finset Nat} {n : Nat} (hi : i < NPROC) (hu : (s.proc i).state ≠ .UNUSED)
    (hinv : Inv n₀ L t (roots s.proc) (held s.proc C))
    (hk : Kept n₀ ((roots s.proc).erase (s.proc i).pagetable) H' s t) (hp : t.proc = s.proc)
    (hn : n ≤ TRAPFRAME) (hb : Bound t.mem (s.proc i).pagetable (npages n))
    (hcap : Capped t.mem (s.proc i).pagetable) (hslots : Z → Slots (roots s.proc) t) :
    Does n₀ L Z C i s { t with proc := setSlot t.proc i { t.proc i with sz := n } } := by
  refine ⟨.set_size h hi hu hinv hk hp hn hb hcap rfl, fun hZ => Slots.roots_eq (s := t) ?_ rfl rfl
    (field_setSlot (f := (·.pagetable)) rfl)⟩
  rw [hp]
  exact hslots hZ

include hz

theorem refl : Does n₀ L Z C i s s := ⟨.refl h, hz⟩

theorem of_touches (hi : i < NPROC) (hu : (s.proc i).state ≠ .UNUSED)
    (ht : Touches n₀ L (roots s.proc) (held s.proc C) (s.proc i).pagetable v s s') (hv : v < UPAGES)
    (hn : v < npages (s.proc i).sz ∨ present (pte s.mem (s.proc i).pagetable v) = true) : Does n₀ L Z C i s s' :=
  ⟨.of_touches h hi hu ht hv hn, by rw [ht.proc]; exact fun hZ => ht.slots (hz hZ)⟩

theorem of_copied (hi : i < NPROC) (hu : (s.proc i).state ≠ .UNUSED)
    (hc : Copied n₀ L (roots s.proc) (held s.proc C) (s.proc i).pagetable (s.proc i).pagetable
      (npages (s.proc i).sz) s s') : Does n₀ L Z C i s s' :=
  ⟨.of_copied h hi hu hc, by rw [hc.evolve.proc]; exact fun hZ => hc.slots (hz hZ)⟩

end Does

/-! ## Faults and copies -/

section faults
variable {E : String → Prop} (h : Good n₀ L s C) (hz : Z → Slots (roots s.proc) s) (hi : i < NPROC)
  (hu : (s.proc i).state ≠ .UNUSED) (hE : ∀ msg, Stray Z msg → E msg)
include h hz hi hu

theorem Good.copying : Copying n₀ L Z (roots s.proc) (held s.proc C) i (s.proc i).pagetable (s.proc i).pagetable
    (npages (s.proc i).sz) s :=
  ⟨h.sane hz, hi, rfl, h.root_mem hi hu, h.root_mem hi hu, Nat.le_refl _, fun hne => absurd rfl hne⟩

theorem vmfault_does : Ends (vmfault i (s.proc i).pagetable va) s (fun _ t => Does n₀ L Z C i s t) E := by
  have hs := (h.slots i hi).used hu
  refine (vmfault_ends (h.sane hz) hi rfl (h.root_mem hi hu) fun hne => absurd rfl hne).mono fun res t hres => ?_
  rcases hres with ⟨-, hst, hg⟩ | ⟨-, hnp, -, ht, -⟩
  · exact .of_evolve h hi hst hg.evolve
  · exact .of_touches h hz hi hu ht (hnp.trans_le (npages_le hs.size)) (.inl hnp)

theorem cowfault_does (hw : MAXVA ≤ va → E "walk") (hL : L → CowShared s (s.proc i).pagetable (va / PGSIZE)) :
    Ends (cowfault (s.proc i).pagetable va) s (fun _ t => Does n₀ L Z C i s t) E := by
  refine (cowfault_ends (h.sane hz) (h.root_mem hi hu) hw hL).mono fun res t hres => ?_
  rcases hres with ⟨-, hs, hun⟩ | ⟨-, hv, hV, -, ht, -⟩
  · exact .of_evolve h hi hs hun.evolve
  · exact .of_touches h hz hi hu ht hv (.inr (by simp [present, hV]))

theorem swapout_does (hw : MAXVA ≤ va → E "walk") :
    Ends (swapout (s.proc i).pagetable va) s (fun _ t => Does n₀ L Z C i s t) E := by
  by_cases hva : va < MAXVA
  · refine (swapout_safe h.inv (h.root_mem hi hu) hva).ends fun res t hrun => ?_
    rcases swapout_spec h.inv (h.root_mem hi hu) hrun with ⟨-, rfl⟩ | ⟨-, hev, hinv⟩
    · exact .refl h hz
    · have hev' : Evolve n₀ (roots s.proc) ∅ s t := hev.evolve fun r hr v hv P hP => hinv.page_leaf hr hv hP
      refine ⟨.of_evolve h hi hinv hev', ?_⟩
      rw [hev'.proc]
      exact fun hZ => hev.slots (hz hZ)
  · exact (ends_of_error (walk_down_error hva)).mpr (hw (not_lt.mp hva))

theorem copyin_does {srcva len : Nat} :
    Ends (copyin i (s.proc i).pagetable srcva len) s (fun _ t => Does n₀ L Z C i s t) E :=
  (copyin_loop_ends (h.copying hz hi hu) fun hne => absurd rfl hne).mono fun _ _ => .of_copied h hz hi hu

omit hu in
theorem setkilled_does : Ends (setkilled i) s (fun _ t => Does n₀ L Z C i s t) E := by
  rw [setkilled, ends_modifyProc]
  exact ⟨.set_fields h hi ⟨rfl, rfl, rfl, rfl⟩ rfl rfl rfl rfl Iff.rfl,
    fun hZ => (hz hZ).roots_eq rfl rfl (field_setSlot (f := (·.pagetable)) rfl)⟩

/-! ## Exit -/

theorem kexit_does {status : Int} : Ends (kexit i status) s (fun _ t => Does n₀ L Z C i s t)
    (fun msg => msg = "init exiting") := by
  simp only [kexit, ends_bind, ends_gets]
  refine ends_ite.mpr ⟨fun _ => rfl, fun _ => ?_⟩
  simp only [ends_bind]
  refine Safe.ends trivial fun _ t hrep => Safe.ends trivial fun _ s' hmod => ?_
  simp only [reparent, bind_ok, gets_ok, update_ok] at hrep
  obtain ⟨_, s, ⟨rfl, rfl⟩, ht⟩ := hrep
  have hs := modifyProc_ok.mp hmod
  -- The parent of a slot changes, and in slot `i` the state.
  have hfield : ∀ k, (s'.proc k).pagetable = (s.proc k).pagetable ∧
      (s'.proc k).trapframe = (s.proc k).trapframe ∧ (s'.proc k).sz = (s.proc k).sz ∧
      (s'.proc k).state = if k = i then .ZOMBIE else (s.proc k).state := by
    intro k
    rw [hs, ht]
    by_cases hki : k = i
    · subst hki
      simp only [setSlot_self, if_true]
      split_ifs <;> exact ⟨rfl, rfl, rfl, trivial⟩
    · simp only [setSlot_of_ne hki, if_neg hki]
      split_ifs <;> exact ⟨rfl, rfl, rfl, rfl⟩
  have ha : Alike s s' := by
    rw [hs, ht]
    exact ⟨rfl, rfl, rfl, rfl⟩
  refine ⟨⟨⟨h.toTable.congr ha (fun k => (hfield k).1) fun k => (hfield k).2.1, ?_⟩,
    Kept.of_mem ha.mem ha.swaps, ?_, ?_⟩, fun hZ => (hz hZ).roots_eq ha.mem (by rw [hs, ht]) fun k => (hfield k).1⟩
  · intro k hk
    obtain ⟨h1, h2, h3, h4⟩ := hfield k
    rw [ha.mem]
    refine (h.slots k hk).congr h1 h2 h3 ?_
    rw [h4]
    by_cases hki : k = i
    · rw [if_pos hki, hki]
      exact iff_of_false (by simp) hu
    · rw [if_neg hki]
  · intro k _ hki _
    obtain ⟨h1, -, h3, h4⟩ := hfield k
    rw [if_neg hki] at h4
    exact ⟨h1, h3, h4⟩
  · rw [(hfield i).2.2.2, if_pos rfl]
    simp

include hE

theorem swapin_does (hw : MAXVA ≤ va → E "walk") :
    Ends (swapin (s.proc i).pagetable va) s (fun _ t => Does n₀ L Z C i s t) E := by
  refine (swapin_ends (h.sane hz) (h.root_mem hi hu) hE hw).mono fun res t hres => ?_
  rcases hres with ⟨-, hs, hun⟩ | ⟨hv, hS, ht⟩
  · exact .of_evolve h hi hs hun.evolve
  · exact .of_touches h hz hi hu ht hv (.inr (by simp [present, hS]))

/-! ## Size, wait, fork -/

theorem growproc_does {n : Int} : Ends (growproc i n) s (fun _ t => Does n₀ L Z C i s t) E := by
  have hs := (h.slots i hi).used hu
  have hr := h.root_mem hi hu
  simp only [growproc, getProc, ends_bind, ends_gets]
  refine ends_ite.mpr ⟨fun hpos => ends_ite.mpr ⟨fun _ => .refl h hz, fun hle => ?_⟩, fun hneg =>
    ends_ite.mpr ⟨fun hn => ?_, fun _ => .refl h hz⟩⟩
  · rw [ends_bind]
    refine ((uvmalloc_ends (h.sane hz) hr small_W (by decide) (by decide) hs.size hs.bound (.inl (by omega))).weaken
      hE).mono fun sz t hal => ?_
    have hg := hal.grown
    have hcap := hg.capped hs.capped
    refine ends_ite.mpr ⟨fun h0 => ⟨.of_kept h hi hg.inv hg.evolve.kept hg.evolve.proc ?_, ?_⟩, fun h0 => ?_⟩
    · rw [Slot, if_neg hu]
      exact ⟨hs.root, hs.frame, hs.size, hal.failed h0, hcap⟩
    · rw [hg.evolve.proc]
      exact hal.sane.slots
    · obtain ⟨-, hle, hb, -⟩ := hal.size h0
      rw [ends_bind, ends_modifyProc]
      exact .set_size h hi hu hg.inv hg.evolve.kept hg.evolve.proc hle hb hcap hal.sane.slots
  · rw [ends_bind]
    refine ((uvmdealloc_ends h.inv hz hr hs.size).weaken hE).with_run.mono ?_
    rintro sz t ⟨⟨_, hun⟩, hde⟩
    obtain ⟨hinv, hev, hstill, hb, hmin⟩ := uvmdealloc_spec h.inv hr hs.size hs.bound hde
    have hle : sz ≤ TRAPFRAME := by
      rw [hmin]
      exact (Nat.min_le_left _ _).trans hs.size
    rw [ends_bind, ends_modifyProc]
    exact .set_size h hi hu hinv hev.kept hev.proc hle hb (hstill.capped hs.capped) fun hZ => hun.slots (hz hZ)

theorem sys_sbrk_does {n ty : Int} : Ends (sys_sbrk i n ty) s (fun _ t => Does n₀ L Z C i s t) E := by
  have hs := (h.slots i hi).used hu
  simp only [sys_sbrk, getProc, ends_bind, ends_gets]
  refine ends_ite.mpr ⟨fun _ => ?_, fun _ => ends_ite.mpr ⟨fun _ => .refl h hz, fun _ =>
    ends_ite.mpr ⟨fun _ => .refl h hz, fun hle => ?_⟩⟩⟩
  · rw [ends_bind]
    exact (growproc_does h hz hi hu hE).mono fun _ t hpost => ends_ite.mpr ⟨fun _ => hpost, fun _ => hpost⟩
  · -- Lazy growth: the size changes and no page.
    rw [ends_bind, ends_modifyProc]
    exact .set_size h hi hu h.inv (Kept.of_mem rfl rfl : Kept n₀ _ ∅ _ _) rfl (by omega)
      (hs.bound.mono (npages_mono (by omega))) hs.capped hz

omit hi hu in
theorem freeproc_does (hj : j < NPROC) (hzombie : (s.proc j).state = .ZOMBIE) (hij : i ≠ j) :
    Ends (freeproc j) s (fun _ t => Does n₀ L Z C i s t) E := by
  have hs := (h.slots j hj).used (by rw [hzombie]; simp)
  refine ((freeproc_ends h.toTable (fun k hk _ => h.slots k hk) hz hj fun _ => ⟨hs.size, hs.bound⟩).weaken hE).mono ?_
  rintro _ t ⟨hgood, hk, _, hslots, hp⟩
  have hne : ∀ k, (s.proc k).live → k ≠ j := by
    rintro k hlive rfl
    exact hlive.2 hzombie
  refine ⟨⟨hgood, hk.mono ?_ (Finset.empty_subset _), ?_, ?_⟩, fun hZ => hslots (hz hZ)⟩
  · intro r hr
    obtain ⟨k, hk, -, hlive, rfl⟩ := mem_others.mp hr
    exact root_mem_erase h.ownRoot hk hj (hne k hlive) ((h.slots k hk).used hlive.1).root
  · intro k _ _ hlive
    rw [hp, setSlot_of_ne (hne k hlive)]
    exact ⟨rfl, rfl, rfl⟩
  · rw [hp, setSlot_of_ne hij]
    exact id

theorem kwait_does {addr : Nat} (hlive : (s.proc i).state ≠ .ZOMBIE)
    (hL : L → addr ≠ 0 → ∀ v < 512 ^ 3, addr / PGSIZE ≤ v → v * PGSIZE < addr + 4 →
      CowShared s (s.proc i).pagetable v) :
    Ends (kwait i addr) s (fun _ t => Does n₀ L Z C i s t) E := by
  simp only [kwait, ends_bind, ends_gets]
  split
  · rename_i j hfind
    have hj : j < NPROC := List.mem_range.mp (List.mem_of_find?_eq_some hfind)
    have hzombie := List.find?_some hfind
    simp only [decide_eq_true_eq] at hzombie
    have hij : i ≠ j := by
      rintro rfl
      exact hlive hzombie.2
    simp only [getProc, ends_bind, ends_gets]
    have hrest : ∀ (res : Int) (pid : Nat) (t : Kernel), Does n₀ L Z C i s t → t.proc = s.proc →
        Ends (if res < 0 then pure (some (-1)) else do
          freeproc j
          pure (some (pid : Int)) : K (Option Int)) t (fun _ t => Does n₀ L Z C i s t) E := by
      intro res pid t ht hp
      refine ends_ite.mpr ⟨fun _ => ht, fun _ => ?_⟩
      rw [ends_bind]
      exact (freeproc_does ht.good ht.swapped hE hj (by rw [hp]; exact hzombie.2) hij).mono fun _ _ hd => ht.trans hd
    refine ends_ite.mpr ⟨fun ha => ?_, fun _ => hrest 0 _ s (.refl h hz) rfl⟩
    rw [ends_bind]
    exact (copyout_loop_ends (h.copying hz hi hu) (fun hne => absurd rfl hne) fun hl _ => by
      simpa [int_bytes] using hL hl ha).mono fun res t hc =>
        hrest res _ t (.of_copied h hz hi hu hc) (hc.only rfl).proc
  · simp only [getProc, ends_bind, ends_gets]
    exact ends_ite.mpr ⟨fun _ => .refl h hz, fun _ => .refl h hz⟩

theorem kfork_does (hq : n₀ ≤ s.stats.swap_outs ∨ Firm s (s.proc i).pagetable) :
    Ends (kfork i) s (fun _ t => Does n₀ L Z C i s t) E := by
  refine ((kfork_ends h hz hq hi hu).weaken hE).mono fun res t hf => ?_
  refine ⟨⟨hf.good, hf.kept.mono (h.others_sub hi) (Finset.empty_subset _), ?_, ?_⟩, hf.slots⟩
  · intro k _ _ hlive
    rw [hf.alive k hlive.1]
    exact ⟨rfl, rfl, rfl⟩
  · rw [hf.alive i hu]
    exact id

end faults

end Xv6
