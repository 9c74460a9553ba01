import Xv6.Kexec
import Xv6.System

/-!
# Runs of the whole system

Every step keeps `Good`, so it holds after any number of steps of any processes.
-/

open Xv6.Lib Op Radix

namespace Xv6

variable [Image] {n₀ : Nat} {L Z : Prop} {E : String → Prop} {s s' t : Kernel} {C : Finset Nat} {r v va p P i : Nat}

/-! ## Traps -/

theorem Does.of_alike (h : Good n₀ L s C) (hz : Z → Slots (roots s.proc) s) (ha : Alike s s') (hp : s'.proc = s.proc)
    (hsw : s'.swap = s.swap) : Does n₀ L Z C i s s' := by
  refine ⟨⟨⟨h.toTable.congr ha (fun _ => by rw [hp]) fun _ => by rw [hp], ?_⟩,
    Kept.of_mem ha.mem ha.swaps, fun _ _ _ _ => by rw [hp]; exact ⟨rfl, rfl, rfl⟩, by rw [hp]; exact id⟩,
    fun hZ => (hz hZ).roots_eq ha.mem hsw fun _ => by rw [hp]⟩
  rw [hp, ha.mem]
  exact h.slots

theorem fault_pte_run (hva : va < MAXVA) : fault_pte r va s = .ok (pte s.mem r (va / PGSIZE), s) :=
  entry_run pure hva rfl fun _ => rfl

theorem fault_pte_error (hva : MAXVA ≤ va) : fault_pte r va s = .error "walk" :=
  run_bind_error (walk0_error hva)

omit [Image] in
theorem ends_bump {f : MemStats → MemStats} {Q : Unit → Kernel → Prop} :
    Ends (bump f) s Q E ↔ Q () { s with stats := f s.stats } := Iff.rfl

theorem bump_does {f : MemStats → MemStats} (h : Good n₀ L s C) (hz : Z → Slots (roots s.proc) s)
    (hf : ∀ m, (f m).swap_outs = m.swap_outs) :
    Ends (bump f) s (fun _ t => Does n₀ L Z C i s t ∧ t = { s with stats := f s.stats }) E :=
  ends_bump.mpr ⟨.of_alike h hz ⟨rfl, rfl, rfl, hf _⟩ rfl rfl, rfl⟩

theorem Does.setkilled_if {b : Prop} [Decidable b] (hi : i < NPROC) (h : Does n₀ L Z C i s t) :
    Ends (if b then setkilled i else pure ()) t (fun _ u => Does n₀ L Z C i s u) E :=
  ends_ite.mpr ⟨fun _ => (setkilled_does h.good h.swapped hi).mono fun _ _ => h.trans, fun _ => h⟩

section trap
variable (h : Good n₀ L s C) (hz : Z → Slots (roots s.proc) s) (hi : i < NPROC) (hu : (s.proc i).state ≠ .UNUSED)
  (hE : ∀ msg, Stray Z msg → E msg)
include h hz hi hu

theorem cow_store_fault_does (hw : MAXVA ≤ va → E "walk") (hL : L → CowShared s (s.proc i).pagetable (va / PGSIZE)) :
    Ends (cow_store_fault i va) s (fun _ t => Does n₀ L Z C i s t) E := by
  rw [cow_store_fault, ends_bind, memstats_inc_cow_fault]
  refine Ends.mono (bump_does (i := i) h hz fun _ => rfl) ?_
  rintro _ t ⟨h₁, ht⟩
  simp only [getProc, ends_bind, ends_gets]
  refine (cowfault_does h₁.good h₁.swapped hi (h₁.used hu) hw (by rw [ht]; exact hL)).mono fun _ _ h₂ => ?_
  exact (h₁.trans h₂).setkilled_if hi

theorem lazy_fault_does : Ends (lazy_fault i va) s (fun _ t => Does n₀ L Z C i s t) E := by
  simp only [lazy_fault, memstats_inc_lazy_alloc, getProc, ends_bind, ends_gets]
  refine (vmfault_does h hz hi hu).mono fun res t h₁ => ?_
  refine Ends.mono (bump_does (i := i) h₁.good h₁.swapped fun _ => rfl) fun _ t' h₂ => ?_
  exact (h₁.trans h₂.1).setkilled_if hi

theorem epc_does {w : BitVec 64} {u : Unit} (hrun : store64 ((s.proc i).trapframe + TF_EPC) w s = .ok (u, s')) :
    Does n₀ L Z C i s s' ∧ s'.proc = s.proc ∧ Off (roots s.proc) s.mem s'.mem ∧
      ∀ v, CowShared s (s.proc i).pagetable v → CowShared s' (s.proc i).pagetable v := by
  rw [store64_ok] at hrun
  have hm : OnPage (s.proc i).trapframe s.mem s'.mem := by
    rw [hrun]
    exact OnPage.store (by decide)
  have hoff := h.inv.off_page (h.inv.page_held (h.frame_mem hi hu))
    (fun _ hr _ => h.inv.held_not_table (h.frame_mem hi hu) hr) hm
  obtain ⟨hinv, hev⟩ := h.inv.evolve_held (h.frame_mem hi hu) hm (by rw [hrun]) (by rw [hrun])
    (by rw [hrun]) (by rw [hrun])
  refine ⟨.of_evolve h hi ((h.sane hz).keep hinv hev.proc (.of_off hoff (by rw [hrun]))) hev, hev.proc, hoff,
    fun v hc P hP hC => ?_⟩
  rw [hoff.pte (h.root_mem hi hu)] at hP hC
  have hcount : s'.count = s.count := by rw [hrun]
  simp only [refs, hcount]
  exact hc P hP hC

theorem user_store_does {b : Byte} :
    Ends (user_store (s.proc i).pagetable va b) s (fun _ t => Does n₀ L Z C i s t) E := by
  have hr := h.root_mem hi hu
  refine ends_ite.mpr ⟨fun _ => .refl h hz, fun hva => ?_⟩
  rw [ends_bind, ends_of_run (fault_pte_run (not_le.mp hva))]
  refine ends_ite.mpr ⟨?_, fun _ => .refl h hz⟩
  rintro ⟨hV, hU, hW⟩
  have hv := h.inv.user_of_U hr (page_number_lt (not_le.mp hva)) hU
  have hlen : va % PGSIZE + [b].length ≤ PGSIZE := by
    simp only [PGSIZE, List.length_singleton]
    omega
  exact .of_copied h hz hi hu (Copied.blit h.inv hr hr ⟨hv, _, .inl rfl, points_some hV, hW⟩ hlen rfl).1

include hE

theorem swapped_fault_does (hw : MAXVA ≤ va → E "walk") :
    Ends (swapped_fault i va) s (fun _ t => Does n₀ L Z C i s t) E := by
  rw [swapped_fault, ends_bind, memstats_inc_swap_in]
  refine Ends.mono (bump_does (i := i) h hz fun _ => rfl) ?_
  rintro _ t ⟨h₁, _⟩
  simp only [getProc, ends_bind, ends_gets]
  refine (swapin_does h₁.good h₁.swapped hi (h₁.used hu) hE hw).mono fun _ _ h₂ => ?_
  exact (h₁.trans h₂).setkilled_if hi

theorem handler_does {x : Pte → K Unit} {is_load : Bool} (hw : MAXVA ≤ va → E "walk")
    (hx : ∀ e, Ends (x e) s (fun _ t => Does n₀ L Z C i s t) E) : Ends (do
      let p ← getProc i
      let e ← fault_pte p.pagetable va
      if has e PTE_SWAPPED then swapped_fault i va else x e) s (fun _ t =>
        Ends (memstats_inc_page_fault is_load) t (fun _ t => Does n₀ L Z C i s t) E) E := by
  refine Ends.mono (Q := fun _ t => Does n₀ L Z C i s t) ?_ fun _ t ht => ?_
  · rw [ends_bind, getProc, ends_gets, ends_bind]
    by_cases hva : va < MAXVA
    · rw [ends_of_run (fault_pte_run hva)]
      exact ends_ite.mpr ⟨fun _ => swapped_fault_does h hz hi hu hE hw, fun _ => hx _⟩
    · exact (ends_of_error (fault_pte_error (not_lt.mp hva))).mpr (hw (not_lt.mp hva))
  · exact (bump_does ht.good ht.swapped fun _ => by cases is_load <;> rfl).mono fun _ _ h₂ => ht.trans h₂.1

theorem store_fault_does (hw : MAXVA ≤ va → E "walk") (hL : L → CowShared s (s.proc i).pagetable (va / PGSIZE)) :
    Ends (store_fault i va) s (fun _ t => Does n₀ L Z C i s t) E :=
  ends_bind.mpr (handler_does h hz hi hu hE hw fun _ => ends_ite.mpr
    ⟨fun _ => cow_store_fault_does h hz hi hu hw hL, fun _ => lazy_fault_does h hz hi hu⟩)

theorem load_fault_does (hw : MAXVA ≤ va → E "walk") : Ends (load_fault i va) s (fun _ t => Does n₀ L Z C i s t) E :=
  ends_bind.mpr (handler_does h hz hi hu hE hw fun _ => lazy_fault_does h hz hi hu)

theorem trap_dispatch_does {scause stval sepc : Nat}
    (hL : L → scause = 15 → CowShared s (s.proc i).pagetable (stval / PGSIZE))
    (hw : scause = 15 ∨ scause = 13 → MAXVA ≤ stval → E "walk") (hx : scause = 8 → E "init exiting") :
    Ends (trap_dispatch (pure ()) i scause stval sepc) s (fun _ t => Does n₀ L Z C i s t) E := by
  rw [trap_dispatch, ends_bind, getProc, ends_gets, ends_bind]
  refine Safe.ends trivial fun _ t hepc => ?_
  obtain ⟨h₁, hp, -, hcow⟩ := epc_does h hz hi hu hepc
  have hu₁ := h₁.used hu
  refine ends_ite.mpr ⟨fun h8 => ?_, fun _ => ends_ite.mpr ⟨fun _ => h₁, fun _ => ends_ite.mpr
    ⟨fun h15 => ?_, fun _ => ends_ite.mpr ⟨fun h13 => ?_, fun _ => ?_⟩⟩⟩⟩
  · rw [ends_bind, killed, ends_gets]
    refine ends_ite.mpr ⟨fun _ => ?_, fun _ => ?_⟩
    · exact ((kexit_does h₁.good h₁.swapped hi hu₁).weaken fun _ hmsg => hmsg ▸ hx h8).mono fun _ _ => h₁.trans
    · rw [ends_bind]
      refine Safe.ends trivial fun _ t' hepc' => ?_
      rw [← hp] at hepc'
      exact h₁.trans (epc_does h₁.good h₁.swapped hi hu₁ hepc').1
  · refine (store_fault_does h₁.good h₁.swapped hi hu₁ hE (hw (.inl h15)) fun hl => ?_).mono fun _ _ => h₁.trans
    rw [hp]
    exact hcow _ (hL hl h15)
  · exact (load_fault_does h₁.good h₁.swapped hi hu₁ hE (hw (.inr h13))).mono fun _ _ => h₁.trans
  · exact (setkilled_does h₁.good h₁.swapped hi).mono fun _ _ => h₁.trans

theorem usertrap_does {scause stval sepc : Nat}
    (hL : L → scause = 15 → CowShared s (s.proc i).pagetable (stval / PGSIZE))
    (hw : scause = 15 ∨ scause = 13 → MAXVA ≤ stval → E "walk") (hx : E "init exiting") :
    Ends (usertrap (pure ()) i scause stval sepc) s (fun _ t => Does n₀ L Z C i s t) E := by
  rw [usertrap, ends_bind]
  refine (trap_dispatch_does h hz hi hu hE hL hw fun _ => hx).mono fun _ t h₁ => ?_
  rw [ends_bind, killed, ends_gets]
  refine ends_ite.mpr ⟨fun _ => ?_, fun _ => h₁⟩
  rw [ends_bind]
  exact ((kexit_does h₁.good h₁.swapped hi (h₁.used hu)).weaken fun _ hmsg => hmsg ▸ hx).mono fun _ _ => h₁.trans

end trap

/-! ## Steps -/

/-- The copy-on-write pages in the bytes from `va` on have another reference. -/
def CowSharedRange (s : Kernel) (r va len : Nat) : Prop :=
  ∀ v < 512 ^ 3, va / PGSIZE ≤ v → v * PGSIZE < va + len → CowShared s r v

/-- Every copy-on-write page that the call may replace by a copy has another reference. -/
def CowSafe (s : Kernel) (i : Nat) : Call → Prop
  | .cowfault va => CowShared s (s.proc i).pagetable (va / PGSIZE)
  | .trap scause stval _ => scause = 15 → CowShared s (s.proc i).pagetable (stval / PGSIZE)
  | .copyout dstva src => CowSharedRange s (s.proc i).pagetable dstva src.length
  | .wait addr => addr ≠ 0 → CowSharedRange s (s.proc i).pagetable addr 4
  | _ => True

/-- A fork shares only pages that no swap-out takes from the parent meanwhile. -/
def CallFirm (s : Kernel) (i : Nat) : Call → Prop
  | .fork => Firm s (s.proc i).pagetable
  | _ => True

/-- What `sys_exec` passes on: every argument comes from a page, with its NUL. -/
def Call.Fits : Call → Prop
  | .exec _ _ argv => ∀ arg ∈ argv, arg.length < PGSIZE
  | _ => True

def Action.Fits : Action → Prop
  | .call _ c => c.Fits
  | _ => True

def Abuse (Z : Prop) (msg : String) : Prop := Stray Z msg ∨ msg = "walk" ∨ msg = "init exiting"

theorem perform_does {c : Call} (h : Good n₀ L s C) (hz : Z → Slots (roots s.proc) s) (hi : i < NPROC)
    (hrunning : (s.proc i).state = .RUNNING) (hL : L → CowSafe s i c) (hq : n₀ ≤ s.stats.swap_outs ∨ CallFirm s i c)
    (hfit : Z → c.Fits) (hE : c.Fits → ∀ msg, Abuse Z msg → E msg) (hbad : ¬ c.Fits → ∀ msg, E msg) :
    Ends (perform i c) s (fun _ t => Does n₀ L Z C i s t) E := by
  have hu : (s.proc i).state ≠ .UNUSED := by
    rw [hrunning]
    simp
  have hE : ∀ msg, Abuse Z msg → E msg := fun msg hmsg => by
    by_cases hf : c.Fits
    · exact hE hf msg hmsg
    · exact hbad hf msg
  have hstray : ∀ msg, Stray Z msg → E msg := fun msg hmsg => hE msg (.inl hmsg)
  have hwalk : E "walk" := hE _ (.inr (.inl rfl))
  have hexit : E "init exiting" := hE _ (.inr (.inr rfl))
  rw [perform, ends_bind, getProc, ends_gets]
  cases c with
  | exit status => exact (kexit_does h hz hi hu).weaken fun _ hmsg => hmsg ▸ hexit
  | store va b => exact ends_bind.mpr (user_store_does h hz hi hu)
  | trap scause stval sepc =>
    exact ends_bind.mpr (usertrap_does h hz hi hu hstray hL (fun _ _ => hwalk) hexit)
  | vmfault va => exact ends_bind.mpr (vmfault_does h hz hi hu)
  | cowfault va => exact ends_bind.mpr (cowfault_does h hz hi hu (fun _ => hwalk) hL)
  | swapin va => exact ends_bind.mpr (swapin_does h hz hi hu hstray fun _ => hwalk)
  | swapout va => exact ends_bind.mpr (swapout_does h hz hi hu fun _ => hwalk)
  | copyout dstva src =>
    exact ends_bind.mpr ((copyout_loop_ends (h.copying hz hi hu) (fun hne => absurd rfl hne) fun hl _ => hL hl).mono
      fun _ _ => .of_copied h hz hi hu)
  | copyin srcva len => exact ends_bind.mpr (copyin_does h hz hi hu)
  | copyinstr srcva max =>
    refine ends_bind.mpr (copyinstr_loop_ends.mono fun _ t ht => ?_)
    rw [ht]
    exact .refl h hz
  | sbrk n t => exact ends_bind.mpr (sys_sbrk_does h hz hi hu hstray)
  | fork => exact ends_bind.mpr (kfork_does h hz hi hu hstray hq)
  | exec path file argv =>
    have hacts : Ends (kexec i path file argv) s (fun _ t => Acts n₀ L C i s t) fun _ => True :=
      kexec_acts_ends h hi hu
    rw [ends_bind]
    by_cases hf : (Call.exec path file argv).Fits
    · refine ((kexec_ends h hz hi hu fun arg harg => (hf arg harg).trans (by decide)).weaken hstray).with_run.mono ?_
      rintro _ t ⟨hpost, hrun⟩
      refine ⟨hacts.of_ok hrun, ?_⟩
      rcases hpost with ⟨-, hundone⟩ | hdone
      · rw [hundone.fixed.proc]
        exact hundone.sane.slots
      · exact hdone.slots
    · exact (hacts.weaken fun msg _ => hbad hf msg).mono fun _ t ha => ⟨ha, fun hZ => absurd (hfit hZ) hf⟩
  | wait addr =>
    exact ends_bind.mpr (kwait_does h hz hi hu hstray (by rw [hrunning]; simp) hL)

theorem perform_acts {c : Call} {u : Unit} (h : Good n₀ L s C) (hi : i < NPROC)
    (hrunning : (s.proc i).state = .RUNNING) (hL : L → CowSafe s i c)
    (hq : n₀ ≤ s.stats.swap_outs ∨ CallFirm s i c) (hrun : perform i c s = .ok (u, s')) : Acts n₀ L C i s s' :=
  ((perform_does (Z := False) (E := fun _ => True) h False.elim hi hrunning hL hq False.elim (fun _ _ _ => trivial)
    fun _ _ => trivial).of_ok hrun).toActs

/-- What every action keeps, where `C` are the pages of the other parts of the kernel after it. -/
structure Lasts (n₀ : Nat) (L Z : Prop) (C : Finset Nat) (s s' : Kernel) : Prop where
  good : Good n₀ L s' C
  swaps : s.stats.swap_outs ≤ s'.stats.swap_outs
  swapped : Z → Slots (roots s'.proc) s'

theorem Does.lasts (h : Does n₀ L Z C i s s') : Lasts n₀ L Z C s s' := ⟨h.good, h.kept.swaps, h.swapped⟩

theorem userinit_lasts (h : Good n₀ L s C) (hz : Z → Slots (roots s.proc) s) :
    Ends userinit s (fun _ t => Lasts n₀ L Z C s t) (fun msg => Stray Z msg ∨ msg = "userinit") := by
  refine ends_bind.mpr (((allocproc_ends h hz).weaken fun _ => .inl).mono fun slot t ha => ?_)
  cases slot with
  | none => exact .inr rfl
  | some j =>
    have hf := ha.fresh j rfl
    rw [ends_bind, ends_update, ends_modifyProc]
    refine ⟨ha.good.set_fields hf.lt ⟨rfl, rfl, rfl, rfl⟩ rfl rfl rfl rfl ?_, ha.kept.swaps,
      fun hZ => (ha.slots hZ).roots_eq rfl rfl (field_setSlot (f := (·.pagetable)) rfl)⟩
    rw [hf.state]
    simp

theorem Good.slots_evolve {H : Finset Nat} (h : Good n₀ L s C) (hev : Evolve n₀ (roots s.proc) H s s') :
    ∀ i < NPROC, Slot s'.mem (s'.proc i) := by
  intro i hi
  rw [hev.proc]
  exact (h.slots i hi).still fun h0 => hev.still (mem_addrs.mpr ⟨h0, i, hi, rfl⟩)

theorem kalloc_lasts {res : Option Nat} (h : Good n₀ L s C) (hz : Z → Slots (roots s.proc) s)
    (hrun : kalloc s = .ok (res, s')) : Lasts n₀ L Z (res.elim C fun p => insert p C) s s' := by
  obtain ⟨hun, -, hnone, hsome⟩ := kalloc_spec h.inv h.procsIn hrun
  have hev := hun.evolve
  refine ⟨?_, hev.swaps, by rw [hev.proc]; exact fun hZ => hun.slots (hz hZ)⟩
  have hslots := h.slots_evolve hev
  cases res with
  | none => exact ⟨h.toTable.of_inv (hnone rfl) hev.proc, hslots⟩
  | some p =>
    obtain ⟨hnot, hinv⟩ := hsome p rfl
    rw [held, Finset.mem_union, not_or] at hnot
    refine ⟨⟨?_, ?_, ?_, ?_⟩, hslots⟩
    all_goals rw [hev.proc]
    · rw [held, Option.elim_some, Finset.union_insert]
      exact hinv
    · exact h.ownRoot
    · exact h.ownFrame
    · rw [Option.elim_some, Finset.disjoint_insert_right]
      exact ⟨hnot.1, h.apart⟩

theorem kfree_lasts {u : Unit} (h : Good n₀ L s C) (hz : Z → Slots (roots s.proc) s) (hp : p ∈ C)
    (hrun : kfree p s = .ok (u, s')) : Lasts n₀ L Z (C.erase p) s s' := by
  have hmem : p ∈ held s.proc C := Finset.mem_union_right _ hp
  have hinv := h.inv
  rw [← Finset.insert_erase hmem] at hinv
  obtain ⟨hinv', hun⟩ := hinv.kfree_in_hand (Finset.notMem_erase _ _) hrun
  have hev := hun.evolve
  have herase : (held s.proc C).erase p = held s.proc (C.erase p) := by
    rw [held, Finset.erase_union_distrib,
      Finset.erase_eq_of_notMem (Finset.disjoint_right.mp h.apart hp)]
  rw [herase] at hinv'
  refine ⟨⟨⟨?_, ?_, ?_, ?_⟩, h.slots_evolve hev⟩, hev.swaps, ?_⟩
  all_goals rw [hev.proc]
  · exact hinv'
  · exact h.ownRoot
  · exact h.ownFrame
  · exact h.apart.mono_right (Finset.erase_subset _ _)
  · exact fun hZ => hun.slots (hz hZ)

theorem blit_lasts {off : Nat} {bs : List Byte} {u : Unit} (h : Good n₀ L s C) (hz : Z → Slots (roots s.proc) s)
    (hp : p ∈ C) (hlen : off + bs.length ≤ PGSIZE) (hrun : blit (p + off) bs s = .ok (u, s')) :
    Lasts n₀ L Z C s s' := by
  rw [blit_ok] at hrun
  have hmem : p ∈ held s.proc C := Finset.mem_union_right _ hp
  have hm : OnPage p s.mem s'.mem := by
    rw [hrun]
    exact OnPage.blit hlen
  obtain ⟨hinv, hev⟩ := h.inv.evolve_held hmem hm (by rw [hrun]) (by rw [hrun]) (by rw [hrun]) (by rw [hrun])
  refine ⟨⟨h.toTable.of_inv hinv hev.proc, h.slots_evolve hev⟩, hev.swaps, ?_⟩
  rw [hev.proc]
  exact fun hZ => (hz hZ).sheds (.of_off (h.inv.off_page (h.inv.page_held hmem)
    (fun _ hr _ => h.inv.held_not_table hmem hr) hm) (by rw [hrun]))

omit [Image] in
theorem lift_some {α : Type} {y y' : System} {x : K α} {client : α → Finset Nat}
    (h : y.lift x client = some y') : ∃ a, x y.kernel = .ok (a, y'.kernel) ∧ y'.client = client a := by
  unfold System.lift at h
  split at h
  · rename_i a s hx
    cases h
    exact ⟨a, hx, rfl⟩
  · cases h

def StepSafe (y : System) : Action → Prop
  | .call i c => CowSafe y.kernel i c
  | _ => True

def StepFirm (y : System) : Action → Prop
  | .call i c => CallFirm y.kernel i c
  | _ => True

theorem step_lasts {y y' : System} {a : Action} (h : Good n₀ L y.kernel y.client)
    (hz : Z → Slots (roots y.kernel.proc) y.kernel) (hfit : Z → a.Fits) (hL : L → StepSafe y a)
    (hq : n₀ ≤ y.kernel.stats.swap_outs ∨ StepFirm y a) (hstep : step y a = some y') :
    Lasts n₀ L Z y'.client y.kernel y'.kernel := by
  cases a with
  | call i c =>
    simp only [step] at hstep
    split_ifs at hstep with hg
    obtain ⟨_, hrun, hc⟩ := lift_some hstep
    rw [hc]
    exact ((perform_does (E := fun _ => True) h hz hg.1 hg.2 hL hq hfit (fun _ _ _ => trivial)
      fun _ _ => trivial).of_ok hrun).lasts
  | userinit =>
    obtain ⟨_, hrun, hc⟩ := lift_some hstep
    rw [hc]
    exact (userinit_lasts h hz).of_ok hrun
  | schedule i st =>
    simp only [step] at hstep
    split_ifs at hstep with hg
    obtain ⟨_, hrun, hc⟩ := lift_some hstep
    rw [hc]
    rw [modifyProc_ok] at hrun
    obtain ⟨hi, hold, hnew⟩ := hg
    refine ⟨h.set_fields (q := { y.kernel.proc i with state := st }) hi
      (by rw [hrun]; exact ⟨rfl, rfl, rfl, rfl⟩) (by rw [hrun]) rfl rfl rfl ?_, by rw [hrun], fun hZ => ?_⟩
    · refine iff_of_false ?_ ?_
      · rintro rfl
        simp [ProcState.scheduled] at hnew
      · intro hst
        simp [hst, ProcState.scheduled] at hold
    · exact (hz hZ).roots_eq (by rw [hrun]) (by rw [hrun]) (by rw [hrun]; exact field_setSlot (f := (·.pagetable)) rfl)
  | kill i =>
    simp only [step] at hstep
    split_ifs at hstep with hi
    obtain ⟨_, hrun, hc⟩ := lift_some hstep
    rw [hc]
    exact ((setkilled_does (E := fun _ => True) h hz hi).of_ok hrun).lasts
  | alloc =>
    obtain ⟨_, hrun, hc⟩ := lift_some hstep
    rw [hc]
    exact kalloc_lasts h hz hrun
  | write p off bs =>
    simp only [step] at hstep
    split_ifs at hstep with hg
    obtain ⟨_, hrun, hc⟩ := lift_some hstep
    rw [hc]
    exact blit_lasts h hz hg.1 hg.2 hrun
  | free p =>
    simp only [step] at hstep
    split_ifs at hstep with hp
    obtain ⟨_, hrun, hc⟩ := lift_some hstep
    rw [hc]
    exact kfree_lasts h hz hp hrun

theorem step_good {y y' : System} {a : Action} (h : Good n₀ L y.kernel y.client)
    (hL : L → StepSafe y a) (hq : n₀ ≤ y.kernel.stats.swap_outs ∨ StepFirm y a)
    (hstep : step y a = some y') :
    Good n₀ L y'.kernel y'.client ∧ y.kernel.stats.swap_outs ≤ y'.kernel.stats.swap_outs :=
  have hl := step_lasts (Z := False) h False.elim False.elim hL hq hstep
  ⟨hl.good, hl.swaps⟩

/-! ## Runs -/

def RunSafe : List Action → System → Prop
  | [], _ => True
  | a :: acts, y => StepSafe y a ∧ ∀ y', step y a = some y' → RunSafe acts y'

theorem run_good {acts : List Action} {y y' : System} (h : Good n₀ L y.kernel y.client)
    (hL : L → RunSafe acts y) (hb : n₀ ≤ y.kernel.stats.swap_outs) (hrun : run acts y = some y') :
    Good n₀ L y'.kernel y'.client := by
  induction acts generalizing y with
  | nil =>
    cases hrun
    exact h
  | cons a acts ih =>
    simp only [run, List.foldlM_cons, Option.bind_eq_bind, Option.bind_eq_some_iff] at hrun
    obtain ⟨t, hstep, hrun⟩ := hrun
    obtain ⟨hgood, hsw⟩ := step_good h (fun hl => (hL hl).1) (.inl hb) hstep
    exact ih hgood (fun hl => (hL hl).2 t hstep) (hb.trans hsw) hrun

/-- The allocator is initialised and there is no process: every page is free, with count 0. -/
structure Booted (y : System) : Prop where
  nodup : y.kernel.freelist.Nodup
  free : ∀ P, P ∈ y.kernel.freelist ↔ Page P
  count : ∀ P, Page P → refs y.kernel P = 0
  procs : ∀ i < NPROC, (y.kernel.proc i).state = .UNUSED ∧ (y.kernel.proc i).pagetable = 0 ∧
    (y.kernel.proc i).trapframe = 0 ∧ (y.kernel.proc i).sz = 0
  client : y.client = ∅

theorem Booted.good {y : System} (h : Booted y) (n₀ : Nat) (L : Prop) :
    Good n₀ L y.kernel y.client := by
  have hroots : roots y.kernel.proc = ∅ := by
    ext a
    simp only [mem_addrs, Finset.notMem_empty, iff_false, not_and, not_exists]
    rintro h0 i hi rfl
    exact h0 (h.procs i hi).2.1
  have hframes : frames y.kernel.proc = ∅ := by
    ext a
    simp only [mem_addrs, Finset.notMem_empty, iff_false, not_and, not_exists]
    rintro h0 i hi rfl
    exact h0 (h.procs i hi).2.2.1
  have hgoal : ∀ x, goal y.kernel.mem ∅ ∅ x = none := by
    intro x
    cases x <;> simp [goal]
  refine ⟨⟨?_, ?_, ?_, ?_⟩, ?_⟩
  · rw [held, hroots, hframes, h.client, Finset.empty_union]
    refine ⟨⟨?_, ?_, ?_, ?_, h.nodup, ?_⟩, by simp, by simp⟩
    · intro x P hx
      rw [hgoal] at hx
      cases hx
    · intro x _ P hx
      rw [hgoal] at hx
      cases hx
    · intro P hP
      rw [h.count P hP, refCount_eq_zero.mpr fun x _ => by rw [hgoal]; simp]
      rfl
    · intro P hP
      have hpage := (h.free P).mp hP
      exact ⟨hpage, h.count P hpage⟩
    · intro _ P hP _
      exact (h.free P).mpr hP
  · intro i hi _ _ _ h0
    exact absurd (h.procs i hi).2.1 h0
  · intro i hi _ _ _ h0
    exact absurd (h.procs i hi).2.2.1 h0
  · rw [hframes]
    exact Finset.disjoint_empty_left _
  · intro i hi
    obtain ⟨hs, hrest⟩ := h.procs i hi
    rw [Slot, if_pos hs]
    exact hrest

theorem Booted.run_good {acts : List Action} {y y' : System} (hb : Booted y) (hrun : run acts y = some y') :
    Good 0 False y'.kernel y'.client :=
  Xv6.run_good (hb.good 0 False) False.elim (Nat.zero_le _) hrun

end Xv6
