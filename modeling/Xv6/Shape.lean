import Xv6.Reachable

/-!
# The shape of an address space

All pages of a process lie below its size, but for the trapframe and the trampoline. So no page is
mapped twice, and no leaf is left when the tables are freed.
-/

open Xv6.Lib Op Radix

namespace Xv6

variable [Image] {n₀ : Nat} {L Z : Prop} {E : String → Prop} {s s' t : Kernel} {T H C : Finset Nat}
  {r q v va p P i j : Nat} {e : Pte}

theorem dispatch_error {scause stval sepc : Nat} (hs : scause = 15 ∨ scause = 13) (hva : MAXVA ≤ stval) :
    trap_dispatch (pure ()) i scause stval sepc s = .error "walk" := by
  rw [trap_dispatch, run_bind (a := s.proc i) (t := s) rfl]
  refine (run_bind (run_update _)).trans ?_
  rcases hs with rfl | rfl
  · rw [if_neg (by decide), if_neg (by decide), if_pos rfl]
    refine run_bind_error ?_
    exact (run_bind rfl).trans (run_bind_error (fault_pte_error hva))
  · rw [if_neg (by decide), if_neg (by decide), if_neg (by decide), if_pos rfl]
    refine run_bind_error ?_
    exact (run_bind rfl).trans (run_bind_error (fault_pte_error hva))

/-! ## Every run -/

theorem Booted.slots {y : System} (hb : Booted y) : Slots (roots y.kernel.proc) y.kernel := by
  have hempty : roots y.kernel.proc = ∅ := by
    refine Finset.eq_empty_of_forall_notMem fun r hr => ?_
    obtain ⟨h0, i, hi, rfl⟩ := mem_addrs.mp hr
    exact h0 (hb.procs i hi).2.1
  rw [hempty]
  exact ⟨by simp, by simp⟩

theorem run_slots {acts : List Action} {y y' : System} (h : Good 0 False y.kernel y.client)
    (hz : Slots (roots y.kernel.proc) y.kernel) (hfit : ∀ a ∈ acts, a.Fits) (hrun : run acts y = some y') :
    Slots (roots y'.kernel.proc) y'.kernel := by
  induction acts generalizing y with
  | nil =>
    cases hrun
    exact hz
  | cons a acts ih =>
    obtain ⟨y₁, hstep, hrest⟩ := Option.bind_eq_some_iff.mp hrun
    have hl := step_lasts (Z := True) h (fun _ => hz) (fun _ => hfit a (List.mem_cons_self ..)) False.elim
      (.inl (Nat.zero_le _)) hstep
    exact ih hl.good (hl.swapped trivial)
      (fun b hb => hfit b (List.mem_cons_of_mem _ hb)) hrest

theorem Booted.run_slots {acts : List Action} {y y' : System} (hb : Booted y) (hfit : ∀ a ∈ acts, a.Fits)
    (hrun : run acts y = some y') : Slots (roots y'.kernel.proc) y'.kernel :=
  Xv6.run_slots (hb.good 0 False) hb.slots hfit hrun

/-! ## The shape -/

/-- A panic that has nothing to do with the shape of an address space. -/
def Unrelated (msg : String) : Prop := msg ≠ "mappages: remap" ∧ msg ≠ "freewalk: leaf"

omit [Image] in
theorem Stray.unrelated {msg : String} (h : Stray Z msg) : Unrelated msg := by
  have helse := h.elsewhere
  constructor
  · rintro rfl
    exact helse (by decide)
  · rintro rfl
    exact helse (by decide)

omit [Image] in
theorem Abuse.unrelated {msg : String} (h : Abuse Z msg) : Unrelated msg := by
  rcases h with h | rfl | rfl
  · exact h.unrelated
  · exact ⟨by decide, by decide⟩
  · exact ⟨by decide, by decide⟩

def Panics (y : System) (msg : String) : Action → Prop
  | .call i c => (i < NPROC ∧ (y.kernel.proc i).state = .RUNNING) ∧ perform i c y.kernel = .error msg
  | .userinit => userinit y.kernel = .error msg
  | .schedule i st => (modifyProc i fun p => { p with state := st }) y.kernel = .error msg
  | .kill i => setkilled i y.kernel = .error msg
  | .alloc => kalloc y.kernel = .error msg
  | .write p off bs => blit (p + off) bs y.kernel = .error msg
  | .free p => kfree p y.kernel = .error msg

theorem kfree_unrelated : Safe Unrelated (kfree p) s := by
  refine .ite (fun _ => ⟨by decide, by decide⟩) fun _ => .bind ?_ fun _ _ _ => .ite (fun _ => trivial) fun _ => trivial
  refine .ite (fun _ => ⟨by decide, by decide⟩) fun _ => .bind ?_ fun _ _ _ => ?_
  · exact .ite (fun _ => ⟨by decide, by decide⟩) fun _ => trivial
  · exact .bind trivial fun _ _ _ => .ite (fun _ => ⟨by decide, by decide⟩) fun _ => trivial

theorem Panics.unrelated {y : System} {msg : String} {a : Action} (h : Good 0 False y.kernel y.client)
    (ha : a.Fits) (hp : Panics y msg a) : Unrelated msg := by
  cases a with
  | call i c =>
    exact ((perform_does (Z := False) (E := Abuse False) h False.elim hp.1.1 hp.1.2 False.elim (.inl (Nat.zero_le _))
      False.elim (fun _ _ => id) fun hbad => absurd ha hbad).of_error hp.2).unrelated
  | userinit =>
    rcases (userinit_lasts (Z := False) h False.elim).of_error hp with hmsg | rfl
    · exact hmsg.unrelated
    · exact ⟨by decide, by decide⟩
  | schedule i st => cases hp
  | kill i => cases hp
  | alloc => exact (kalloc_safe h.inv h.procsIn h.sized).of_error hp
  | write p off bs => cases hp
  | free p => exact kfree_unrelated.of_error hp

/-- The size is in bounds, and so is every valid or swapped leaf. -/
structure Shaped (m : Mem) (p : Proc) : Prop where
  size : p.sz ≤ TRAPFRAME
  leaves : ∀ v < 512 ^ 3, present (pte m p.pagetable v) →
    v * PGSIZE < PGROUNDUP p.sz ∨ v * PGSIZE = TRAPFRAME ∨ v * PGSIZE = TRAMPOLINE

theorem Good.shaped (h : Good n₀ L s C) (hi : i < NPROC) (hu : (s.proc i).state ≠ .UNUSED) :
    Shaped s.mem (s.proc i) := by
  have hs := (h.slots i hi).used hu
  refine ⟨hs.size, fun v hv hp => ?_⟩
  by_cases hlt : v < UPAGES
  · have hb := hs.bound v hlt hp
    left
    rw [PGROUNDUP_eq (hs.size.trans (by decide))]
    simp only [npages, PGSIZE] at *
    omega
  · have hok := h.inv.flags _ (h.root_mem hi hu) v hv
    rw [LeafOk, if_neg hlt] at hok
    obtain ⟨-, -, hS, hmax⟩ := hok
    have hV : has (pte s.mem (s.proc i).pagetable v) PTE_V = true := by simpa [present, hS] using hp
    have hle : v < MAXVA / PGSIZE := by
      by_contra hge
      rw [hmax (by omega)] at hV
      cases hV
    right
    rw [UPAGES_eq] at hlt
    simp only [TRAPFRAME, TRAMPOLINE, MAXVA, PGSIZE] at *
    omega

/-- In every state that a run reaches all address spaces have their shape, and no action finds a page mapped
that it maps, or a leaf left in a table that it frees. -/
theorem address_space_shape {y₀ y : System} {acts : List Action} (hb : Booted y₀) (hrun : run acts y₀ = some y) :
    (∀ i < NPROC, (y.kernel.proc i).state ≠ .UNUSED → Shaped y.kernel.mem (y.kernel.proc i)) ∧
      ∀ a msg, a.Fits → Panics y msg a → msg ≠ "mappages: remap" ∧ msg ≠ "freewalk: leaf" := by
  have hgood := hb.run_good hrun
  exact ⟨fun i hi hu => hgood.shaped hi hu, fun a msg ha hp => hp.unrelated hgood ha⟩

omit [Image] in
theorem address_space_shape_fork : ∃ y, @run smallImage forkRun bootSystem = some y ∧
    (∀ i < NPROC, (y.kernel.proc i).state ≠ .UNUSED → Shaped y.kernel.mem (y.kernel.proc i)) ∧
      ∀ a msg, a.Fits → @Panics smallImage y msg a → msg ≠ "mappages: remap" ∧ msg ≠ "freewalk: leaf" := by
  obtain ⟨y, hy⟩ := Option.isSome_iff_exists.mp forkRun_ends
  exact ⟨y, hy, @address_space_shape smallImage _ _ _ bootSystem_booted hy⟩

end Xv6
