import Xv6.Stack

/-!
# The whole of `kexec`

A call that fails leaves the process as it was. One that succeeds leaves the image of the program, the arguments on the
stack and nothing of the old tree.
-/

open Xv6.Lib Op Radix

namespace Xv6

variable [Image] {n₀ : Nat} {L Z : Prop} {s s' t : Kernel} {T H C : Finset Nat} {r q i n : Nat}

structure Undone (n₀ : Nat) (L Z : Prop) (C : Finset Nat) (s t : Kernel) : Prop where
  sane : Sane n₀ L Z (roots s.proc) (held s.proc C) t
  evolve : Evolve n₀ (roots s.proc) (held s.proc C) s t
  fixed : Fixed (roots s.proc) s t
  retains : Retains s t

theorem Undone.of_free {sz : Nat} (h : Good n₀ L s C) (hrT : r ∉ roots s.proc)
    (hev : Evolve n₀ (roots s.proc) (held s.proc C) s t) (hf : Fixed (roots s.proc) s t) (hret : Retains s t)
    (hs : Sane n₀ L Z (insert r (roots s.proc)) (held s.proc C) t) (hsz : sz ≤ TRAPFRAME)
    (hb : Bound t.mem r (npages sz)) :
    Ends (do proc_freepagetable r sz; pure (-1)) t (fun (res : Int) t' => res = -1 ∧ Undone n₀ L Z C s t')
      (Stray Z) := by
  rw [ends_bind]
  refine (proc_freepagetable_ends hs.inv hs.slots (Finset.mem_insert_self r _) hsz hb).with_run.mono ?_
  rintro _ t' ⟨⟨hrem, _⟩, hrun⟩
  refine ⟨rfl, ?_⟩
  have hinv := hrem.inv
  have hev' := hrem.evolve
  have hf' := hrem.fixed
  have hslots := hrem.slots
  rw [Finset.erase_insert hrT] at hinv hev' hf' hslots
  have hevt := hev.trans hev'
  have hsized : Sized t' := fun j hj => by
    rw [hevt.proc]
    exact h.sized j hj
  exact ⟨⟨hinv, hevt.procsIn h.procsIn, hsized, fun hZ => hslots (hs.slots hZ)⟩, hevt, hf.trans hf',
    trans_of Retains hret (Retains.forks.proc_freepagetable _ _ _ _ _ hrun)⟩

omit [Image] in
theorem OnPage.store {m : Mem} {p off : Nat} {w : BitVec 64} (h : off + 8 ≤ PGSIZE) :
    OnPage p m (m.store64 (p + off) w) := by
  intro a ha
  apply Mem.store64_of_outside
  omega

/-- The commit: the trapframe and the slot are written, and the old tree `q` is freed. The bytes of the other trees stay. -/
structure Committed (n₀ : Nat) (L Z : Prop) (T H : Finset Nat) (i q tf : Nat) (p : Proc) (a c : BitVec 64)
    (s t : Kernel) : Prop where
  inv : Inv n₀ L t (T.erase q) H
  kept : Kept n₀ (T.erase q) (H.erase tf) s t
  proc : t.proc = setSlot s.proc i p
  swaps : s.stats.swap_outs ≤ t.stats.swap_outs
  slots : Z → Slots (T.erase q) t
  leaves : ∀ r ∈ T.erase q, ∀ v < 512 ^ 3, pte t.mem r v = pte s.mem r v
  lone : Lone (T.erase q) (H.erase tf) q ∅ s t
  a1 : t.mem.load64 (tf + TF_A1) = a
  sp : t.mem.load64 (tf + TF_SP) = c

theorem commit_ends {tf sz argc : Nat} {a b c : BitVec 64} {g : Proc → Proc} (h : Inv n₀ L t T H)
    (hz : Z → Slots T t) (hq : q ∈ T) (htf : tf ∈ H) (hsz : sz ≤ TRAPFRAME) (hb : Bound t.mem q (npages sz)) :
    Ends (do
      store64 (tf + TF_A1) a
      modifyProc i g
      store64 (tf + TF_EPC) b
      store64 (tf + TF_SP) c
      proc_freepagetable q sz
      pure (argc : Int)) t (fun res t' => res = argc ∧ Committed n₀ L Z T H i q tf (g (t.proc i)) a c t t') (Stray Z) := by
  rw [ends_bind]
  refine Safe.ends trivial fun _ t₁ h₁ => ?_
  rw [ends_bind]
  refine Safe.ends trivial fun _ t₂ h₂ => ?_
  rw [ends_bind]
  refine Safe.ends trivial fun _ t₃ h₃ => ?_
  rw [ends_bind]
  refine Safe.ends trivial fun _ t₄ h₄ => ?_
  rw [store64_ok] at h₁ h₃ h₄
  rw [modifyProc_ok] at h₂
  obtain ⟨w, hw⟩ : ∃ w : Kernel, w = { t₄ with proc := t.proc } := ⟨_, rfl⟩
  have hmem : OnPage tf t.mem w.mem := by
    rw [hw, h₄, h₃, h₂, h₁]
    exact ((OnPage.store (by decide)).trans (OnPage.store (by decide))).trans (OnPage.store (by decide))
  have hcount : w.count = t.count := by rw [hw, h₄, h₃, h₂, h₁]
  obtain ⟨hinv, hev⟩ := h.evolve_held htf hmem (by rw [hw]) hcount
    (by rw [hw, h₄, h₃, h₂, h₁]) (by rw [hw, h₄, h₃, h₂, h₁])
  have halike : Alike w t₄ := by
    rw [hw]
    exact ⟨rfl, rfl, rfl, rfl⟩
  have hinv₄ := hinv.alike halike
  have hkept : Kept n₀ T (H.erase tf) t t₄ := hev.kept.trans (.of_mem halike.mem halike.swaps)
  have hbound : Bound t₄.mem q (npages sz) := by
    rw [halike.mem]
    exact (hev.still hq).bound hb
  have hoff : Off T t.mem t₄.mem := by
    rw [halike.mem]
    exact h.off_page (h.page_held htf) (fun _ hr _ => h.held_not_table htf hr) hmem
  have hsheds : Sheds T t t₄ := .of_off hoff (by rw [h₄, h₃, h₂, h₁])
  rw [ends_bind]
  refine (proc_freepagetable_ends hinv₄ (fun hZ => (hz hZ).sheds hsheds) hq hsz hbound).mono ?_
  rintro _ t₅ ⟨hrem, _⟩
  have hsw := hrem.fixed.swaps
  have hlone : Lone T (H.erase tf) q ∅ t t₄ := by
    refine h.lone_held (Finset.erase_subset tf H) htf (Finset.notMem_erase tf H) ?_ ?_
    · rw [halike.mem]
      exact hmem
    · rw [halike.count, hcount]
  have hframe := (hrem.lone.held tf htf (hinv₄.refs_held htf)).2
  have hword : ∀ k, k + 8 ≤ PGSIZE → t₅.mem.load64 (tf + k) = t₄.mem.load64 (tf + k) := by
    intro k hk
    refine Mem.load64_congr fun j hj => ?_
    rw [Nat.add_assoc]
    exact hframe (k + j) (by omega)
  refine ⟨rfl, hrem.inv, (hkept.mono (Finset.erase_subset q T) (Finset.Subset.refl _)).trans
    (hrem.evolve.kept.mono (Finset.Subset.refl _) (Finset.erase_subset tf H)), ?_, ?_,
    fun hZ => hrem.slots ((hz hZ).sheds hsheds), fun r hr v hv => ?_,
    (hlone.others.trans (hrem.lone.drop (Finset.erase_subset tf H))).mono (by simp), ?_, ?_⟩
  · rw [hrem.fixed.proc, h₄, h₃, h₂, h₁]
  · rw [h₄, h₃, h₂, h₁] at hsw
    exact hsw
  · rw [hrem.fixed.calm hrem.swaps r hr v hv, hoff.pte (Finset.mem_of_mem_erase hr)]
  · rw [hword TF_A1 (by decide), h₄, h₃, h₂, h₁]
    simp only [TF_A1, TF_EPC, TF_SP]
    rw [Mem.load64_store64_of_disjoint (by omega), Mem.load64_store64_of_disjoint (by omega), Mem.load64_store64]
  · rw [hword TF_SP (by decide), h₄, Mem.load64_store64]

omit [Image] in
theorem roots_setSlot_subset {procs : Nat → Proc} {p : Proc} (hd : Distinct (·.pagetable) procs) (hi : i < NPROC)
    (hp : p.pagetable ∉ roots procs) (hq : (procs i).pagetable ∈ roots procs) :
    roots (setSlot procs i p) ⊆ (insert p.pagetable (roots procs)).erase (procs i).pagetable := by
  have hne : p.pagetable ≠ (procs i).pagetable := fun he => hp (he ▸ hq)
  rw [roots, addrs_setSlot hi hd, Finset.erase_insert_of_ne hne]
  split_ifs
  · exact Finset.subset_insert _ _
  · exact Finset.Subset.refl _

theorem proc_pagetable_fills (h : Good n₀ L s C) (hz : Z → Slots (roots s.proc) s) :
    Ends (proc_pagetable i) s (fun root t => Evolve n₀ (roots s.proc) (held s.proc C) s t ∧ Fixed (roots s.proc) s t ∧
      Retains s t ∧ (root = none → Sane n₀ L Z (roots s.proc) (held s.proc C) t) ∧
      ∀ r, root = some r → r ∉ roots s.proc ∧ Fills n₀ L Z (insert r (roots s.proc)) (held s.proc C) r 0 t) (Stray Z) := by
  refine (proc_pagetable_ends (h.sane hz)).with_run.mono ?_
  rintro root t ⟨⟨hev, hf, hnone, hsome⟩, hpt⟩
  refine ⟨hev, hf, Retains.forks.proc_pagetable _ _ _ _ hpt, hnone, fun r hres => ?_⟩
  obtain ⟨hrT, hst, hzero, hcap⟩ := hsome r hres
  have hr := Finset.mem_insert_self r (roots s.proc)
  exact ⟨hrT, hst, hr, (hev.procsIn h.procsIn).apart hrT (hst.inv.page_root hr).ne_zero, hcap, .zero (.of_zero hzero),
    fun v hv => absurd hv (Nat.not_lt_zero v)⟩

/-- The arguments are on the stack of slot `i`, and its registers say where. -/
structure Executed (argv : List (List Byte)) (i : Nat) (res : Int) (t : Kernel) : Prop where
  argc : res = argv.length
  stack : ∃ sp ps, Argstack t.mem (t.proc i).pagetable (t.proc i).sz argv sp ps ∧
    t.mem.load64 ((t.proc i).trapframe + TF_A1) = BitVec.ofNat 64 sp ∧
    t.mem.load64 ((t.proc i).trapframe + TF_SP) = BitVec.ofNat 64 sp

structure Placed (ip : List Byte) (phs : List ProgHdr) (i : Nat) (t : Kernel) : Prop where
  below : extent phs ≤ TRAPFRAME
  size : (t.proc i).sz = (npages (extent phs) + (USERSTACK + 1)) * PGSIZE
  bytes : ∀ x, x / PGSIZE < npages (extent phs) → UserPage t.mem (t.proc i).pagetable (x / PGSIZE) ∧
    some (umem t.mem (t.proc i).pagetable x) = image ip phs x
  guard : has (pte t.mem (t.proc i).pagetable (npages (extent phs))) PTE_V = true ∧
    has (pte t.mem (t.proc i).pagetable (npages (extent phs))) PTE_U = false

def headers (ip : List Byte) : List ProgHdr :=
  loads ip (elfhdr (readi ip 0 ELFHDR_SIZE)).phnum (elfhdr (readi ip 0 ELFHDR_SIZE)).phoff

theorem Stacked.executed {argv : List (List Byte)} {sz argc sp sz' : Nat}
    (h : Stacked r sz argv s (some (argc, sp), sz') t) (hr : r ∈ T) (hsz : sz' ≤ TRAPFRAME)
    (hlone : Lone T H q ∅ t s') (hpte : ∀ v < 512 ^ 3, pte s'.mem r v = pte t.mem r v)
    (hroot : (s'.proc i).pagetable = r) (hproc : (s'.proc i).sz = sz')
    (ha1 : s'.mem.load64 ((s'.proc i).trapframe + TF_A1) = BitVec.ofNat 64 sp)
    (hsp : s'.mem.load64 ((s'.proc i).trapframe + TF_SP) = BitVec.ofNat 64 sp) :
    Executed argv i argc s' ∧ ∀ ip phs, Imaged ip phs r sz s.mem → Placed ip phs i s' := by
  obtain ⟨htop, hargc, -, hV, hU, ps, hstk⟩ := h.done argc sp rfl
  dsimp only at htop hstk
  have hup := npages_le hsz
  have hnp : npages sz' = npages sz + (USERSTACK + 1) := by
    rw [htop]
    simp only [npages, PGSIZE]
    omega
  have hkeep : ∀ x, x / PGSIZE < UPAGES → UserPage t.mem r (x / PGSIZE) →
      UserPage s'.mem r (x / PGSIZE) ∧ umem s'.mem r x = umem t.mem r x := by
    intro x hx hu
    have he := hpte _ (hx.trans UPAGES_lt)
    refine ⟨by rwa [UserPage, he], hlone.umem hr ⟨hx, by rw [he]; exact hu.1⟩ (fun _ => Set.notMem_empty _) ?_⟩
    exact fun P hP => (h.own (by simp) _ hx P hP).2
  refine ⟨⟨congrArg Nat.cast hargc, sp, ps, ?_, ha1, hsp⟩, fun ip phs himg => ?_⟩
  · have hpage : ∀ x < sz', x / PGSIZE < UPAGES := by
      intro x hx
      rw [UPAGES_eq]
      simp only [PGSIZE, TRAPFRAME, TRAMPOLINE, MAXVA] at *
      omega
    have hfits := hstk.fits
    rw [hroot, hproc]
    refine ⟨hstk.fits, hstk.count, hstk.laid.congr fun x h1 h2 => ?_, fun x h1 h2 => ?_⟩
    · exact (hkeep x (hpage x h2) (hstk.user x (by omega) h2)).2
    · exact (hkeep x (hpage x h2) (hstk.user x h1 h2)).1
  · have hguard := hpte (npages sz) ((show npages sz < UPAGES by omega).trans UPAGES_lt)
    rw [← hroot] at hguard hkeep hV hU
    refine ⟨?_, ?_, fun x hx => ?_, ?_⟩ <;> rw [← himg.size] at *
    · rw [UPAGES_eq] at hup
      simp only [npages, PGSIZE, TRAPFRAME, TRAMPOLINE, MAXVA] at *
      omega
    · rw [hproc]
      exact htop
    · obtain ⟨hu, hb⟩ := h.segments (by simp) x hx
      rw [← hroot] at hu hb
      obtain ⟨hu', hb'⟩ := hkeep x (by omega) hu
      rw [hb', hb, hroot]
      exact ⟨hroot ▸ hu', himg.bytes x hx⟩
    · rw [hguard]
      exact ⟨hV, hU⟩

/-- What a call that succeeds leaves of the trees, of swap space and of the new image. -/
structure Replaced (Z : Prop) (i : Nat) (file : Option (List Byte)) (argv : List (List Byte)) (s : Kernel) (res : Int)
    (t : Kernel) : Prop where
  done : res ≠ -1
  slots : Z → Slots (roots t.proc) t
  executed : Executed argv i res t
  placed : ∀ ip, file = some ip → (∀ ph ∈ headers ip, ph.off + ph.filesz < 2 ^ 32) → Placed ip (headers ip) i t

/-! ## The whole call -/

structure Prepared (n₀ : Nat) (L Z : Prop) (C : Finset Nat) (ip : List Byte) (r sz : Nat) (s t : Kernel) : Prop where
  fresh : r ∉ roots s.proc
  evolve : Evolve n₀ (roots s.proc) (held s.proc C) s t
  fixed : Fixed (roots s.proc) s t
  retains : Retains s t
  fills : Fills n₀ L Z (insert r (roots s.proc)) (held s.proc C) r sz t
  imaged : (∀ ph ∈ headers ip, ph.off + ph.filesz < 2 ^ 32) → Imaged ip (headers ip) r sz t.mem

def kexec_finish (i : Nat) (path : List Byte) (r : Nat) (argv : List (List Byte)) (entry sz : Nat) : K Int := do
  let p ← getProc i
  let (top, sz) ← kexec_stack i r argv sz
  match top with
  | none => do
    proc_freepagetable r sz
    pure (-1)
  | some (argc, sp) => do
    store64 (p.trapframe + TF_A1) (BitVec.ofNat 64 sp)
    modifyProc i fun p => { p with name := safestrcpy (basename path) 16, pagetable := r, sz := sz }
    store64 (p.trapframe + TF_EPC) (BitVec.ofNat 64 entry)
    store64 (p.trapframe + TF_SP) (BitVec.ofNat 64 sp)
    proc_freepagetable p.pagetable p.sz
    pure argc

theorem kexec_prepared {path : List Byte} {file : Option (List Byte)} {argv : List (List Byte)} {E : String → Prop}
    {Q : Int → Kernel → Prop} (h : Good n₀ L s C) (hz : Z → Slots (roots s.proc) s) (hE : ∀ msg, Stray Z msg → E msg)
    (hfail : ∀ t, Undone n₀ L Z C s t → Q (-1) t)
    (hrest : ∀ ip r entry sz t, file = some ip → Prepared n₀ L Z C ip r sz s t →
      Ends (kexec_finish i path r argv entry sz) t Q E) : Ends (kexec i path file argv) s Q E := by
  have hbad : Ends (pure (-1) : K Int) s Q E := hfail s ⟨h.sane hz, Evolve.refl s, .refl s, refl s⟩
  unfold kexec
  cases file with
  | none => exact hbad
  | some ip =>
    refine ends_ite.mpr ⟨fun _ => hbad, fun _ => ends_ite.mpr ⟨fun _ => hbad, fun _ => ?_⟩⟩
    rw [ends_bind]
    refine ((proc_pagetable_fills h hz).weaken hE).mono ?_
    rintro root t ⟨hev, hf, hret, hnone, hsome⟩
    cases root with
    | none => exact hfail t ⟨hnone rfl, hev, hf, hret⟩
    | some r =>
      obtain ⟨hrT, hfills⟩ := hsome r rfl
      rw [ends_bind]
      refine ((kexec_load_ends hfills).weaken hE).with_run.mono ?_
      rintro res t₁ ⟨hseg, hload⟩
      obtain ⟨ok, sz⟩ := res
      have hev₁ := hseg.grown.evolve
      rw [Finset.erase_insert hrT] at hev₁
      replace hev₁ := hev.trans hev₁
      have hf₁ := hf.trans (hseg.only.fixed hrT)
      have hret₁ := trans_of Retains hret (Retains.forks.kexec_load _ _ _ _ _ _ _ _ hload)
      cases ok with
      | false =>
        refine ((Undone.of_free h hrT hev₁ hf₁ hret₁ hseg.sane hseg.size hseg.bound).weaken hE).mono ?_
        rintro res t ⟨hres, hun⟩
        rw [hres]
        exact hfail t hun
      | true =>
        exact hrest ip r _ sz t₁ rfl ⟨hrT, hev₁, hf₁, hret₁, hseg.fills rfl, hseg.imaged rfl [] .nil⟩

theorem kexec_ends {path : List Byte} {file : Option (List Byte)} {argv : List (List Byte)}
    (h : Good n₀ L s C) (hz : Z → Slots (roots s.proc) s) (hi : i < NPROC) (hu : (s.proc i).state ≠ .UNUSED)
    (hargs : ∀ arg ∈ argv, arg.length < 2 ^ 63) :
    Ends (kexec i path file argv) s (fun res t => res = -1 ∧ Undone n₀ L Z C s t ∨
      Replaced Z i file argv s res t) (Stray Z) := by
  have hs := (h.slots i hi).used hu
  have hq := h.root_mem hi hu
  refine kexec_prepared h hz (fun _ => id) (fun t hun => .inl ⟨rfl, hun⟩) fun ip r entry sz t₁ hfile hpre => ?_
  have hrT := hpre.fresh
  simp only [kexec_finish, ends_bind, getProc, ends_gets]
  refine (kexec_stack_ends hpre.fills hargs).mono ?_
  rintro res t₂ ⟨hbuilds, hstacked⟩
  obtain ⟨top, sz'⟩ := res
  have hev₂ := hbuilds.grown.evolve
  rw [Finset.erase_insert hrT] at hev₂
  replace hev₂ := hpre.evolve.trans hev₂
  have hf₂ := hpre.fixed.trans (hbuilds.only.fixed hrT)
  cases top with
  | none =>
    exact (Undone.of_free h hrT hev₂ hf₂ (trans_of Retains hpre.retains hbuilds.retains) hbuilds.sane hbuilds.size
      hbuilds.bound).mono fun _ _ => .inl
  | some x =>
    rw [hpre.evolve.proc]
    refine (commit_ends hbuilds.sane.inv hbuilds.sane.slots (Finset.mem_insert_of_mem hq) (h.frame_mem hi hu)
      hs.size ((hev₂.still hq).bound hs.bound)).mono ?_
    rintro res t₅ ⟨hres, hc⟩
    have hrq : r ∈ (insert r (roots s.proc)).erase (s.proc i).pagetable :=
      Finset.mem_erase.mpr ⟨fun he => hrT (he ▸ hq), hpre.fills.root⟩
    obtain ⟨hexec, hplaced⟩ : Executed argv i x.1 t₅ ∧ ∀ ip phs, Imaged ip phs r sz t₁.mem → Placed ip phs i t₅ := by
      refine hstacked.executed hrq hbuilds.size hc.lone (hc.leaves r hrq) ?_ ?_ ?_ ?_ <;>
        rw [hc.proc, setSlot_self, hf₂.proc]
      · exact hc.a1
      · exact hc.sp
    refine .inr ⟨by rw [hres]; omega, fun hZ => (hc.slots hZ).mono ?_, hres ▸ hexec, ?_⟩
    · rw [hc.proc, hf₂.proc]
      exact roots_setSlot_subset h.ownRoot hi hrT hq
    · intro ip' hip h32
      cases hfile.symm.trans hip
      exact hplaced ip _ (hpre.imaged h32)

/-! ## What a call leaves of the other processes -/

/-- What building `r` leaves of the other trees. A lazy page may come into `q`. -/
structure Loads (n₀ : Nat) (L : Prop) (T H : Finset Nat) (r q n : Nat) (s s' : Kernel) : Prop where
  inv : Inv n₀ L s' T H
  evolve : Evolve n₀ ((T.erase r).erase q) H s s'
  bound : Bound s.mem q n → Bound s'.mem q n
  top : ∀ v < 512 ^ 3, UPAGES ≤ v → pte s'.mem q v = pte s.mem q v
  capped : Capped s.mem r → Capped s'.mem r

namespace Loads

theorem trans (h : Loads n₀ L T H r q n s t) (h' : Loads n₀ L T H r q n t s') :
    Loads n₀ L T H r q n s s' where
  inv := h'.inv
  evolve := h.evolve.trans h'.evolve
  bound := fun hb => h'.bound (h.bound hb)
  top := fun v hv hu => (h'.top v hv hu).trans (h.top v hv hu)
  capped := fun hc => h'.capped (h.capped hc)

theorem of_grown (h : Grown n₀ L T H r s s') (hq : q ∈ T.erase r) : Loads n₀ L T H r q n s s' where
  inv := h.inv
  evolve := h.evolve.mono (Finset.erase_subset _ _) (Finset.Subset.refl H)
  bound := (h.evolve.still hq).bound
  top := fun v hv hu => (h.evolve.still hq v hv).2 hu
  capped := h.capped

theorem of_copied (h : Copied n₀ L T H r q n s s') (hne : r ≠ q) : Loads n₀ L T H r q n s s' where
  inv := h.inv
  evolve := h.evolve
  bound := h.bound
  top := h.top
  capped := (h.other hne).1.capped

end Loads

section beside
variable (hne : r ≠ q)
include hne

theorem copyout_beside {dstva : Nat} {src : List Byte} (h : Copying n₀ L Z T H i r q n s) :
    Ends (copyout i r dstva src) s (fun _ t => Copied n₀ L T H r q n s t) (fun _ => True) :=
  copyout_loop_ends h (fun _ => trivial) fun _ he => absurd he hne

theorem kexec_args_beside {base sp : Nat} {argv : List (List Byte)} {ustack : List Nat}
    (h : Copying n₀ L Z T H i r q n s) : Ends (kexec_args i r base argv sp ustack) s
      (fun _ t => Copied n₀ L T H r q n s t) (fun _ => True) := by
  induction argv generalizing s sp ustack with
  | nil => exact h.refl
  | cons arg argv ih =>
    rw [kexec_args]
    refine ends_ite.mpr ⟨fun _ => h.refl, fun _ => ends_ite.mpr ⟨fun _ => h.refl, fun _ => ?_⟩⟩
    rw [ends_bind]
    refine (copyout_beside hne h).mono fun c t hc => ends_ite.mpr ⟨fun _ => hc, fun _ => ?_⟩
    exact (ih (h.copied hc)).mono fun _ _ => hc.trans

theorem pushes_beside {base top : Nat} {argv : List (List Byte)} (h : Copying n₀ L Z T H i r q n s) :
    Ends (pushes i r base top argv) s (fun res t => res.2 = top ∧ Copied n₀ L T H r q n s t) (fun _ => True) := by
  rw [pushes, ends_bind]
  refine (kexec_args_beside hne h).mono fun res t hc => ?_
  cases res with
  | none => exact ⟨rfl, hc⟩
  | some x =>
    refine ends_ite.mpr ⟨fun _ => ⟨rfl, hc⟩, fun _ => ?_⟩
    rw [ends_bind]
    refine (copyout_beside hne (h.copied hc)).mono fun c t' hc' => ?_
    exact ends_ite.mpr ⟨fun _ => ⟨rfl, hc.trans hc'⟩, fun _ => ⟨rfl, hc.trans hc'⟩⟩

theorem kexec_stack_loads {argv : List (List Byte)} {sz : Nat} (h : Fills n₀ L Z T H r sz s) (hi : i < NPROC)
    (hq : (s.proc i).pagetable = q) (hqT : q ∈ T) :
    Ends (kexec_stack i r argv sz) s (fun res t => Loads n₀ L T H r q (npages (s.proc i).sz) s t ∧
      res.2 ≤ TRAPFRAME ∧ Bound t.mem r (npages res.2)) (fun _ => True) := by
  have hqr : q ∈ T.erase r := Finset.mem_erase.mpr ⟨hne.symm, hqT⟩
  refine kexec_stack_guarded h (fun _ _ => trivial) (fun t hb _ => ⟨.of_grown hb.grown hqr, hb.size, hb.bound⟩)
    fun t hg => ?_
  have hp := hg.builds.grown.evolve.proc
  have hcopy : Copying n₀ L Z T H i r q (npages (s.proc i).sz) t :=
    ⟨hg.builds.sane, hi, by rw [hp, hq], hqT, h.root, by rw [hp], fun _ => hg.stack.own⟩
  refine (pushes_beside hne hcopy).mono ?_
  rintro res t' ⟨hres, hc⟩
  rw [hres]
  exact ⟨(Loads.of_grown hg.builds.grown hqr).trans (.of_copied hc hne), hg.builds.size,
    (hc.other hne).1.bound hg.builds.bound⟩

end beside

theorem Table.swap_root {q : Proc} (h : Table n₀ L s C) (hi : i < NPROC)
    (hinv : Inv n₀ L s' (insert q.pagetable ((roots s.proc).erase (s.proc i).pagetable)) (held s.proc C))
    (hr : q.pagetable ∉ roots s.proc) (hf : q.trapframe = (s.proc i).trapframe)
    (hp : s'.proc = setSlot s.proc i q) : Table n₀ L s' C := by
  have hr0 : q.pagetable ≠ 0 := (hinv.page_root (Finset.mem_insert_self _ _)).ne_zero
  have hft : ∀ k, (s'.proc k).trapframe = (s.proc k).trapframe := by
    rw [hp]
    exact field_setSlot (f := (·.trapframe)) hf
  have hframes : frames s'.proc = frames s.proc := addrs_congr hft
  refine ⟨?_, ?_, h.ownFrame.congr hft, ?_⟩
  · rw [held, hframes, hp, roots, addrs_setSlot hi h.ownRoot, if_neg hr0]
    exact hinv
  · rw [hp]
    exact h.ownRoot.set fun _ => hr
  · rw [hframes]
    exact h.apart

theorem kexec_acts_ends {path : List Byte} {file : Option (List Byte)} {argv : List (List Byte)}
    (h : Good n₀ L s C) (hi : i < NPROC) (hu : (s.proc i).state ≠ .UNUSED) :
    Ends (kexec i path file argv) s (fun _ t => Acts n₀ L C i s t) (fun _ => True) := by
  have hs := (h.slots i hi).used hu
  have hq := h.root_mem hi hu
  refine kexec_prepared (Z := False) h False.elim (fun _ _ => trivial) (fun t hun => .of_evolve h hi hun.sane.inv hun.evolve)
    fun ip r entry sz t₁ _ hpre => ?_
  have hrT := hpre.fresh
  have hr := hpre.fills.root
  have hqT : (s.proc i).pagetable ∈ insert r (roots s.proc) := Finset.mem_insert_of_mem hq
  have herase := Finset.erase_insert hrT
  have hne : r ≠ (s.proc i).pagetable := fun he => hrT (he ▸ hq)
  have hev₁ := hpre.evolve
  have hp₁ := hev₁.proc
  simp only [kexec_finish, ends_bind, getProc, ends_gets]
  refine (kexec_stack_loads hne hpre.fills hi (by rw [hp₁]) hqT).mono ?_
  rintro res t₂ ⟨hl, hle₂, hb₂⟩
  obtain ⟨top, sz'⟩ := res
  have hlev := hl.evolve
  rw [herase] at hlev
  have hk₂ : Kept n₀ ((roots s.proc).erase (s.proc i).pagetable) (held s.proc C) s t₂ :=
    (hev₁.mono (Finset.erase_subset _ _) (Finset.Subset.refl _)).kept.trans hlev.kept
  have hp₂ : t₂.proc = s.proc := hlev.proc.trans hp₁
  -- The old tree, which a lazy page may have reached.
  have hbq : Bound t₂.mem (s.proc i).pagetable (npages (s.proc i).sz) := by
    have := hl.bound (by rw [hp₁]; exact (hev₁.still hq).bound hs.bound)
    rwa [hp₁] at this
  have hcq : Capped t₂.mem (s.proc i).pagetable := by
    rw [Capped, hl.top _ UPAGES_lt (Nat.le_refl _)]
    exact (hev₁.still hq).capped hs.capped
  cases top with
  | none =>
    rw [ends_bind]
    refine ((proc_freepagetable_ends (Z := False) hl.inv False.elim hr hle₂ hb₂).weaken fun _ _ => trivial).mono ?_
    rintro _ t' ⟨hrem, _⟩
    have hinv' := hrem.inv
    have hev' := hrem.evolve
    rw [herase] at hinv' hev'
    have hst := hev'.still hq
    refine .of_kept h hi hinv' (hk₂.trans
      (hev'.mono (Finset.erase_subset _ _) (Finset.Subset.refl _)).kept) (hev'.proc.trans hp₂) ?_
    rw [Slot, if_neg hu]
    exact ⟨hs.root, hs.frame, hs.size, hst.bound hbq, hst.capped hcq⟩
  | some x =>
    rw [hp₁]
    refine ((commit_ends (Z := False) hl.inv False.elim hqT (h.frame_mem hi hu) hs.size hbq).weaken
      fun _ _ => trivial).mono ?_
    rintro res t' ⟨_, hc⟩
    have hinv' := hc.inv
    have hrest := hc.kept
    have hproc := hc.proc
    rw [Finset.erase_insert_of_ne hne] at hinv' hrest
    rw [hp₂] at hproc
    have hk' : Kept n₀ ((roots s.proc).erase (s.proc i).pagetable) ∅ s t' :=
      (hk₂.mono (Finset.Subset.refl _) (Finset.empty_subset _)).trans
        (hrest.mono (Finset.subset_insert _ _) (Finset.empty_subset _))
    have htab : Table n₀ L t' C := h.toTable.swap_root
      (q := { s.proc i with name := safestrcpy (basename path) 16, pagetable := r, sz := sz' }) hi hinv' hrT rfl hproc
    refine ⟨⟨htab, ?_⟩, hk'.mono (h.others_sub hi) (Finset.Subset.refl _), ?_, ?_⟩
    · intro k hk
      by_cases hki : k = i
      · have hstill := hrest.still r (Finset.mem_insert_self _ _)
        rw [hki, hproc, setSlot_self, Slot, if_neg hu]
        exact ⟨(hpre.fills.inv.page_root hr).ne_zero, hs.frame, hle₂, hstill.bound hb₂,
          hstill.capped (hl.capped hpre.fills.capped)⟩
      · rw [hproc, setSlot_of_ne hki]
        exact (h.slots k hk).still fun h0 => hk'.still _ (root_mem_erase h.ownRoot hk hi hki h0)
    · intro k _ hki _
      rw [hproc, setSlot_of_ne hki]
      exact ⟨rfl, rfl, rfl⟩
    · rw [hproc, setSlot_self]
      exact id

theorem kexec_acts {path : List Byte} {file : Option (List Byte)} {argv : List (List Byte)} {res : Int}
    (h : Good n₀ L s C) (hi : i < NPROC) (hu : (s.proc i).state ≠ .UNUSED)
    (hrun : kexec i path file argv s = .ok (res, s')) : Acts n₀ L C i s s' :=
  (kexec_acts_ends h hi hu).of_ok hrun

end Xv6
