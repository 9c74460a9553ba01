import Xv6.Protection
import Xv6.Shape

/-!
# The program that `kexec` leaves

The segments of the file are in the new address space, and above them are the guard page and the arguments.
-/

open Xv6.Lib Xv6.Lib.Radix

namespace Xv6

variable [Image] {n₀ : Nat} {L Z : Prop} {E : String → Prop} {s t : Kernel} {T H C : Finset Nat} {r sz i : Nat}
  {path ip : List Byte} {argv : List (List Byte)} {res : Int}

/-! ## The image -/

/-- After a call that succeeds the process has the image of the program headers, a guard page above it, and the size that
goes with them. -/
theorem kexec_image (h : Good n₀ L s C) (hi : i < NPROC) (hu : (s.proc i).state ≠ .UNUSED)
    (hargs : ∀ arg ∈ argv, arg.length < 2 ^ 63) (hhdr : ∀ ph ∈ headers ip, ph.off + ph.filesz < 2 ^ 32)
    (hrun : kexec i path (some ip) argv s = .ok (res, t)) (hres : res ≠ -1) :
    (∀ va < PGROUNDUP (extent (headers ip)), logical t i va = image ip (headers ip) va) ∧
      (∀ va, PGROUNDUP (extent (headers ip)) ≤ va → va < PGROUNDUP (extent (headers ip)) + PGSIZE →
        logical t i va = none ∧ ∀ a, ¬ Can t i va a) ∧
      (t.proc i).sz = PGROUNDUP (extent (headers ip)) + (USERSTACK + 1) * PGSIZE := by
  obtain ⟨hbad, -⟩ | hdone := (kexec_ends h False.elim hi hu hargs).of_ok hrun
  · exact absurd hbad hres
  have hx := hdone.placed ip rfl hhdr
  have hup : PGROUNDUP (extent (headers ip)) = npages (extent (headers ip)) * PGSIZE :=
    PGROUNDUP_eq (hx.below.trans (by decide))
  refine ⟨fun va hva => ?_, fun va hlo hhi => ?_, ?_⟩
  · obtain ⟨hpage, hbyte⟩ := hx.bytes va (by simp only [PGSIZE] at *; omega)
    rw [← hbyte]
    exact leaf_byte_user hpage.1 hpage.2
  · have hdiv : va / PGSIZE = npages (extent (headers ip)) := by
      simp only [PGSIZE] at *
      omega
    obtain ⟨hV, hU⟩ := hx.guard
    rw [← hdiv] at hV hU
    refine ⟨by simp [logical, leaf_byte, hV, hU], fun a hcan => ?_⟩
    have hno := ((grants_valid hV).mp hcan).1
    rw [hU] at hno
    cases hno
  · rw [hx.size, hup, Nat.add_mul]

def overlapProgram : List Byte :=
  word_bytes ELF_MAGIC ++ List.replicate 24 0 ++ word_bytes ELFHDR_SIZE ++ List.replicate 16 0 ++ word_bytes 2 ++
    (word_bytes (ELF_PROG_LOAD + 4 * 2 ^ 32) ++ List.replicate 24 0 ++ word_bytes 16 ++ word_bytes 16 ++
      List.replicate 8 0) ++
    (word_bytes (ELF_PROG_LOAD + 4 * 2 ^ 32) ++ word_bytes 32 ++ List.replicate 16 0 ++ word_bytes 4 ++
      word_bytes PGSIZE ++ List.replicate 8 0)

omit [Image] in
theorem kexec_image_overlap : ∃ (y : System) (t : Kernel),
    @run smallImage [.userinit, .schedule 0 .RUNNING] bootSystem = some y ∧
    @kexec smallImage 0 [] (some overlapProgram) [] y.kernel = .ok (0, t) ∧
    (headers overlapProgram).length = 2 ∧ logical t 0 0 = image overlapProgram (headers overlapProgram) 0 := by
  have heval : ((@run smallImage [.userinit, .schedule 0 .RUNNING] bootSystem).bind fun y =>
      (@kexec smallImage 0 [] (some overlapProgram) [] y.kernel).toOption.map fun x =>
        decide (x.1 = 0 ∧ (y.kernel.proc 0).state = .RUNNING)) = some true := by
    simp only [run, List.foldlM_cons, List.foldlM_nil, step, kexec, proc_freepagetable, uvmfree, freewalk_eq]
    decide +kernel
  obtain ⟨y, hy, heval⟩ := Option.bind_eq_some_iff.mp heval
  obtain ⟨⟨res, t⟩, ht, hval⟩ := Option.map_eq_some_iff.mp heval
  rw [toOption_eq_some] at ht
  obtain ⟨rfl, hstate⟩ := of_decide_eq_true hval
  let : Image := smallImage
  have hg := bootSystem_booted.run_good hy
  refine ⟨y, t, hy, ht, by decide +kernel,
    (kexec_image hg (by decide) (by rw [hstate]; decide) (by simp) ?_ ht (by decide)).1 0 ?_⟩
  · decide +kernel
  · decide +kernel

/-! ## The argument stack -/

def checked (p : Prop) [Decidable p] : K Unit := if p then pure () else panic "out of bounds"

/-- `kexec_args` with a check before each subtraction from `sp` and each store to `ustack`. -/
def kexec_args_checked (i pagetable stackbase : Nat) :
    List (List Byte) → Nat → List Nat → K (Option (Nat × List Nat))
  | [], sp, ustack => pure (some (sp, ustack))
  | arg :: argv, sp, ustack =>
    if ustack.length ≥ MAXARG then pure none
    else do
      checked (arg.length + 1 ≤ sp)
      let sp := push sp (arg.length + 1)
      if sp < stackbase then pure none
      else do
        let r ← copyout i pagetable sp (arg ++ [0])
        if r < 0 then pure none
        else do
          checked (ustack.length < MAXARG)
          kexec_args_checked i pagetable stackbase argv sp (ustack ++ [sp])

def kexec_stack_checked (i pagetable : Nat) (argv : List (List Byte)) (sz : Nat) : K (Option (Nat × Nat) × Nat) := do
  let sz := PGROUNDUP sz
  let sz1 ← uvmalloc pagetable sz (sz + (USERSTACK + 1) * PGSIZE) PTE_W
  if sz1 = 0 then pure (none, sz)
  else do
    let sz := sz1
    uvmclear pagetable (sz - (USERSTACK + 1) * PGSIZE)
    checked (USERSTACK * PGSIZE ≤ sz)
    let stackbase := sz - USERSTACK * PGSIZE
    let r ← kexec_args_checked i pagetable stackbase argv sz []
    match r with
    | none => pure (none, sz)
    | some (sp, ustack) => do
      checked (ustack.length < MAXARG ∧ (ustack.length + 1) * 8 ≤ sp)
      let sp := push sp ((ustack.length + 1) * 8)
      if sp < stackbase then pure (none, sz)
      else do
        let r ← copyout i pagetable sp ((ustack ++ [0]).flatMap word_bytes)
        if r < 0 then pure (none, sz) else pure (some (ustack.length, sp), sz)

omit [Image] in
theorem checked_bind {α : Type} {p : Prop} [Decidable p] (hp : p) (x : K α) : (do checked p; x) = x := by
  rw [checked, if_pos hp]
  rfl

theorem kexec_args_some {base sp sp' : Nat} {ustack ustack' : List Nat} (hsp : base ≤ sp)
    (hrun : kexec_args i r base argv sp ustack s = .ok (some (sp', ustack'), t)) :
    base ≤ sp' ∧ ustack'.length = ustack.length + argv.length := by
  induction argv generalizing s sp ustack with
  | nil =>
    simp only [kexec_args, Op.pure_ok] at hrun
    obtain ⟨⟨⟩, rfl⟩ := hrun
    exact ⟨hsp, rfl⟩
  | cons arg argv ih =>
    rw [kexec_args] at hrun
    dsimp only at hrun
    split_ifs at hrun with hfull hlow
    · simp at hrun
    · simp at hrun
    simp only [Op.bind_ok] at hrun
    obtain ⟨c, u, -, hrun⟩ := hrun
    split_ifs at hrun
    · simp at hrun
    · obtain ⟨h1, h2⟩ := ih (not_lt.mp hlow) hrun
      simp only [List.length_append, List.length_cons, List.length_nil] at *
      exact ⟨h1, by omega⟩

theorem kexec_args_checked_eq {base sp : Nat} {ustack : List Nat} (hargs : ∀ arg ∈ argv, arg.length < PGSIZE)
    (hbase : PGSIZE ≤ base) (hsp : base ≤ sp) :
    kexec_args_checked i r base argv sp ustack = kexec_args i r base argv sp ustack := by
  induction argv generalizing sp ustack with
  | nil => rfl
  | cons arg argv ih =>
    have harg := hargs arg (List.mem_cons_self ..)
    rw [kexec_args_checked, kexec_args]
    split_ifs with hfull
    · rfl
    rw [checked_bind (by omega)]
    dsimp only
    split_ifs with hlow
    · rfl
    funext s
    refine Op.bind_congr fun c t _ => ?_
    split_ifs
    · rfl
    · rw [checked_bind (not_le.mp hfull), ih (fun a ha => hargs a (List.mem_cons_of_mem _ ha)) (not_lt.mp hlow)]

theorem kexec_stack_checked_eq (h : Fills n₀ L Z T H r sz s) (hn : argv.length < MAXARG)
    (hargs : ∀ arg ∈ argv, arg.length < PGSIZE) : kexec_stack_checked i r argv sz s = kexec_stack i r argv sz s := by
  have hsz := h.build.size
  have hup : PGROUNDUP sz = npages sz * PGSIZE := PGROUNDUP_eq (hsz.trans (by decide))
  have hle : PGROUNDUP sz ≤ TRAPFRAME := by
    simp only [npages, PGSIZE, TRAPFRAME, TRAMPOLINE, MAXVA] at *
    omega
  have hnp : npages (PGROUNDUP sz) = npages sz := by
    simp only [npages, PGSIZE] at *
    omega
  unfold kexec_stack_checked kexec_stack
  refine Op.bind_congr fun sz1 t halloc => ?_
  split_ifs with h0
  · rfl
  have hmax := (((uvmalloc_ends h.toSane h.root small_W (by decide) (by decide) hle (hnp ▸ h.build.bound)
    (.inr (by rw [hnp]; exact h.room))).of_ok halloc).size h0).1
  have hbig : 2 * PGSIZE ≤ sz1 := by
    simp only [USERSTACK] at hmax
    omega
  refine Op.bind_congr fun _ u _ => ?_
  dsimp only
  rw [checked_bind (by simp only [USERSTACK]; omega), kexec_args_checked_eq hargs (by simp only [USERSTACK]; omega)
    (Nat.sub_le _ _)]
  refine Op.bind_congr fun res w hres => ?_
  cases res with
  | none => rfl
  | some x =>
    obtain ⟨hlow, hlen⟩ := kexec_args_some (Nat.sub_le _ _) hres
    rw [List.length_nil] at hlen
    dsimp only
    rw [checked_bind]
    simp only [USERSTACK, MAXARG, PGSIZE] at *
    omega

/-- The stack at `sp` has the pointers to the strings `argv` and then a null pointer. Each area is inside the stack, and no
two of them overlap. -/
def ExactArgs (m : Mem) (r top : Nat) (argv : List (List Byte)) (sp : Nat) : Prop :=
  sp % 16 = 0 ∧ top - USERSTACK * PGSIZE ≤ sp ∧ ∃ ptrs : List Nat, ptrs.length = argv.length ∧
    (∀ (k p : Nat), (ptrs ++ [0])[k]? = some p → (umem m r).load64 (sp + 8 * k) = BitVec.ofNat 64 p) ∧
    (∀ (k p : Nat) (arg : List Byte), ptrs[k]? = some p → argv[k]? = some arg → (umem m r).slice p (arg.length + 1) = arg ++ [0]) ∧
    let areas := ptrs.zip (argv.map (·.length + 1)) ++ [(sp, (argv.length + 1) * 8)]
    (∀ area ∈ areas, top - USERSTACK * PGSIZE ≤ area.1 ∧ area.1 + area.2 ≤ top) ∧
      areas.Pairwise fun a b => a.1 + a.2 ≤ b.1 ∨ b.1 + b.2 ≤ a.1

omit [Image] in
theorem words_take {ws : List Nat} {k p : Nat} (hk : ws[k]? = some p) :
    8 * k + 8 ≤ (ws.flatMap word_bytes).length ∧ ((ws.flatMap word_bytes).drop (8 * k)).take 8 = word_bytes p := by
  induction ws generalizing k with
  | nil => cases hk
  | cons w ws ih =>
    have hlen : (word_bytes w).length = 8 := by simp [word_bytes]
    rw [List.flatMap_cons, List.length_append, hlen]
    cases k with
    | zero =>
      cases hk
      exact ⟨by omega, by rw [Nat.mul_zero, List.drop_zero, List.take_left' hlen]⟩
    | succ k =>
      obtain ⟨h1, h2⟩ := ih hk
      refine ⟨by omega, ?_⟩
      rw [Nat.mul_succ, Nat.add_comm, ← List.drop_drop, List.drop_left' hlen, h2]

omit [Image] in
theorem Argstack.exact {m : Mem} {top sp : Nat} {ps : List Nat} (h : Argstack m r top argv sp ps) :
    ExactArgs m r top argv sp := by
  obtain ⟨hal, -, hend, hbytes⟩ := h.laid.mem (List.mem_append_right _ (List.mem_singleton_self _))
  have hfits := h.fits
  have hlow : ∀ area ∈ ps.zip (argv.map (· ++ [0])) ++ [(sp, (ps ++ [0]).flatMap word_bytes)],
      top - USERSTACK * PGSIZE ≤ area.1 ∧ area.1 + area.2.length ≤ top := by
    intro area ha
    obtain ⟨-, h1, h2, -⟩ := h.laid.mem ha
    exact ⟨by omega, h2⟩
  have hareas : ps.zip (argv.map (·.length + 1)) ++ [(sp, (argv.length + 1) * 8)] =
      (ps.zip (argv.map (· ++ [0])) ++ [(sp, (ps ++ [0]).flatMap word_bytes)]).map
        fun a : Nat × List Byte => (a.1, a.2.length) := by
    rw [List.map_append, List.map_singleton, length_words, List.length_append, List.length_singleton, h.count,
      List.zip_map_right, List.zip_map_right, List.map_map]
    simp [Function.comp_def]
  refine ⟨hal, by omega, ps, h.count, fun k p hp => ?_, fun k p arg hp harg => ?_, ?_, ?_⟩
  · obtain ⟨hk, hword⟩ := words_take hp
    refine Mem.load64_of_slice ?_
    have hsub := Mem.slice_slice (m := umem m r) (a := sp) hk
    rw [hbytes, hword] at hsub
    exact hsub
  · have hz : (ps.zip (argv.map (· ++ [0])))[k]? = some (p, arg ++ [0]) := by
      simp [List.getElem?_zip_eq_some, hp, harg]
    obtain ⟨-, -, -, hs⟩ := h.laid.mem (List.mem_append_left _ (List.mem_of_getElem? hz))
    rwa [List.length_append, List.length_singleton] at hs
  · rw [hareas]
    intro area ha
    obtain ⟨a, hin, rfl⟩ := List.mem_map.mp ha
    exact hlow a hin
  · rw [hareas, List.pairwise_map]
    exact h.laid.pairwise.imp fun hab => .inr hab

/-- If no page is swapped out meanwhile, the stack phase of `kexec` fails only without memory for the stack, or where the
strings and the pointers do not fit. Else they are on the stack, and `a1` points to the pointers once `kexec` has succeeded. -/
theorem kexec_stack_exact (h : Good n₀ L s C) (hz : Slots (roots s.proc) s) (hi : i < NPROC)
    (hu : (s.proc i).state ≠ .UNUSED) (hn : argv.length < MAXARG) (hargs : ∀ arg ∈ argv, arg.length < PGSIZE) :
    (∀ r t₀ k off sz t₁, proc_pagetable i s = .ok (some r, t₀) → kexec_load r ip k off 0 t₀ = .ok ((true, sz), t₁) →
      (∀ res t, kexec_stack i r argv sz t₁ = .ok (res, t) → t.stats.swap_outs = t₁.stats.swap_outs) → ∃ res t, kexec_stack i r argv sz t₁ = .ok (res, t) ∧ kexec_stack_checked i r argv sz t₁ = .ok (res, t) ∧
        (res.1 = none ∧
            uvmalloc r (PGROUNDUP sz) (PGROUNDUP sz + (USERSTACK + 1) * PGSIZE) PTE_W t₁ = .ok (0, t) ∨
          res.1 = none ∧ USERSTACK * PGSIZE < room argv ∨
          room argv ≤ USERSTACK * PGSIZE ∧ ∃ sp, res.1 = some (argv.length, sp) ∧ ExactArgs t.mem r res.2 argv sp)) ∧
    ∀ path res t, kexec i path (some ip) argv s = .ok (res, t) → res ≠ -1 →
      ∃ sp, t.mem.load64 ((t.proc i).trapframe + TF_A1) = BitVec.ofNat 64 sp ∧ res = argv.length ∧
        ExactArgs t.mem (t.proc i).pagetable (t.proc i).sz argv sp := by
  have hargs' : ∀ arg ∈ argv, arg.length < 2 ^ 63 := fun arg harg => (hargs arg harg).trans (by decide)
  refine ⟨fun r t₀ k off sz t₁ hroot hload _ => ?_, fun path res t hrun hres => ?_⟩
  · obtain ⟨-, -, -, -, hsome⟩ := (proc_pagetable_fills (Z := True) h fun _ => hz).of_ok hroot
    have hfills := ((kexec_load_ends (hsome r rfl).2).of_ok hload).fills rfl
    have hends := kexec_stack_ends (i := i) hfills hargs'
    cases hrun : kexec_stack i r argv sz t₁ with
    | error msg => exact absurd trivial (hends.of_error hrun).1
    | ok x =>
      obtain ⟨⟨top, sz'⟩, t⟩ := x
      obtain ⟨-, hst⟩ := hends.of_ok hrun
      refine ⟨(top, sz'), t, rfl, (kexec_stack_checked_eq hfills hn hargs).trans hrun, ?_⟩
      cases top with
      | none => exact (hst.failed rfl hn).elim (fun hno => .inr (.inl ⟨rfl, hno⟩)) fun hno => .inl ⟨rfl, hno⟩
      | some x =>
        obtain ⟨-, hargc, hroom, -, -, ps, hstk⟩ := hst.done x.1 x.2 rfl
        exact .inr (.inr ⟨hroom hn, x.2, by rw [← hargc], hstk.exact⟩)
  · obtain ⟨hbad, -⟩ | hdone := (kexec_ends h False.elim hi hu hargs').of_ok hrun
    · exact absurd hbad hres
    obtain ⟨sp, ps, hstk, ha1, -⟩ := hdone.executed.stack
    exact ⟨sp, ha1, hdone.executed.argc, hstk.exact⟩

omit [Image] in
theorem kexec_stack_exact_one : ∃ (y : System) (r sz sp : Nat) (t₁ t : Kernel) (res : Option (Nat × Nat) × Nat),
    @run smallImage [.userinit, .schedule 0 .RUNNING] bootSystem = some y ∧
    @kexec_stack smallImage 0 r [[0x61]] sz t₁ = .ok (res, t) ∧ res.1 = some (1, sp) ∧
    ExactArgs t.mem r res.2 [[0x61]] sp := by
  have heval : ((@run smallImage [.userinit, .schedule 0 .RUNNING] bootSystem).bind fun y =>
      (@proc_pagetable smallImage 0 y.kernel).toOption.bind fun x => x.1.bind fun r =>
      (@kexec_load smallImage r overlapProgram 2 ELFHDR_SIZE 0 x.2).toOption.bind fun z =>
      (@kexec_stack smallImage 0 r [[0x61]] z.1.2 z.2).toOption.map fun w =>
        decide (z.1.1 = true ∧ w.1.1 ≠ none ∧ (y.kernel.proc 0).state = .RUNNING ∧
          w.2.stats.swap_outs = z.2.stats.swap_outs)) = some true := by decide +kernel
  obtain ⟨y, hy, heval⟩ := Option.bind_eq_some_iff.mp heval
  obtain ⟨⟨root, t₀⟩, hroot, heval⟩ := Option.bind_eq_some_iff.mp heval
  obtain ⟨r, rfl, heval⟩ := Option.bind_eq_some_iff.mp heval
  obtain ⟨⟨⟨ok, sz⟩, t₁⟩, hload, heval⟩ := Option.bind_eq_some_iff.mp heval
  obtain ⟨⟨res, t⟩, hstack, hval⟩ := Option.map_eq_some_iff.mp heval
  rw [toOption_eq_some] at hroot hload hstack
  obtain ⟨rfl, hsome, hstate, hswaps⟩ := of_decide_eq_true hval
  let : Image := smallImage
  have hg := bootSystem_booted.run_good hy
  have hslots := bootSystem_booted.run_slots (by simp [Action.Fits, Call.Fits]) hy
  have hex := (kexec_stack_exact hg hslots (by decide) (by rw [hstate]; decide)
    (show [[(0x61 : Byte)]].length < MAXARG by decide) (by decide)).1 r t₀ 2 ELFHDR_SIZE sz t₁ hroot hload
  have hquiet : ∀ res t, kexec_stack 0 r [[0x61]] sz t₁ = .ok (res, t) → t.stats.swap_outs = t₁.stats.swap_outs := by
    intro res' t' hrun
    cases hstack.symm.trans hrun
    exact hswaps
  obtain ⟨res', t', hrun, -, hex⟩ := hex hquiet
  cases hstack.symm.trans hrun
  obtain ⟨hno, -⟩ | ⟨hno, -⟩ | ⟨-, sp, hsp, hargs⟩ := hex
  · exact absurd hno hsome
  · exact absurd hno hsome
  · exact ⟨y, r, sz, sp, t₁, t, res, hy, hstack, hsp, hargs⟩

omit [Image] in
/-- The phase fails without any argument. -/
theorem stack_without_memory : ∃ (y : System) (r sz : Nat) (t₀ t₁ t : Kernel) (res : Option (Nat × Nat) × Nat),
    @run smallImage [.userinit, .schedule 0 .RUNNING] bootSystem = some y ∧
    @proc_pagetable smallImage 0 y.kernel = .ok (some r, t₀) ∧
    @kexec_load smallImage r sevenPages 1 ELFHDR_SIZE 0 t₀ = .ok ((true, sz), t₁) ∧
    @kexec_stack smallImage 0 r [] sz t₁ = .ok (res, t) ∧ res.1 = none ∧ room [] ≤ USERSTACK * PGSIZE := by
  have heval : ((@run smallImage [.userinit, .schedule 0 .RUNNING] bootSystem).bind fun y =>
      (@proc_pagetable smallImage 0 y.kernel).toOption.bind fun x => x.1.bind fun r =>
      (@kexec_load smallImage r sevenPages 1 ELFHDR_SIZE 0 x.2).toOption.bind fun z =>
      (@kexec_stack smallImage 0 r [] z.1.2 z.2).toOption.map fun w =>
        decide (z.1.1 = true ∧ w.1.1 = none)) = some true := by decide +kernel
  obtain ⟨y, hy, heval⟩ := Option.bind_eq_some_iff.mp heval
  obtain ⟨⟨root, t₀⟩, hroot, heval⟩ := Option.bind_eq_some_iff.mp heval
  obtain ⟨r, rfl, heval⟩ := Option.bind_eq_some_iff.mp heval
  obtain ⟨⟨⟨ok, sz⟩, t₁⟩, hload, heval⟩ := Option.bind_eq_some_iff.mp heval
  obtain ⟨⟨res, t⟩, hstack, hval⟩ := Option.map_eq_some_iff.mp heval
  rw [toOption_eq_some] at hroot hload hstack
  obtain ⟨rfl, hnone⟩ := of_decide_eq_true hval
  exact ⟨y, r, sz, t₀, t₁, t, res, hy, hroot, hload, hstack, hnone, by decide⟩

end Xv6
