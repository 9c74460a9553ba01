import Xv6.Loading

/-!
# The argument stack

`kexec` puts the argument strings and then the pointers to them on the page at the top of the new tree. The page below it
is the guard page.
-/

open Xv6.Lib Op Radix

namespace Xv6

variable [Image] {n₀ : Nat} {L Z : Prop} {E : String → Prop} {s s' t : Kernel} {T H : Finset Nat} {r v va i : Nat}

/-! ## The two pages -/

omit [Image] in
theorem present_clear (e : Pte) : present (e &&& ~~~PTE_U) = present e := by
  simp only [present, has_and_not (show PTE_V &&& PTE_U = 0#64 from by decide),
    has_and_not (show PTE_SWAPPED &&& PTE_U = 0#64 from by decide)]

omit [Image] in
theorem points_clear (e : Pte) : points (e &&& ~~~PTE_U) = points e := by
  unfold points
  rw [has_and_not (by decide), PTE2PA_and_not small_U]

structure Barred (n₀ : Nat) (L : Prop) (T H : Finset Nat) (r v : Nat) (s t : Kernel) : Prop where
  only : Only T r {v} s t
  slots : Slots T s → Slots T t
  lone : Lone T H r {v} s t
  self : pte t.mem r v = pte s.mem r v &&& ~~~PTE_U
  grown : Grown n₀ L T H r s t
  own : Private t r
  bound : ∀ n, Bound s.mem r n → Bound t.mem r n

theorem uvmclear_ends (h : Inv n₀ L s T H) (hr : r ∈ T) (hv : va / PGSIZE < UPAGES) (hpriv : Private s r)
    (hV : has (pte s.mem r (va / PGSIZE)) PTE_V = true) :
    Ends (uvmclear r va) s (fun _ t => Barred n₀ L T H r (va / PGSIZE) s t) E := by
  have hva : va < MAXVA := by
    rw [UPAGES_eq] at hv
    simp only [PGSIZE, MAXVA] at *
    omega
  have hv3 := page_number_lt hva
  unfold uvmclear
  rw [walk_false, ends_bind, ends_of_run (walk0_run hva)]
  cases hlow : low s.mem r va with
  | none =>
    rw [pte_of_low_none hlow] at hV
    simp at hV
  | some a =>
    simp only [Option.map_some, ends_bind, load64, ends_gets, pte_of_low hlow]
    refine Safe.ends trivial fun _ t ht => ?_
    rw [store64_ok] at ht
    obtain ⟨hset, hev⟩ := h.evolve_leaf (t := t) (e := pte s.mem r (va / PGSIZE) &&& ~~~PTE_U) hr hva hlow
      (by rw [ht]) (by rw [ht]) (by rw [ht]) (by rw [ht])
    have hself := hset.self hr hv3
    have hcount : t.count = s.count := by rw [ht]
    have hinv : Inv n₀ L t T H := by
      refine h.recolor hr hv hset (points_clear _) ?_ ?_ hcount (by rw [ht]) (by rw [ht])
      · have hok := h.flags r hr _ hv3
        rw [LeafOk, if_pos hv] at hok ⊢
        rwa [has_and_not (by decide), has_and_not (by decide), has_and_not (by decide),
          has_and_not (by decide)]
      · -- The page has one reference.
        intro y P hP hy hne
        exact absurd (h.only_leaf hr hv hP (hpriv _ hv P hP).2.le hy) hne
    have hpte : ∀ v < 512 ^ 3, v ≠ va / PGSIZE → pte t.mem r v = pte s.mem r v :=
      fun v hv hne => hset.other hr hv fun he => hne he.2
    refine ⟨Only.of_set hr hset (by rw [ht]) (by rw [ht]), fun hs => hs.sheds (.of_set hset ?_ (by rw [ht])),
      h.lone_leaf hr hlow hset (ht ▸ store_on_page _ _) hcount, hself, ⟨hinv, hev, fun v hv' hu => hpte v hv' (by omega)⟩,
      fun v' hv' P hP => ?_, fun n hb v' hv' hpres => ?_⟩
    · rw [has_and_not (by decide)]
      exact h.not_swapped hr hv hV
    · simp only [refs, hcount]
      by_cases hvv : v' = va / PGSIZE
      · subst hvv
        rw [hself, points_clear] at hP
        rw [hself, has_and_not (by decide)]
        exact hpriv _ hv' P hP
      · rw [hpte v' (hv'.trans UPAGES_lt) hvv] at hP ⊢
        exact hpriv _ hv' P hP
    · by_cases hvv : v' = va / PGSIZE
      · subst hvv
        rw [hself, present_clear] at hpres
        exact hb _ hv' hpres
      · rw [hpte v' (hv'.trans UPAGES_lt) hvv] at hpres
        exact hb _ hv' hpres

structure Stack (n₀ : Nat) (L : Prop) (T H : Finset Nat) (r base : Nat) (s : Kernel) : Prop where
  inv : Inv n₀ L s T H
  root : r ∈ T
  aligned : base % PGSIZE = 0
  above : PGSIZE ≤ base
  below : base + PGSIZE ≤ TRAPFRAME
  own : Private s r
  user : UserPage s.mem r (base / PGSIZE)
  writes : has (pte s.mem r (base / PGSIZE)) PTE_W = true

theorem Stack.maps {base x : Nat} (h : Stack n₀ L T H r base s) (hlo : base ≤ x) (hhi : x < base + PGSIZE) :
    Maps s.mem r x := by
  have hx : x / PGSIZE = base / PGSIZE := by
    have := h.aligned
    simp only [PGSIZE] at *
    omega
  have hva : base < MAXVA := by
    have := h.below
    simp only [PGSIZE, TRAPFRAME, TRAMPOLINE, MAXVA] at *
    omega
  rw [Maps, hx]
  exact ⟨h.inv.user_of_U h.root (page_number_lt hva) h.user.2, h.user.1⟩

theorem Wrote.stack {base : Nat} (h : Wrote n₀ L T H r s t) (hs : Stack n₀ L T H r base s) :
    Stack n₀ L T H r base t := by
  have hpte : ∀ v, pte t.mem r v = pte s.mem r v := h.off.pte hs.root
  refine ⟨h.grown.inv, hs.root, hs.aligned, hs.above, hs.below, h.own hs.root hs.own, ?_, ?_⟩
  · rw [UserPage, hpte]
    exact hs.user
  · rw [hpte]
    exact hs.writes

theorem copyout_stack {base : Nat} {src : List Byte} (h : Stack n₀ L T H r base s) (h0 : src ≠ [])
    (hlow : base ≤ va) (hhigh : va + src.length ≤ base + PGSIZE) :
    Ends (copyout i r va src) s (fun res t => res = 0 ∧ Wrote n₀ L T H r s t ∧
      Puts T r va src s.mem t.mem) E := by
  have hlen : 0 < src.length := List.length_pos_of_ne_nil h0
  have hdown : PGROUNDDOWN va = base := by
    have := h.aligned
    simp only [PGROUNDDOWN, PGSIZE] at *
    omega
  have hva : base < MAXVA := by
    have := h.below
    simp only [PGSIZE, TRAPFRAME, TRAMPOLINE, MAXVA] at *
    omega
  have hv := h.inv.user_of_U h.root (page_number_lt hva) h.user.2
  have hp := points_some h.user.1
  have hown := h.own _ hv _ hp
  have hpage : copyout_page i r base s = .ok (some (PTE2PA (pte s.mem r (base / PGSIZE))), s) := by
    unfold copyout_page
    rw [walk_false, run_bind (walk0_run hva)]
    cases hl : low s.mem r base with
    | none =>
      have hV := h.user.1
      rw [pte_of_low_none hl] at hV
      simp at hV
    | some a =>
      simp only [Option.map_some, load64]
      rw [run_bind (run_gets _), pte_of_low hl, h.user.1, Bool.not_true, if_neg (by decide),
        run_bind (h.user.walkaddr_run hva), if_neg (h.inv.page_leaf h.root hv hp).ne_zero]
      simp only [copyout_check, load64]
      rw [run_bind (run_gets _), pte_of_low hl, hown.1, if_neg (by decide), h.writes, Bool.not_true,
        if_neg (by decide)]
      rfl
  obtain ⟨k, hk⟩ : ∃ k, src.length = k + 1 := ⟨src.length - 1, by omega⟩
  have hall : min (PGSIZE - (va - base)) src.length = src.length := by omega
  unfold copyout
  rw [hk, copyout_loop, if_neg (by omega)]
  simp only [hdown]
  rw [if_neg (by omega), ends_bind, ends_of_run hpage]
  simp only [hall, List.take_length, List.drop_length]
  rw [ends_bind]
  refine Safe.ends trivial fun _ t ht => ?_
  rw [blit_ok] at ht
  have hwrote : Wrote n₀ L T H r s t :=
    h.inv.wrote h.root hv hp hown.2 (show va - base + src.length ≤ PGSIZE by omega) ht
  have hput : Puts T r va src s.mem t.mem := by
    have hput := h.inv.puts h.root hv hp hown.2 (show va - base + src.length ≤ PGSIZE by omega) (by rw [ht]) hwrote.off
    rwa [Nat.div_mul_cancel (Nat.dvd_of_mod_eq_zero h.aligned), Nat.add_sub_cancel' hlow] at hput
  cases k with
  | zero => exact ⟨rfl, hwrote, hput⟩
  | succ k => exact ⟨rfl, hwrote, hput⟩

theorem copyout_far {src : List Byte} (h0 : src ≠ []) (hva : MAXVA ≤ va) : copyout i r va src s = .ok (-1, s) := by
  obtain ⟨k, hk⟩ : ∃ k, src.length = k + 1 := ⟨src.length - 1, by have := List.length_pos_of_ne_nil h0; omega⟩
  unfold copyout
  rw [hk, copyout_loop, if_neg (by omega)]
  have hdown : MAXVA ≤ PGROUNDDOWN va := by
    simp only [PGROUNDDOWN, PGSIZE, MAXVA] at *
    omega
  rw [if_pos hdown]
  rfl

/-! ## The areas of the stack -/

section areas

omit [Image]

def up16 (n : Nat) : Nat := (n + 15) / 16 * 16

def strings (argv : List (List Byte)) : Nat := (argv.map fun arg => up16 (arg.length + 1)).sum

/-- The areas lie one below the other, from `hi` down to `lo`, and each has its bytes. -/
def Laid (m : Mem) : List (Nat × List Byte) → Nat → Nat → Prop
  | [], hi, lo => lo = hi
  | (p, bs) :: areas, hi, lo => p % 16 = 0 ∧ p + bs.length ≤ hi ∧ m.slice p bs.length = bs ∧ Laid m areas p lo

variable {m m' : Mem} {areas areas' : List (Nat × List Byte)} {hi mid lo sp n : Nat}

theorem push_eq (hn : n ≤ sp) (hsp : sp < 2 ^ 64) (hal : sp % 16 = 0) :
    push sp n + up16 n = sp ∧ push sp n + n ≤ sp ∧ push sp n % 16 = 0 := by
  simp only [push, up16]
  omega

theorem Laid.le (h : Laid m areas hi lo) : lo ≤ hi := by
  induction areas generalizing hi with
  | nil => exact Nat.le_of_eq h
  | cons area areas ih => exact (ih h.2.2.2).trans (by have := h.2.1; omega)

theorem Laid.congr (h : Laid m areas hi lo) (hm : ∀ x, lo ≤ x → x < hi → m' x = m x) : Laid m' areas hi lo := by
  induction areas generalizing hi with
  | nil => exact h
  | cons area areas ih =>
    obtain ⟨hal, hend, hbytes, hrest⟩ := h
    have hle := hrest.le
    refine ⟨hal, hend, ?_, ih hrest fun x h1 h2 => hm x h1 (by omega)⟩
    rw [Mem.slice_congr fun k hk => hm _ (by omega) (by omega), hbytes]

theorem Laid.append (h : Laid m areas hi mid) (h' : Laid m areas' mid lo) : Laid m (areas ++ areas') hi lo := by
  induction areas generalizing hi with
  | nil =>
    rw [show mid = hi from h] at h'
    exact h'
  | cons area areas ih => exact ⟨h.1, h.2.1, h.2.2.1, ih h.2.2.2⟩

theorem Laid.mem {area : Nat × List Byte} (h : Laid m areas hi lo) (ha : area ∈ areas) :
    area.1 % 16 = 0 ∧ lo ≤ area.1 ∧ area.1 + area.2.length ≤ hi ∧ m.slice area.1 area.2.length = area.2 := by
  induction areas generalizing hi with
  | nil => cases ha
  | cons first areas ih =>
    obtain ⟨hal, hend, hbytes, hrest⟩ := h
    rcases List.mem_cons.mp ha with rfl | hin
    · exact ⟨hal, hrest.le, hend, hbytes⟩
    · obtain ⟨h1, h2, h3, h4⟩ := ih hrest hin
      exact ⟨h1, h2, by omega, h4⟩

theorem Laid.pairwise (h : Laid m areas hi lo) : areas.Pairwise fun a b => b.1 + b.2.length ≤ a.1 := by
  induction areas generalizing hi with
  | nil => exact .nil
  | cons area areas ih => exact .cons (fun b hb => (h.2.2.2.mem hb).2.2.1) (ih h.2.2.2)

end areas

structure Pushes (n₀ : Nat) (L : Prop) (T H : Finset Nat) (r base : Nat) (argv : List (List Byte)) (sp : Nat)
    (ustack : List Nat) (s : Kernel) (res : Option (Nat × List Nat)) (t : Kernel) : Prop where
  wrote : Wrote n₀ L T H r s t
  same : ∀ x, Maps s.mem r x → x < base ∨ sp ≤ x → umem t.mem r x = umem s.mem r x
  fits : ustack.length + argv.length ≤ MAXARG → (res = none ↔ sp < base + strings argv)
  laid : ∀ sp' ustack', res = some (sp', ustack') → base ≤ sp' ∧ sp' % 16 = 0 ∧ sp' + strings argv = sp ∧
    ∃ ps, ustack' = ustack ++ ps ∧ ps.length = argv.length ∧ ustack'.length ≤ MAXARG ∧
      Laid (umem t.mem r) (ps.zip (argv.map (· ++ [0]))) sp sp'

theorem kexec_args_ends {base sp : Nat} {argv : List (List Byte)} {ustack : List Nat}
    (h : Stack n₀ L T H r base s) (hargs : ∀ arg ∈ argv, arg.length < 2 ^ 63) (hlow : base ≤ sp)
    (hhigh : sp ≤ base + PGSIZE) (hal : sp % 16 = 0) (hu : ustack.length ≤ MAXARG) :
    Ends (kexec_args i r base argv sp ustack) s (Pushes n₀ L T H r base argv sp ustack s) E := by
  have htop := h.below
  have hsp : sp < 2 ^ 63 := by
    simp only [PGSIZE, TRAPFRAME, TRAMPOLINE, MAXVA] at *
    omega
  induction argv generalizing s sp ustack with
  | nil =>
    refine ⟨.refl h.inv h.root, fun _ _ _ => rfl, fun _ => ?_, ?_⟩
    · simp only [reduceCtorEq, strings, List.map_nil, List.sum_nil, false_iff]
      omega
    · rintro _ _ ⟨⟩
      exact ⟨hlow, hal, rfl, [], (List.append_nil _).symm, rfl, hu, rfl⟩
  | cons arg argv ih =>
    have harg := hargs arg (List.mem_cons_self ..)
    have hsum : strings (arg :: argv) = up16 (arg.length + 1) + strings argv := by simp [strings]
    have hstop : (ustack.length + (argv.length + 1) ≤ MAXARG → sp < base + strings (arg :: argv)) →
        Ends (pure none : K (Option (Nat × List Nat))) s (Pushes n₀ L T H r base (arg :: argv) sp ustack s) E :=
      fun hno => ⟨.refl h.inv h.root, fun _ _ _ => rfl, fun hn => ⟨fun _ => hno hn, fun _ => rfl⟩, (by simp)⟩
    rw [kexec_args]
    refine ends_ite.mpr ⟨fun hfull => hstop fun hn => by omega, fun hlt => ?_⟩
    by_cases hwrap : sp < arg.length + 1
    · -- The pointer wraps around, and no page is there.
      have hno : sp < base + strings (arg :: argv) := by
        rw [hsum, up16]
        omega
      have hfar : MAXVA ≤ push sp (arg.length + 1) := by
        simp only [push, MAXVA] at *
        omega
      refine ends_ite.mpr ⟨fun _ => hstop fun _ => hno, fun _ => ?_⟩
      rw [ends_bind, ends_of_run (copyout_far (by simp) hfar), if_pos (by decide)]
      exact hstop fun _ => hno
    obtain ⟨hsum', hpush, hal'⟩ := push_eq (not_lt.mp hwrap) (hsp.trans (by decide)) hal
    refine ends_ite.mpr ⟨fun hbase => hstop fun _ => by omega, fun hge => ?_⟩
    have hbs : (arg ++ [0]).length = arg.length + 1 := by rw [List.length_append, List.length_singleton]
    rw [ends_bind]
    refine (copyout_stack h (by simp) (by omega) (by omega)).mono ?_
    rintro res t ⟨hres, hw, hput⟩
    rw [hres, if_neg (by decide)]
    refine (ih (hw.stack h) (fun a ha => hargs a (List.mem_cons_of_mem _ ha)) (by omega) (by omega) hal' ?_ (by omega)).mono
      fun res t' hrest => ⟨hw.trans hrest.wrote, fun x hx hout => ?_, fun hn => ?_, fun sp' ustack' hsome => ?_⟩
    · rw [List.length_append, List.length_singleton]
      omega
    · rw [hrest.same x ((hput.maps h.root).mpr hx) (by omega), hput.outside hx (by omega)]
    · rw [hrest.fits (by simp only [List.length_append, List.length_cons, List.length_nil] at *; omega), hsum]
      omega
    · obtain ⟨hb, hal'', hsp', ps, rfl, hlen, hmax, hlaid⟩ := hrest.laid sp' ustack' hsome
      refine ⟨hb, hal'', by omega, push sp (arg.length + 1) :: ps, by simp, by simp [hlen], hmax, hal', ?_, ?_, hlaid⟩
      · show push sp (arg.length + 1) + (arg ++ [0]).length ≤ sp
        omega
      · show (umem t'.mem r).slice _ (arg ++ [0]).length = arg ++ [0]
        rw [Mem.slice_congr fun k hk => hrest.same _ ((hput.maps h.root).mpr (h.maps (by omega) (by omega))) (by omega)]
        exact hput.slice fun x h1 h2 => h.maps (by omega) (by omega)

/-! ## The whole phase -/

/-- What building `r` up to `sz` bytes leaves: the other trees are as they were. -/
structure Builds (n₀ : Nat) (L Z : Prop) (T H : Finset Nat) (r sz : Nat) (s t : Kernel) : Prop where
  sane : Sane n₀ L Z T H t
  grown : Grown n₀ L T H r s t
  only : Only T r Set.univ s t
  size : sz ≤ TRAPFRAME
  bound : Bound t.mem r (npages sz)
  retains : Retains s t

theorem Builds.wrote {sz : Nat} (h : Builds n₀ L Z T H r sz s t) (hr : r ∈ T) (hw : Wrote n₀ L T H r t s') :
    Builds n₀ L Z T H r sz s s' :=
  ⟨h.sane.keep hw.grown.inv hw.grown.evolve.proc hw.sheds, h.grown.trans hw.grown,
    (h.only.trans (hw.only hr)).mono (Set.subset_univ _), h.size, hw.bound hr h.bound,
    trans_of Retains h.retains (.of_eq hw.count hw.free)⟩

theorem guard_ends {sz base : Nat} (h : Builds n₀ L Z T H r sz s t) (hr : r ∈ T) (ha : Apart t r)
    (hpriv : Private t r) (hsz : sz = (v + 2) * PGSIZE) (hva : va = v * PGSIZE) (hbase : base = (v + 1) * PGSIZE)
    (hguard : has (pte t.mem r v) PTE_V = true) (hstack : UserPte PTE_W (pte t.mem r (v + 1))) :
    Ends (uvmclear r va) t (fun _ t' => Builds n₀ L Z T H r sz s t' ∧ Stack n₀ L T H r base t' ∧
      Barred n₀ L T H r v t t') E := by
  have hle := h.size
  have hdiv : va / PGSIZE = v := by rw [hva, Nat.mul_div_cancel v (by decide)]
  have hdiv' : base / PGSIZE = v + 1 := by rw [hbase, Nat.mul_div_cancel _ (by decide)]
  have hv : v < UPAGES := by
    rw [UPAGES_eq]
    simp only [PGSIZE, TRAPFRAME, TRAMPOLINE, MAXVA] at *
    omega
  have hv' : v + 1 < 512 ^ 3 := by
    have := UPAGES_lt
    omega
  have hclears := uvmclear_ends (E := E) h.grown.inv hr (by rwa [hdiv]) hpriv (by rwa [hdiv])
  rw [hdiv] at hclears
  refine hclears.with_run.mono ?_
  rintro _ t' ⟨hc, hclear⟩
  have ho := hc.only
  have hg := hc.grown
  have hwr : UserPte PTE_W (pte t'.mem r (v + 1)) := by
    rw [ho.leaves ha _ hv' (by simp)]
    exact hstack
  refine ⟨⟨h.sane.next hg.inv (Finset.Subset.refl T) ho.proc fun hZ => hc.slots (h.sane.slots hZ), h.grown.trans hg,
      (h.only.trans ho).mono (Set.subset_univ _), hle, hc.bound _ h.bound,
      trans_of Retains h.retains (Retains.forks.uvmclear _ _ _ _ _ hclear)⟩,
    ⟨hg.inv, hr, ?_, ?_, ?_, hc.own, ⟨?_, ?_⟩, ?_⟩, hc⟩
  · rw [hbase, Nat.mul_mod_left]
  · rw [hbase]
    exact Nat.le_mul_of_pos_left _ (Nat.succ_pos v)
  · simp only [PGSIZE, TRAPFRAME, TRAMPOLINE, MAXVA] at *
    omega
  · rw [hdiv']
    exact hwr.valid
  · rw [hdiv', hwr.has small_U (by decide)]
    decide
  · rw [hdiv', hwr.has small_W (by decide)]
    decide

structure Argstack (m : Mem) (r top : Nat) (argv : List (List Byte)) (sp : Nat) (ps : List Nat) : Prop where
  fits : top ≤ sp + USERSTACK * PGSIZE
  count : ps.length = argv.length
  laid : Laid (umem m r) (ps.zip (argv.map (· ++ [0])) ++ [(sp, (ps ++ [0]).flatMap word_bytes)]) top sp
  user : ∀ x, top ≤ x + USERSTACK * PGSIZE → x < top → UserPage m r (x / PGSIZE)

def room (argv : List (List Byte)) : Nat := strings argv + up16 ((argv.length + 1) * 8)

structure Stacked (r sz : Nat) (argv : List (List Byte)) (s : Kernel) (res : Option (Nat × Nat) × Nat) (t : Kernel) :
    Prop where
  own : res.1 ≠ none → Private t r
  segments : res.1 ≠ none → ∀ x, x / PGSIZE < npages sz → UserPage t.mem r (x / PGSIZE) ∧
    umem t.mem r x = umem s.mem r x
  failed : res.1 = none → argv.length < MAXARG → USERSTACK * PGSIZE < room argv ∨
    uvmalloc r (PGROUNDUP sz) (PGROUNDUP sz + (USERSTACK + 1) * PGSIZE) PTE_W s = .ok (0, t)
  done : ∀ argc sp, res.1 = some (argc, sp) → res.2 = (npages sz + (USERSTACK + 1)) * PGSIZE ∧ argc = argv.length ∧
    (argv.length < MAXARG → room argv ≤ USERSTACK * PGSIZE) ∧ has (pte t.mem r (npages sz)) PTE_V = true ∧
    has (pte t.mem r (npages sz)) PTE_U = false ∧ ∃ ps, Argstack t.mem r res.2 argv sp ps

omit [Image] in
theorem length_words (ws : List Nat) : (ws.flatMap word_bytes).length = ws.length * 8 := by
  simp [List.length_flatMap, word_bytes]

def pushes (i r base top : Nat) (argv : List (List Byte)) : K (Option (Nat × Nat) × Nat) := do
  let r' ← kexec_args i r base argv top []
  match r' with
  | none => pure (none, top)
  | some (sp, ustack) =>
    let sp := push sp ((ustack.length + 1) * 8)
    if sp < base then pure (none, top)
    else do
      let r' ← copyout i r sp ((ustack ++ [0]).flatMap word_bytes)
      if r' < 0 then pure (none, top) else pure (some (ustack.length, sp), top)

theorem pushes_ends {base top : Nat} {argv : List (List Byte)} (h : Stack n₀ L T H r base s)
    (hargs : ∀ arg ∈ argv, arg.length < 2 ^ 63) (htop : top = base + PGSIZE) :
    Ends (pushes i r base top argv) s
      (fun (res : Option (Nat × Nat) × Nat) t => res.2 = top ∧ Wrote n₀ L T H r s t ∧
        (∀ x, Maps s.mem r x → x < base → umem t.mem r x = umem s.mem r x) ∧
        (argv.length < MAXARG → (res.1 = none ↔ USERSTACK * PGSIZE < room argv)) ∧
        ∀ argc sp, res.1 = some (argc, sp) → argc = argv.length ∧ ∃ ps, Argstack t.mem r top argv sp ps) E := by
  have habove := h.above
  have hbelow := h.below
  have hal : top % 16 = 0 := by
    have := h.aligned
    simp only [PGSIZE] at *
    omega
  have hpage : USERSTACK * PGSIZE = PGSIZE := Nat.one_mul _
  rw [pushes, ends_bind, hpage]
  refine (kexec_args_ends h hargs (by omega) (by omega) hal (Nat.zero_le _)).mono fun res t hpush => ?_
  have hfits : argv.length < MAXARG → (res = none ↔ PGSIZE < strings argv) := by
    intro hn
    rw [hpush.fits (by rw [List.length_nil]; omega)]
    omega
  cases res with
  | none =>
    refine ⟨rfl, hpush.wrote, fun x hx hlt => hpush.same x hx (.inl hlt), fun hn => ⟨fun _ => ?_, fun _ => rfl⟩,
      (by simp)⟩
    exact ((hfits hn).mp rfl).trans_le (Nat.le_add_right _ _)
  | some x =>
    obtain ⟨sp, ustack⟩ := x
    obtain ⟨hlow, hsal, hsum, ps, hps, hlen, hmax, hlaid⟩ := hpush.laid sp ustack rfl
    rw [List.nil_append] at hps
    subst hps
    have hs := hpush.wrote.stack h
    obtain ⟨hsum', hend, hal'⟩ := push_eq
      (show (ustack.length + 1) * 8 ≤ sp by simp only [PGSIZE, MAXARG] at *; omega) (by simp only [PGSIZE, TRAPFRAME, TRAMPOLINE, MAXVA] at *; omega) hsal
    have hroom : room argv + push sp ((ustack.length + 1) * 8) = top := by
      rw [room, ← hlen]
      omega
    dsimp only
    refine ends_ite.mpr ⟨fun hbase => ?_, fun hge => ?_⟩
    · exact ⟨rfl, hpush.wrote, fun x hx hlt => hpush.same x hx (.inl hlt), fun _ => ⟨fun _ => by omega, fun _ => rfl⟩,
        (by simp)⟩
    have hwords : ((ustack ++ [0]).flatMap word_bytes).length = (ustack.length + 1) * 8 := by
      rw [length_words, List.length_append, List.length_singleton]
    rw [ends_bind]
    refine (copyout_stack hs (fun hnil => ?_) (by omega) (by omega)).mono ?_
    · rw [hnil, List.length_nil] at hwords
      omega
    rintro res t' ⟨hres, hw, hput⟩
    rw [hres, if_neg (by decide)]
    refine ⟨rfl, hpush.wrote.trans hw, fun x hx hlt => ?_, fun _ => ⟨(by simp), fun hno => by omega⟩, ?_⟩
    · rw [hput.outside (by rwa [Maps, hpush.wrote.off.pte h.root]) (by omega), hpush.same x hx (.inl hlt)]
    · rintro _ _ ⟨⟩
      refine ⟨hlen, ustack, by omega, hlen,
        (hlaid.congr fun x h1 h2 => ?_).append (show Laid _ [_] _ _ from ⟨hal', by omega, ?_, rfl⟩), fun x h1 h2 => ?_⟩
      · exact hput.outside (hs.maps (by omega) (by omega)) (by omega)
      · exact hput.slice fun x h1 h2 => hs.maps (by omega) (by omega)
      · have hx : x / PGSIZE = base / PGSIZE := by
          have := h.aligned
          simp only [PGSIZE] at *
          omega
        rw [hx]
        exact (hw.stack hs).user

structure Guarded (n₀ : Nat) (L Z : Prop) (T H : Finset Nat) (r sz : Nat) (s t : Kernel) : Prop where
  builds : Builds n₀ L Z T H r ((npages sz + 2) * PGSIZE) s t
  stack : Stack n₀ L T H r ((npages sz + 1) * PGSIZE) t
  guard : has (pte t.mem r (npages sz)) PTE_V = true ∧ has (pte t.mem r (npages sz)) PTE_U = false
  segments : ∀ x, x / PGSIZE < npages sz → UserPage t.mem r (x / PGSIZE) ∧ umem t.mem r x = umem s.mem r x

theorem kexec_stack_guarded {argv : List (List Byte)} {sz : Nat} {Q : Option (Nat × Nat) × Nat → Kernel → Prop}
    (h : Fills n₀ L Z T H r sz s) (hE : ∀ msg, Stray Z msg → E msg)
    (hfail : ∀ t, Builds n₀ L Z T H r (PGROUNDUP sz) s t →
      uvmalloc r (PGROUNDUP sz) (PGROUNDUP sz + (USERSTACK + 1) * PGSIZE) PTE_W s = .ok (0, t) → Q (none, PGROUNDUP sz) t)
    (hrest : ∀ t, Guarded n₀ L Z T H r sz s t →
      Ends (pushes i r ((npages sz + 1) * PGSIZE) ((npages sz + 2) * PGSIZE) argv) t Q E) :
    Ends (kexec_stack i r argv sz) s Q E := by
  have hsz := h.build.size
  obtain ⟨old, hold⟩ : ∃ old, old = PGROUNDUP sz := ⟨_, rfl⟩
  have hup : old = npages sz * PGSIZE := hold.trans (PGROUNDUP_eq (hsz.trans (by decide : TRAPFRAME ≤ MAXVA)))
  have hle : old ≤ TRAPFRAME := by
    simp only [npages, PGSIZE, TRAPFRAME, TRAMPOLINE, MAXVA] at *
    omega
  have hnp : npages old = npages sz := by
    simp only [npages, PGSIZE] at *
    omega
  unfold kexec_stack
  rw [← hold] at hfail ⊢
  rw [ends_bind]
  refine ((uvmalloc_ends h.toSane h.root small_W (by decide) (by decide) hle (hnp ▸ h.build.bound)
    (.inr (by rw [hnp]; exact h.room))).weaken hE).with_run.mono ?_
  rintro sz1 t ⟨hal, halloc⟩
  have ho := hal.only
  have hs := hal.sane
  have hou := ho.mono (Set.subset_univ _)
  have hret := Retains.forks.uvmalloc _ _ _ _ _ _ _ halloc
  refine ends_ite.mpr ⟨fun h0 => ?_, fun h0 => ?_⟩
  · exact hfail t ⟨hs, hal.grown, hou, hle, hal.failed h0, hret⟩ (h0 ▸ halloc)
  have hsize := hal.size h0
  have hmax := hsize.1
  have hle₁ := hsize.2.1
  have hb₁ := hsize.2.2.1
  have hpriv := hsize.2.2.2 h.build.own
  have hfill := hal.filled h0
  obtain rfl : sz1 = (npages sz + 2) * PGSIZE := by
    simp only [USERSTACK] at hmax
    simp only [PGSIZE] at *
    omega
  have hnp₁ : npages ((npages sz + 2) * PGSIZE) = npages sz + 2 := by
    simp only [npages, PGSIZE]
    omega
  rw [hnp, hnp₁] at hfill
  rw [hnp] at ho
  have huser : ∀ v, npages sz ≤ v → v < npages sz + 2 → UserPte PTE_W (pte t.mem r v) := fun v h1 h2 =>
    hfill.user (.inr (h.apart.spared.mono (Nat.zero_le _))) v ⟨h1, h2⟩
  rw [ends_bind, show (npages sz + 2) * PGSIZE - (USERSTACK + 1) * PGSIZE = npages sz * PGSIZE by
    rw [← Nat.sub_mul]; rfl]
  refine (guard_ends ⟨hs, hal.grown, hou, hle₁, hb₁, hret⟩ h.root (hou.apart h.apart) hpriv rfl rfl rfl
    (huser _ (Nat.le_refl _) (by omega)).valid (huser _ (by omega) (by omega))).mono ?_
  rintro _ t₁ ⟨hbuilds, hstack, hc⟩
  have hbase : (npages sz + 2) * PGSIZE - USERSTACK * PGSIZE = (npages sz + 1) * PGSIZE := by
    rw [← Nat.sub_mul]
    rfl
  dsimp only
  rw [hbase]
  refine hrest t₁ ⟨hbuilds, hstack, ⟨?_, ?_⟩, fun x hx => ?_⟩
  · rw [hc.self, has_and_not (by decide)]
    exact (huser _ (Nat.le_refl _) (by omega)).valid
  · rw [hc.self]
    exact has_and_not_self _ _
  · have hlt := hx.trans_le (npages_le hsz)
    have hno : x / PGSIZE ∉ ({npages sz} : Set Nat) := fun hin => absurd hin (by simp; omega)
    have hlead : pte t₁.mem r (x / PGSIZE) = pte s.mem r (x / PGSIZE) := by
      rw [hc.only.leaves (hou.apart h.apart) _ (hlt.trans UPAGES_lt) hno]
      exact ho.leaves h.apart _ (hlt.trans UPAGES_lt) fun hin => absurd (Set.mem_Ici.mp hin) (by omega)
    refine ⟨by rw [UserPage, hlead]; exact h.loaded _ hx, ?_⟩
    rw [hc.lone.umem h.root ⟨hlt, by rw [hlead]; exact (h.loaded _ hx).1⟩ (fun _ => hno) fun P hP => (hpriv _ hlt P hP).2,
      hfill.umem h.apart h.root h.build.own h.loaded (hnp₁ ▸ npages_le hle₁) (by omega), if_pos hx]

theorem kexec_stack_ends {argv : List (List Byte)} {sz : Nat} (h : Fills n₀ L Z T H r sz s)
    (hargs : ∀ arg ∈ argv, arg.length < 2 ^ 63) :
    Ends (kexec_stack i r argv sz) s (fun res t => Builds n₀ L Z T H r res.2 s t ∧
      Stacked r sz argv s res t) (Stray Z) := by
  refine kexec_stack_guarded h (fun _ => id) (fun t hbuilds halloc => ⟨hbuilds, fun hne => absurd rfl hne,
    fun hne => absurd rfl hne, fun _ _ => .inr halloc, (by simp)⟩) fun t hg => ?_
  refine (pushes_ends hg.stack hargs (by simp only [PGSIZE]; omega)).mono ?_
  rintro ⟨top, sz'⟩ t₂ ⟨hres, hw, hsame, hfits, hdone⟩
  have hpte := fun v => hw.off.pte h.root v
  cases hres
  refine ⟨hg.builds.wrote h.root hw, fun _ => (hw.stack hg.stack).own, fun _ x hx => ?_,
    fun hnone hn => .inl ((hfits hn).mp hnone), fun argc sp hsome => ?_⟩
  · obtain ⟨hu, hb⟩ := hg.segments x hx
    have hlt := hx.trans_le (npages_le h.build.size)
    rw [UserPage, hpte, hsame x ⟨hlt, hu.1⟩ (by simp only [PGSIZE] at *; omega)]
    exact ⟨hu, hb⟩
  · obtain ⟨hargc, hstk⟩ := hdone argc sp hsome
    refine ⟨rfl, hargc, fun hn => not_lt.mp fun hlt => ?_, ?_, ?_, hstk⟩
    · rw [(hfits hn).mpr hlt] at hsome
      cases hsome
    · rw [hpte]
      exact hg.guard.1
    · rw [hpte]
      exact hg.guard.2

end Xv6
