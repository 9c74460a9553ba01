import Mathlib.Data.List.TakeWhile
import Xv6.Pressure
import Xv6.Lib.Parts
import Xv6.Kexec

/-!
# `exec` is all or nothing

`kexec` with its file, its transaction and its exits, and `sys_exec` around it. On its memory the
call does what `kexec` of `Exec.lean` does.
-/

open Xv6.Lib Op Radix

namespace Xv6.Exec

/-! ## The file and the log -/

/-- What the call takes besides memory, with the pages that `sys_exec` gets from `kalloc` and those it gives to `kfree`. -/
structure Side where
  -- `log.outstanding`
  outstanding : Int
  -- `ip->ref` and `ip->lock.locked`
  ref : Nat → Int
  locked : Nat → Bool
  got : List Nat
  gave : List Nat

abbrev M := Op (Kernel × Side)

def begin_op : Op Side Unit := Op.update fun u => { u with outstanding := u.outstanding + 1 }

def end_op : Op Side Unit := Op.update fun u => { u with outstanding := u.outstanding - 1 }

def setref (ip : Nat) (n : Int) : Op Side Unit :=
  Op.update fun u => { u with ref := fun k => if k = ip then n else u.ref k }

def setlocked (ip : Nat) (b : Bool) : Op Side Unit :=
  Op.update fun u => { u with locked := fun k => if k = ip then b else u.locked k }

def namei (file : Option (Nat × List Byte)) : Op Side (Option (Nat × List Byte)) :=
  match file with
  | none => pure none
  | some (ip, data) => do
    let n ← Op.gets (·.ref ip)
    setref ip (n + 1)
    pure (some (ip, data))

def ilock (ip : Nat) : Op Side Unit := do
  let n ← Op.gets (·.ref ip)
  if n < 1 then Op.stop "ilock" else setlocked ip true

-- The blocks of a file without links are freed by `iput`. They are not part of the state.
def iunlockput (ip : Nat) : Op Side Unit := do
  let held ← Op.gets (·.locked ip)
  let n ← Op.gets (·.ref ip)
  if !held ∨ n < 1 then Op.stop "iunlock"
  else do
    setlocked ip false
    setref ip (n - 1)

/-! ## `kexec` -/

variable [Image]

def bad (pagetable : Option (Nat × Nat)) (ip : Option Nat) : M Int := do
  match pagetable with
  | some (pagetable, sz) => Op.left (proc_freepagetable pagetable sz)
  | none => pure ()
  match ip with
  | some ip => do
    Op.right (iunlockput ip)
    Op.right end_op
  | none => pure ()
  pure (-1)

def kexec (i : Nat) (path : List Byte) (file : Option (Nat × List Byte)) (argv : List (List Byte)) :
    M Int := do
  Op.right begin_op
  let r ← Op.right (namei file)
  match r with
  | none => do
    Op.right end_op
    pure (-1)
  | some (ip, data) => do
    Op.right (ilock ip)
    let bs := readi data 0 ELFHDR_SIZE
    let elf := elfhdr bs
    if bs.length ≠ ELFHDR_SIZE then bad none (some ip)
    else if elf.magic ≠ ELF_MAGIC then bad none (some ip)
    else do
      let r ← Op.left (proc_pagetable i)
      match r with
      | none => bad none (some ip)
      | some pagetable => do
        let (ok, sz) ← Op.left (kexec_load pagetable data elf.phnum elf.phoff 0)
        if !ok then bad (some (pagetable, sz)) (some ip)
        else do
          Op.right (iunlockput ip)
          Op.right end_op
          let p ← Op.left (getProc i)
          let (r, sz) ← Op.left (kexec_stack i pagetable argv sz)
          match r with
          | none => bad (some (pagetable, sz)) none
          | some (argc, sp) => do
            Op.left (store64 (p.trapframe + TF_A1) (BitVec.ofNat 64 sp))
            Op.left (modifyProc i fun p => { p with
              name := safestrcpy (basename path) 16, pagetable := pagetable, sz := sz })
            Op.left (store64 (p.trapframe + TF_EPC) (BitVec.ofNat 64 elf.entry))
            Op.left (store64 (p.trapframe + TF_SP) (BitVec.ofNat 64 sp))
            Op.left (proc_freepagetable p.pagetable p.sz)
            pure argc

/-! ## `sys_exec` -/

abbrev MAXPATH : Nat := 128

def fetchaddr (i addr : Nat) : K (Option Nat) := do
  let p ← getProc i
  if addr ≥ p.sz ∨ (addr + 8) % 2 ^ 64 > p.sz then pure none
  else do
    let (r, bs) ← copyin i p.pagetable addr 8
    if r ≠ 0 then pure none else pure (some (field bs 0 8))

def fetchstr (i addr max : Nat) : K (Int × List Byte) := do
  let p ← getProc i
  let (r, bs) ← copyinstr p.pagetable addr max
  if r < 0 then pure (-1, bs) else pure ((bs.takeWhile (· ≠ 0)).length, bs)

/-- The loop over `uargv`, with the room left in `argv`. Every argument is a page and the string that was
copied to it. False is `goto bad`. -/
def fetchargs (i uargv : Nat) : Nat → List (Nat × List Byte) → M (Bool × List (Nat × List Byte))
  | 0, argv => pure (false, argv)
  | n + 1, argv => do
    let uarg ← Op.left (fetchaddr i ((uargv + 8 * argv.length) % 2 ^ 64))
    match uarg with
    | none => pure (false, argv)
    | some uarg =>
      if uarg = 0 then pure (true, argv)
      else do
        let r ← Op.left kalloc
        match r with
        | none => pure (false, argv)
        | some p => do
          Op.right (Op.update fun u => { u with got := u.got ++ [p] })
          let (r, bs) ← Op.left (fetchstr i uarg PGSIZE)
          Op.left (blit p bs)
          let argv := argv ++ [(p, bs.takeWhile (· ≠ 0))]
          if r < 0 then pure (false, argv) else fetchargs i uargv n argv

def freeargs : List Nat → M Unit
  | [] => pure ()
  | p :: pages => do
    Op.left (kfree p)
    Op.right (Op.update fun u => { u with gave := u.gave ++ [p] })
    freeargs pages

-- `file` is what `namei` finds at a path.
def sys_exec (i : Nat) (file : List Byte → Option (Nat × List Byte)) : M Int := do
  let p ← Op.left (getProc i)
  let uargv ← Op.left (load64 (p.trapframe + TF_A1))
  let a0 ← Op.left (load64 (p.trapframe + TF_A0))
  let (r, bs) ← Op.left (fetchstr i a0.toNat MAXPATH)
  if r < 0 then pure (-1)
  else do
    let path := bs.takeWhile (· ≠ 0)
    let (ok, argv) ← fetchargs i uargv.toNat MAXARG []
    if !ok then do
      freeargs (argv.map (·.1))
      pure (-1)
    else do
      let ret ← kexec i path (file path) (argv.map (·.2))
      freeargs (argv.map (·.1))
      pure ret

/-! ## The same call on memory -/

section follows
variable {i ip : Nat} {u : Side} {s : Kernel} {path data : List Byte} {argv : List (List Byte)}

def locking (u : Side) (ip : Nat) : Side :=
  { u with
    outstanding := u.outstanding + 1
    ref := fun k => if k = ip then u.ref ip + 1 else u.ref k
    locked := fun k => if k = ip then true else u.locked k }

omit [Image] in
theorem end_op_run : end_op { u with outstanding := u.outstanding + 1 } = .ok ((), u) := by
  simp [end_op]

omit [Image] in
theorem iunlockput_run (hr : 0 ≤ u.ref ip) (hl : u.locked ip = false) :
    iunlockput ip (locking u ip) = .ok ((), { u with outstanding := u.outstanding + 1 }) := by
  have href : (fun k => if k = ip then u.ref ip + 1 - 1 else if k = ip then u.ref ip + 1 else u.ref k) = u.ref := by
    funext k
    by_cases hk : k = ip <;> simp [hk]
  have hlocked : (fun k => if k = ip then false else if k = ip then true else u.locked k) = u.locked := by
    funext k
    by_cases hk : k = ip <;> simp [hk, hl]
  have hlt : ¬ u.ref ip + 1 < 1 := by omega
  simp only [iunlockput, locking, setlocked, setref]
  rw [run_bind (run_gets _), run_bind (run_gets _), if_neg (by simp [hlt]),
    run_bind (run_update _), run_update]
  simp only [href, hlocked, if_true]

theorem bad_unlock (hr : 0 ≤ u.ref ip) (hl : u.locked ip = false) :
    Op.Follows (bad none (some ip)) (pure (-1)) (s, locking u ip) (· = u) :=
  .right (iunlockput_run hr hl) (.right end_op_run (.pure rfl))

theorem bad_free {pagetable sz : Nat} : Op.Follows (bad (some (pagetable, sz)) none)
    (do proc_freepagetable pagetable sz; pure (-1)) (s, u) (· = u) :=
  .left fun _ _ _ => .pure rfl

theorem bad_free_unlock {pagetable sz : Nat} (hr : 0 ≤ u.ref ip) (hl : u.locked ip = false) :
    Op.Follows (bad (some (pagetable, sz)) (some ip)) (do proc_freepagetable pagetable sz; pure (-1))
      (s, locking u ip) (· = u) :=
  .left fun _ _ _ => .right (iunlockput_run hr hl) (.right end_op_run (.pure rfl))

/-- On memory `kexec` does what it does without its file, and the file and the log are as before. -/
theorem kexec_follows {file : Option (Nat × List Byte)}
    (hfile : ∀ ip data, file = some (ip, data) → 0 ≤ u.ref ip ∧ u.locked ip = false) :
    Op.Follows (kexec i path file argv) (Xv6.kexec i path (file.map (·.2)) argv) (s, u) (· = u) := by
  unfold kexec Xv6.kexec
  refine .right (run_update _) ?_
  cases file with
  | none =>
    refine .right rfl (.right end_op_run (.pure rfl))
  | some x =>
    obtain ⟨ip, data⟩ := x
    obtain ⟨hr, hl⟩ := hfile ip data rfl
    have hnamei : namei (some (ip, data)) { u with outstanding := u.outstanding + 1 } =
        .ok (some (ip, data), { locking u ip with locked := u.locked }) := rfl
    have hilock : ilock ip { locking u ip with locked := u.locked } = .ok ((), locking u ip) := by
      have hlt : ¬ u.ref ip + 1 < 1 := by omega
      simp only [ilock, locking, setlocked]
      rw [run_bind (run_gets _), if_neg (by simpa using hlt), run_update]
    refine .right hnamei (.right hilock ?_)
    refine .ite (fun _ => bad_unlock hr hl) fun _ => .ite (fun _ => bad_unlock hr hl) fun _ => ?_
    refine .left fun r t _ => ?_
    cases r with
    | none => exact bad_unlock hr hl
    | some pagetable =>
      refine .left fun res t₁ _ => ?_
      obtain ⟨ok, sz⟩ := res
      refine .ite (fun _ => bad_free_unlock hr hl) fun _ => ?_
      refine .right (iunlockput_run hr hl) (.right end_op_run (.left fun p t₂ _ => .left fun res t₃ _ => ?_))
      obtain ⟨top, sz'⟩ := res
      cases top with
      | none => exact bad_free
      | some x =>
        exact .left fun _ _ _ => .left fun _ _ _ => .left fun _ _ _ => .left fun _ _ _ => .left fun _ _ _ => .pure rfl

theorem kexec_of_mem {res : Int} {s' : Kernel} (href : 0 ≤ u.ref ip) (hlock : u.locked ip = false)
    (h : Xv6.kexec i path (some data) argv s = .ok (res, s')) :
    kexec i path (some (ip, data)) argv (s, u) = .ok (res, (s', u)) := by
  have hfollows : Op.Follows (kexec i path (some (ip, data)) argv) (Xv6.kexec i path (some data) argv) (s, u) (· = u) :=
    kexec_follows (by rintro _ _ ⟨⟩; exact ⟨href, hlock⟩)
  cases hexec : kexec i path (some (ip, data)) argv (s, u) with
  | error msg => cases h.symm.trans (hfollows.of_error hexec)
  | ok r =>
    obtain ⟨res', w, u'⟩ := r
    obtain ⟨hmem, hside⟩ := hfollows.of_ok hexec
    cases h.symm.trans hmem
    rw [show u' = u from hside]

end follows

/-! ## A call that fails -/

section fails
variable {n₀ i : Nat} {L : Prop} {C : Finset Nat} {s s' : Kernel}

/-- Process `i` and its memory are as before, and no page that was free is missing. -/
structure Untouched (i : Nat) (s s' : Kernel) : Prop where
  proc : s'.proc = s.proc
  entries : ∀ v < 512 ^ 3, pte s'.mem (s.proc i).pagetable v = pte s.mem (s.proc i).pagetable v
  pages : ∀ v < UPAGES, ∀ P, points (pte s.mem (s.proc i).pagetable v) = some P →
    ∀ k < PGSIZE, s'.mem (P + k) = s.mem (P + k)
  trapframe : ∀ k < PGSIZE, s'.mem ((s.proc i).trapframe + k) = s.mem ((s.proc i).trapframe + k)
  free : ∀ P ∈ s.freelist, P ∈ s'.freelist

theorem undone_untouched (h : Good s.stats.swap_outs L s C) (hi : i < NPROC) (hu : (s.proc i).state ≠ .UNUSED)
    (hd : Undone s.stats.swap_outs L False C s s') (hsw : s'.stats.swap_outs = s.stats.swap_outs) : Untouched i s s' := by
  have hleaf := hd.evolve.quiet rfl hsw
  have hbytes := hd.evolve.bytes rfl hsw
  have hroot := h.root_mem hi hu
  refine ⟨hd.fixed.proc, hleaf _ hroot, fun v hv P hP => ?_, ?_, fun P hP => ?_⟩
  · exact hbytes P (.inr ⟨_, hroot, v, hv, hP⟩)
  · exact hbytes _ (.inl (h.frame_mem hi hu))
  · -- Nothing refers to the page, before and after.
    obtain ⟨hpage, hzero⟩ := h.inv.books.free_ok P hP
    have hgoal : goal s'.mem (roots s.proc) (held s.proc C) = goal s.mem (roots s.proc) (held s.proc C) :=
      goal_congr hd.fixed.tables fun r hr v hv => hleaf r hr v (hv.trans UPAGES_lt)
    have hsame : refs s' P = refs s P := by
      rw [hd.sane.inv.books.exact P hpage, h.inv.books.exact P hpage, hgoal]
    refine (hd.retains P hpage (.inl hP)).resolve_right ?_
    omega

end fails

/-! ## The arguments -/

section args
variable {n₀ i : Nat} {L : Prop} {C : Finset Nat} {s s' : Kernel} {u u' : Side} {argv argv' : List (Nat × List Byte)}

omit [Image] in
theorem upto_nul_spec (bs : List Byte) :
    (upto_nul bs).1.length ≤ bs.length ∧ ((upto_nul bs).2 = true → 0 ∈ (upto_nul bs).1) := by
  induction bs with
  | nil => simp [upto_nul]
  | cons b bs ih =>
    rw [upto_nul]
    split_ifs with h0
    · simp
    · simp only [List.length_cons, List.mem_cons]
      exact ⟨by omega, fun hnul => .inr (ih.2 hnul)⟩

theorem copyinstr_loop_length {r fuel srcva max : Nat} {dst : List Byte} {res : Int × List Byte}
    (hrun : copyinstr_loop r fuel dst srcva max s = .ok (res, s')) :
    res.2.length ≤ dst.length + max ∧ (0 ≤ res.1 → 0 ∈ res.2) := by
  induction fuel generalizing s dst srcva max with
  | zero =>
    simp only [copyinstr_loop, pure_ok] at hrun
    rw [hrun.1]
    simp
  | succ fuel ih =>
    simp only [copyinstr_loop] at hrun
    split_ifs at hrun with hmax
    · rw [pure_ok] at hrun
      rw [hrun.1]
      simp
    · simp only [bind_ok] at hrun
      obtain ⟨pa, t, -, hrun⟩ := hrun
      split_ifs at hrun with h0
      · rw [pure_ok] at hrun
        rw [hrun.1]
        simp
      · simp only [bind_ok, gets_ok] at hrun
        obtain ⟨bs, t₁, ⟨hbs, -⟩, hrun⟩ := hrun
        obtain ⟨hlen, hnul⟩ := upto_nul_spec bs
        have hn : bs.length = min (PGSIZE - (srcva - PGROUNDDOWN srcva)) max := by
          rw [hbs]
          simp [Mem.slice]
        split_ifs at hrun with hend
        · rw [pure_ok] at hrun
          rw [hrun.1]
          simp only [List.length_append, List.mem_append]
          exact ⟨by omega, fun _ => .inr (hnul hend)⟩
        · obtain ⟨h1, h2⟩ := ih hrun
          rw [List.length_append] at h1
          exact ⟨by omega, h2⟩

theorem fetchstr_spec {addr max : Nat} {res : Int × List Byte} (hrun : fetchstr i addr max s = .ok (res, s')) :
    s' = s ∧ res.2.length ≤ max ∧ (0 ≤ res.1 → (res.2.takeWhile (· ≠ 0)).length < max) := by
  simp only [fetchstr, bind_ok, getProc, gets_ok] at hrun
  obtain ⟨_, _, ⟨rfl, rfl⟩, ⟨r, bs⟩, t, hcopy, hrun⟩ := hrun
  obtain rfl := (copyinstr_loop_ends (E := fun _ => True)).of_ok hcopy
  obtain ⟨hlen, hnul⟩ := copyinstr_loop_length hcopy
  simp only [List.length_nil, Nat.zero_add] at hlen
  split_ifs at hrun with hneg
  · rw [pure_ok] at hrun
    obtain ⟨rfl, rfl⟩ := hrun
    exact ⟨rfl, hlen, by simp⟩
  · rw [pure_ok] at hrun
    obtain ⟨rfl, rfl⟩ := hrun
    refine ⟨rfl, hlen, fun _ => lt_of_lt_of_le ?_ hlen⟩
    have hmem : 0 ∈ bs := hnul (by simpa using hneg)
    have hpre := List.takeWhile_prefix (l := bs) (fun b => decide (b ≠ 0))
    refine lt_of_le_of_ne hpre.length_le fun he => ?_
    have hall := List.takeWhile_eq_self_iff.mp (hpre.eq_of_length he)
    simpa using hall 0 hmem

/-- An argument that `sys_exec` passes on: a string without NUL that fits into a page with it. -/
def Built (argv : List (List Byte)) : Prop :=
  argv.length < MAXARG ∧ ∀ arg ∈ argv, arg.length < PGSIZE ∧ 0 ∉ arg

/-- The pages of the arguments so far are `sys_exec`'s own, besides the pages `C` of others. -/
structure Holding (n₀ : Nat) (L : Prop) (C : Finset Nat) (i : Nat) (pages : List Nat) (s : Kernel) : Prop where
  good : Good n₀ L s (pages.toFinset ∪ C)
  used : (s.proc i).state ≠ .UNUSED
  nodup : pages.Nodup
  fresh : ∀ p ∈ pages, p ∉ C

namespace Holding

variable {pages : List Nat}

theorem acts (h : Holding n₀ L C i pages s) (ha : Acts n₀ L (pages.toFinset ∪ C) i s s') :
    Holding n₀ L C i pages s' := ⟨ha.good, ha.used h.used, h.nodup, h.fresh⟩

theorem kalloc_none (h : Holding n₀ L C i pages s) (hrun : kalloc s = .ok (none, s')) :
    Holding n₀ L C i pages s' := by
  obtain ⟨hun, -⟩ := kalloc_spec h.good.inv h.good.procsIn hrun
  refine ⟨(kalloc_lasts (Z := False) h.good False.elim hrun).good, ?_, h.nodup, h.fresh⟩
  rw [hun.evolve.proc]
  exact h.used

theorem kalloc_some {p : Nat} (h : Holding n₀ L C i pages s) (hrun : kalloc s = .ok (some p, s')) :
    Holding n₀ L C i (pages ++ [p]) s' := by
  obtain ⟨hun, -, -, hsome⟩ := kalloc_spec h.good.inv h.good.procsIn hrun
  have hnot := (hsome p rfl).1
  rw [held, Finset.mem_union, not_or, Finset.mem_union, not_or, List.mem_toFinset] at hnot
  have hset : (pages ++ [p]).toFinset ∪ C = insert p (pages.toFinset ∪ C) := by
    ext x
    simp only [Finset.mem_union, List.mem_toFinset, List.mem_append, List.mem_singleton, Finset.mem_insert]
    tauto
  refine ⟨?_, ?_, ?_, ?_⟩
  · rw [hset]
    exact (kalloc_lasts (Z := False) h.good False.elim hrun).good
  · rw [hun.evolve.proc]
    exact h.used
  · rw [List.nodup_append_comm]
    exact List.nodup_cons.mpr ⟨hnot.2.1, h.nodup⟩
  · intro x hx
    rcases List.mem_append.mp hx with hx | hx
    · exact h.fresh x hx
    · rw [List.mem_singleton.mp hx]
      exact hnot.2.2

theorem blit {p : Nat} {bs : List Byte} {v : Unit} (h : Holding n₀ L C i pages s) (hp : p ∈ pages)
    (hlen : bs.length ≤ PGSIZE) (hrun : blit p bs s = .ok (v, s')) : Holding n₀ L C i pages s' := by
  have hmem : p ∈ pages.toFinset ∪ C := Finset.mem_union_left C (List.mem_toFinset.mpr hp)
  refine ⟨(blit_lasts (Z := False) h.good False.elim hmem (show 0 + bs.length ≤ PGSIZE by omega) hrun).good, ?_, h.nodup, h.fresh⟩
  rw [blit_ok.mp hrun]
  exact h.used

theorem fetchaddr {addr : Nat} {res : Option Nat} (h : Holding n₀ L C i pages s) (hi : i < NPROC)
    (hrun : fetchaddr i addr s = .ok (res, s')) : Holding n₀ L C i pages s' := by
  simp only [Exec.fetchaddr, bind_ok, getProc, gets_ok] at hrun
  obtain ⟨_, _, ⟨rfl, rfl⟩, hrun⟩ := hrun
  split_ifs at hrun with hout
  · rw [(pure_ok.mp hrun).2]
    exact h
  · obtain ⟨⟨r, bs⟩, t, hcopy, hrun⟩ := (bind_ok _ _).mp hrun
    have ht := h.acts ((copyin_does (Z := False) (E := fun _ => True) h.good False.elim hi h.used).of_ok hcopy).toActs
    have hend : s' = t := by
      split_ifs at hrun
      · exact (pure_ok.mp hrun).2
      · exact (pure_ok.mp hrun).2
    rwa [hend]

theorem kfree {p : Nat} {v : Unit} (h : Holding n₀ L C i (p :: pages) s) (hrun : kfree p s = .ok (v, s')) :
    Holding n₀ L C i pages s' := by
  have hmem : p ∈ (p :: pages).toFinset ∪ C := by simp
  have hset : ((p :: pages).toFinset ∪ C).erase p = pages.toFinset ∪ C := by
    have hp := h.fresh p List.mem_cons_self
    have hp' := (List.nodup_cons.mp h.nodup).1
    ext x
    simp only [Finset.mem_erase, Finset.mem_union, List.mem_toFinset, List.mem_cons]
    constructor
    · tauto
    · intro hx
      exact ⟨fun he => by rw [he] at hx; tauto, by tauto⟩
  have hgood := (kfree_lasts (Z := False) h.good False.elim hmem hrun).good
  rw [hset] at hgood
  refine ⟨hgood, ?_, (List.nodup_cons.mp h.nodup).2, fun x hx => h.fresh x (List.mem_cons_of_mem p hx)⟩
  rw [(kfree_ok hrun).2.2, freed_proc]
  exact h.used

end Holding

/-- What the loop over `uargv` leaves: the pages that it got, and on success a string that fits in each. -/
structure Fetched (n₀ : Nat) (L : Prop) (C : Finset Nat) (i n : Nat) (argv argv' : List (Nat × List Byte)) (u u' : Side)
    (ok : Bool) (s' : Kernel) : Prop where
  holding : Holding n₀ L C i (argv'.map (·.1)) s'
  pages : ∃ qs, argv'.map (·.1) = argv.map (·.1) ++ qs ∧ u' = { u with got := u.got ++ qs }
  length : ok = true → argv'.length < argv.length + n
  strings : ok = true → (∀ a ∈ argv, a.2.length < PGSIZE ∧ 0 ∉ a.2) → ∀ a ∈ argv', a.2.length < PGSIZE ∧ 0 ∉ a.2

theorem Fetched.stop {n : Nat} (h : Holding n₀ L C i (argv.map (·.1)) s) :
    Fetched n₀ L C i n argv argv u u false s := by
  refine ⟨h, ⟨[], by simp, by simp⟩, (by simp), (by simp)⟩

theorem fetchargs_spec {uargv n : Nat} {ok : Bool} {t t' : Kernel × Side} (hi : i < NPROC)
    (h : Holding n₀ L C i (argv.map (·.1)) t.1) (hrun : fetchargs i uargv n argv t = .ok ((ok, argv'), t')) :
    Fetched n₀ L C i n argv argv' t.2 t'.2 ok t'.1 := by
  induction n generalizing argv t with
  | zero =>
    rw [fetchargs, pure_ok, Prod.mk.injEq] at hrun
    obtain ⟨⟨rfl, rfl⟩, rfl⟩ := hrun
    exact .stop h
  | succ n ih =>
    rw [fetchargs, bind_ok] at hrun
    obtain ⟨uarg, t₁, haddr, hrun⟩ := hrun
    obtain ⟨haddr, hu₁⟩ := left_ok.mp haddr
    have h₁ := h.fetchaddr hi haddr
    rw [← hu₁]
    cases uarg with
    | none =>
      rw [pure_ok, Prod.mk.injEq] at hrun
      obtain ⟨⟨rfl, rfl⟩, rfl⟩ := hrun
      exact .stop h₁
    | some uarg =>
      simp only at hrun
      split_ifs at hrun with h0
      · rw [pure_ok, Prod.mk.injEq] at hrun
        obtain ⟨⟨rfl, rfl⟩, rfl⟩ := hrun
        exact ⟨h₁, ⟨[], by simp, by simp⟩, fun _ => by omega, fun _ hstr => hstr⟩
      · obtain ⟨r, t₂, halloc, hrun⟩ := (bind_ok _ _).mp hrun
        obtain ⟨halloc, hu₂⟩ := left_ok.mp halloc
        rw [← hu₂]
        cases r with
        | none =>
          rw [pure_ok, Prod.mk.injEq] at hrun
          obtain ⟨⟨rfl, rfl⟩, rfl⟩ := hrun
          exact .stop (h₁.kalloc_none halloc)
        | some p =>
          simp only [bind_ok, left_ok, right_ok, update_ok] at hrun
          obtain ⟨_, t₃, ⟨hgot, hk₃⟩, ⟨r, bs⟩, t₄, ⟨hstr, hu₄⟩, _, t₅, ⟨hblit, hu₅⟩, hrun⟩ := hrun
          obtain ⟨hk₄, hlen, hfit⟩ := fetchstr_spec hstr
          have h₂ := h₁.kalloc_some halloc
          rw [← hk₃, ← hk₄] at h₂
          have h₅ := h₂.blit (by simp) hlen hblit
          have hside : t₅.2 = { t₂.2 with got := t₂.2.got ++ [p] } := by rw [hu₅, hu₄, hgot]
          have hpages : (argv ++ [(p, bs.takeWhile (· ≠ 0))]).map (·.1) = argv.map (·.1) ++ [p] := by simp
          split_ifs at hrun with hneg
          · rw [pure_ok, Prod.mk.injEq] at hrun
            obtain ⟨⟨rfl, rfl⟩, rfl⟩ := hrun
            rw [← hpages] at h₅
            exact ⟨h₅, ⟨[p], hpages, hside⟩, (by simp), (by simp)⟩
          · rw [← hpages] at h₅
            obtain ⟨hhold, ⟨qs, hqs, hu'⟩, hlength, hstrings⟩ := ih h₅ hrun
            refine ⟨hhold, ⟨p :: qs, ?_, ?_⟩, fun hok => ?_, fun hok hall => hstrings hok ?_⟩
            · rw [hqs, hpages, List.append_assoc, List.singleton_append]
            · rw [hu', hside]
              simp
            · have := hlength hok
              simp only [List.length_append, List.length_singleton] at this
              omega
            · intro a ha
              rcases List.mem_append.mp ha with ha | ha
              · exact hall a ha
              · rw [List.mem_singleton.mp ha]
                refine ⟨hfit (by simpa using hneg), fun hzero => ?_⟩
                simpa using List.mem_takeWhile_imp hzero

theorem freeargs_spec {pages : List Nat} {v : Unit} {t t' : Kernel × Side} (h : Holding n₀ L C i pages t.1)
    (hrun : freeargs pages t = .ok (v, t')) :
    Good n₀ L t'.1 C ∧ t'.2 = { t.2 with gave := t.2.gave ++ pages } := by
  induction pages generalizing t with
  | nil =>
    rw [freeargs, pure_ok] at hrun
    rw [hrun.2]
    refine ⟨?_, by simp⟩
    have := h.good
    rwa [List.toFinset_nil, Finset.empty_union] at this
  | cons p pages ih =>
    simp only [freeargs, bind_ok, left_ok, right_ok, update_ok] at hrun
    obtain ⟨_, t₁, ⟨hfree, hu₁⟩, _, t₂, ⟨hgave, hk₂⟩, hrun⟩ := hrun
    have h₁ := h.kfree hfree
    rw [← hk₂] at h₁
    obtain ⟨hgood, hu'⟩ := ih h₁ hrun
    refine ⟨hgood, ?_⟩
    rw [hu', hgave, hu₁]
    simp

theorem Holding.of_good (h : Good n₀ L s C) (hu : (s.proc i).state ≠ .UNUSED) : Holding n₀ L C i [] s := by
  refine ⟨?_, hu, List.nodup_nil, fun p hp => absurd hp List.not_mem_nil⟩
  rwa [List.toFinset_nil, Finset.empty_union]

theorem fetchargs_built {uargv : Nat} {t' : Kernel × Side} (h : Good n₀ L s C) (hi : i < NPROC)
    (hu : (s.proc i).state ≠ .UNUSED) (hrun : fetchargs i uargv MAXARG [] (s, u) = .ok ((true, argv), t')) :
    Built (argv.map (·.2)) := by
  have hstart : Holding n₀ L C i (([] : List (Nat × List Byte)).map (·.1)) (s, u).1 := .of_good h hu
  have hf := fetchargs_spec hi hstart hrun
  refine ⟨by simpa using hf.length rfl, ?_⟩
  intro arg harg
  obtain ⟨a, ha, rfl⟩ := List.mem_map.mp harg
  exact hf.strings rfl (fun _ hnone => absurd hnone List.not_mem_nil) a ha

theorem sys_exec_spec {file : List Byte → Option (Nat × List Byte)} {res : Int} {t' : Kernel × Side} (h : Good n₀ L s C)
    (hi : i < NPROC) (hu : (s.proc i).state ≠ .UNUSED)
    (hfile : ∀ path ip data, file path = some (ip, data) → 0 ≤ u.ref ip ∧ u.locked ip = false)
    (hrun : sys_exec i file (s, u) = .ok (res, t')) :
    ∃ pages, pages.Nodup ∧ t'.2 = { u with got := u.got ++ pages, gave := u.gave ++ pages } ∧ Good n₀ L t'.1 C := by
  simp only [sys_exec, bind_ok, left_ok, getProc, load64, gets_ok] at hrun
  obtain ⟨_, t₁, ⟨⟨rfl, hk₁⟩, hu₁⟩, _, t₂, ⟨⟨rfl, hk₂⟩, hu₂⟩, _, t₃, ⟨⟨rfl, hk₃⟩, hu₃⟩, ⟨r, bs⟩, t₄, ⟨hpath, hu₄⟩, hrun⟩ :=
    hrun
  have hk₄ : t₄.1 = s := by rw [(fetchstr_spec hpath).1, hk₃, hk₂, hk₁]
  replace hu₄ : t₄.2 = u := by rw [hu₄, hu₃, hu₂, hu₁]
  split_ifs at hrun with hneg
  · rw [(pure_ok.mp hrun).2]
    refine ⟨[], List.nodup_nil, by simp [hu₄], ?_⟩
    rwa [hk₄]
  · obtain ⟨⟨ok, argv⟩, t₅, hargs, hrun⟩ := (bind_ok _ _).mp hrun
    rw [← hk₄] at h hu
    have hf := fetchargs_spec hi (Holding.of_good h hu) hargs
    obtain ⟨pages, hpages, hu₅⟩ := hf.pages
    rw [List.map_nil, List.nil_append] at hpages
    rw [hu₄] at hu₅
    have hhold := hf.holding
    rw [hpages] at hhold
    cases ok with
    | false =>
      simp only [Bool.not_false, if_true, bind_ok, pure_ok] at hrun
      obtain ⟨_, t₆, hfree, -, rfl⟩ := hrun
      rw [hpages] at hfree
      obtain ⟨hgood, hu₆⟩ := freeargs_spec hhold hfree
      exact ⟨pages, hhold.nodup, by rw [hu₆, hu₅], hgood⟩
    | true =>
      simp only [Bool.not_true, Bool.false_eq_true, if_false, bind_ok, pure_ok] at hrun
      obtain ⟨ret, t₆, hexec, _, t₇, hfree, -, rfl⟩ := hrun
      rw [hpages] at hfree
      obtain ⟨hmem, hu₆⟩ := (kexec_follows (by
        intro ip data hip
        rw [hu₅]
        exact hfile _ ip data hip)).of_ok hexec
      have h₆ := hhold.acts (kexec_acts hhold.good hi hhold.used hmem)
      obtain ⟨hgood, hu₇⟩ := freeargs_spec h₆ hfree
      exact ⟨pages, hhold.nodup, by rw [hu₇, hu₆, hu₅], hgood⟩

/-- Wherever `kalloc` fails, `kexec` reaches no panic of its own or of `vm.c`, leaves its file and the log as they were, and
a call that returns -1 has changed nothing. `sys_exec` frees each page of the arguments once. -/
theorem exec_all_or_nothing {file : List Byte → Option (Nat × List Byte)} (h : Good n₀ L s C) (hi : i < NPROC)
    (hu : (s.proc i).state ≠ .UNUSED)
    (hfile : ∀ path ip data, file path = some (ip, data) → 0 ≤ u.ref ip ∧ u.locked ip = false) :
    (∀ path argv, Built argv →
      (∀ msg, kexec i path (file path) argv (s, u) = .error msg → msg ∉ vmPanics) ∧
      ∀ res s' u', kexec i path (file path) argv (s, u) = .ok (res, (s', u')) → u' = u ∧
        (res = -1 → NoTableLeaf s (roots s.proc) → s'.stats.swap_outs = s.stats.swap_outs → Untouched i s s')) ∧
    (∀ uargv argv t', fetchargs i uargv MAXARG [] (s, u) = .ok ((true, argv), t') → Built (argv.map (·.2))) ∧
    ∀ res s' u', sys_exec i file (s, u) = .ok (res, (s', u')) →
      ∃ pages, pages.Nodup ∧ u' = { u with got := u.got ++ pages, gave := u.gave ++ pages } := by
  refine ⟨fun path argv hbuilt => ⟨fun msg hstop => ?_, fun res s' u' hrun => ?_⟩,
    fun uargv argv t' hrun => fetchargs_built h hi hu hrun, fun res s' u' hrun => ?_⟩
  · have hmem := (kexec_follows (hfile path)).of_error hstop
    exact ((kexec_ends h False.elim hi hu fun arg harg => (hbuilt.2 arg harg).1.trans (by decide)).of_error hmem).elsewhere
  · obtain ⟨hmem, hside⟩ := (kexec_follows (hfile path)).of_ok hrun
    refine ⟨hside, fun hres hno hsw => ?_⟩
    have hbase := h.rebase hno s.stats.swap_outs
    rcases (kexec_ends hbase False.elim hi hu fun arg harg => (hbuilt.2 arg harg).1.trans (by decide)).of_ok hmem with
      ⟨-, hundone⟩ | hdone
    · exact undone_untouched hbase hi hu hundone hsw
    · exact absurd hres hdone.done
  · obtain ⟨pages, hnodup, hside, -⟩ := sys_exec_spec h hi hu hfile hrun
    exact ⟨pages, hnodup, hside⟩

def idleSide : Side := ⟨0, fun _ => 0, fun _ => false, [], []⟩

omit [Image] in
/-- There is no memory for the stack above the seven pages of the program. -/
theorem exec_all_or_nothing_seven : ∃ y s', @run smallImage [.userinit, .schedule 0 .RUNNING] bootSystem = some y ∧
    y.kernel.kalloc_failures < s'.kalloc_failures ∧ @kexec smallImage 0 [] (some (1, sevenPages)) [[0x61]]
      (y.kernel, idleSide) = .ok (-1, (s', idleSide)) ∧ Untouched 0 y.kernel s' := by
  have heval : ((@run smallImage [.userinit, .schedule 0 .RUNNING] bootSystem).bind fun y =>
      (@Xv6.kexec smallImage 0 [] (some sevenPages) [[0x61]] y.kernel).toOption.map fun x =>
        decide ((y.kernel.proc 0).state = .RUNNING ∧ y.kernel.stats.swap_outs = 0 ∧ x.2.stats.swap_outs = 0 ∧
          x.1 = -1 ∧ y.kernel.kalloc_failures < x.2.kalloc_failures)) = some true := by
    simp only [Xv6.kexec, proc_freepagetable, uvmfree, freewalk_eq]
    decide +kernel
  obtain ⟨y, hy, heval⟩ := Option.bind_eq_some_iff.mp heval
  obtain ⟨⟨res, s'⟩, hmem, hval⟩ := Option.map_eq_some_iff.mp heval
  rw [toOption_eq_some] at hmem
  obtain ⟨hstate, hsw, hsw', rfl, hfail⟩ := of_decide_eq_true hval
  let : Image := smallImage
  have hgood := bootSystem_booted.run_good hy
  have hno : NoTableLeaf y.kernel (roots y.kernel.proc) := hgood.inv.noTableLeaf hsw.le
  have hrun : kexec 0 [] (some (1, sevenPages)) [[0x61]] (y.kernel, idleSide) = .ok (-1, (s', idleSide)) :=
    kexec_of_mem (le_refl 0) rfl hmem
  have hall := @exec_all_or_nothing smallImage 0 0 False _ y.kernel idleSide (fun _ => some (1, sevenPages)) hgood
    (by decide) (by rw [hstate]; simp) (by rintro _ ip _ -; exact ⟨le_refl 0, rfl⟩)
  refine ⟨y, s', hy, hfail, hrun, ((hall.1 [] [[0x61]] ⟨by decide, by decide⟩).2 _ _ _ hrun).2 rfl hno ?_⟩
  rw [hsw, hsw']

end args

end Xv6.Exec
