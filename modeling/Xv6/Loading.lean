import Xv6.Calls
import Xv6.Exec
import Xv6.Frame
import Xv6.Umem

/-!
# Loading a program

The tree that `kexec` builds belongs to no process until it is complete. So its pages stay in memory, and its bytes are
those that the program headers describe.
-/

open Xv6.Lib Op Radix

namespace Xv6

variable [Image] {n₀ : Nat} {L Z : Prop} {E : String → Prop} {s s' t : Kernel} {T H C : Finset Nat}
  {r q n v va p P i : Nat} {e : Pte}

/-! ## Bytes of the new tree -/

structure Wrote (n₀ : Nat) (L : Prop) (T H : Finset Nat) (r : Nat) (s t : Kernel) : Prop where
  grown : Grown n₀ L T H r s t
  off : Off T s.mem t.mem
  count : t.count = s.count
  free : t.freelist = s.freelist
  stats : t.stats = s.stats
  swap : t.swap = s.swap

namespace Wrote

theorem refl (h : Inv n₀ L s T H) (hr : r ∈ T) : Wrote n₀ L T H r s s :=
  ⟨h.grown hr (Evolve.refl s), .refl _, rfl, rfl, rfl, rfl⟩

theorem trans (h : Wrote n₀ L T H r s t) (h' : Wrote n₀ L T H r t s') : Wrote n₀ L T H r s s' :=
  ⟨h.grown.trans h'.grown, h.off.trans h'.off, h'.count.trans h.count, h'.free.trans h.free,
    h'.stats.trans h.stats, h'.swap.trans h.swap⟩

variable (h : Wrote n₀ L T H r s t) (hr : r ∈ T)
include h

theorem sheds : Sheds T s t := .of_off h.off h.swap

include hr

theorem only : Only T r ∅ s t := .of_off hr h.off h.grown.evolve.proc (by rw [h.stats])

theorem own (hp : Private s r) : Private t r := by
  intro v hv P hP
  rw [h.off.pte hr] at hP ⊢
  simp only [refs, h.count]
  exact hp v hv P hP

theorem bound (hb : Bound s.mem r n) : Bound t.mem r n := by
  intro v hv hp
  rw [h.off.pte hr] at hp
  exact hb v hv hp

end Wrote

theorem Inv.wrote {bs : List Byte} {k : Nat} (h : Inv n₀ L s T H) (hr : r ∈ T) (hv : v < UPAGES)
    (hp : points (pte s.mem r v) = some P) (h1 : refs s P = 1) (hlen : k + bs.length ≤ PGSIZE)
    (ht : t = { s with mem := s.mem.blit (P + k) bs }) : Wrote n₀ L T H r s t := by
  have hm : OnPage P s.mem t.mem := by
    rw [ht]
    exact OnPage.blit hlen
  obtain ⟨hinv, hev, hoff⟩ := h.write_own (h.page_leaf hr hv hp)
    (fun x hx => h.only_leaf hr hv hp h1.le hx) hm (by rw [ht]) (by rw [ht]) (by rw [ht]) (by rw [ht])
  exact ⟨⟨hinv, hev, fun v _ _ => hoff.pte hr v⟩, hoff, by rw [ht], by rw [ht], by rw [ht], by rw [ht]⟩

omit [Image] in
theorem flags2perm_has (flags : Nat) : Small (flags2perm flags) ∧
    has (flags2perm flags) PTE_SWAPPED = false ∧ has (flags2perm flags) PTE_COW = false := by
  unfold flags2perm
  split_ifs <;> decide

structure Building (s : Kernel) (r sz : Nat) : Prop where
  size : sz ≤ TRAPFRAME
  bound : Bound s.mem r (npages sz)
  own : Private s r

/-! ## No page is lost -/

def Retains (s s' : Kernel) : Prop :=
  ∀ P, Page P → P ∈ s.freelist ∨ 0 < refs s P → P ∈ s'.freelist ∨ 0 < refs s' P

instance : IsPreorder Kernel Retains where
  refl _ _ _ h := h
  trans _ _ _ h h' P hP hs := h' P hP (h P hP hs)

theorem Retains.of_eq (hc : s'.count = s.count) (hf : s'.freelist = s.freelist) : Retains s s' := by
  intro Q _ hQ
  rw [hf]
  simpa only [refs, hc] using hQ

theorem freed_retains (hP : Page P) : Retains s (freed P s) := by
  intro Q hQ hs
  rw [freed_refs hP hQ, freed_freelist]
  by_cases h1 : refs s P = 1
  · rw [if_pos h1, List.mem_cons]
    by_cases hQP : Q = P
    · exact .inl (.inl hQP)
    · rw [if_neg hQP]
      exact hs.imp_left .inr
  · rw [if_neg h1]
    by_cases hQP : Q = P
    · subst hQP
      rw [if_pos rfl]
      exact hs.imp_right fun h0 => by omega
    · rwa [if_neg hQP]

theorem taken_retains {rest : List Nat} (hf : s.freelist = p :: rest) : Retains s (taken p rest s) := by
  intro Q _ hs
  by_cases hidx : (Q - KERNBASE) / PGSIZE = (p - KERNBASE) / PGSIZE
  · right
    simp only [refs, taken, hidx, if_true]
    decide
  · rw [hf, List.mem_cons] at hs
    simp only [refs, taken, if_neg hidx]
    refine hs.imp_left fun hin => hin.resolve_left ?_
    rintro rfl
    exact hidx rfl

theorem krefinc_retains (pa : Nat) : Keeps Retains (krefinc pa) := by
  intro s u s' h
  rw [krefinc_ok h]
  intro Q _ hQ
  refine hQ.imp_right fun hpos => ?_
  unfold refs at *
  dsimp only
  split_ifs with heq
  · rw [heq] at hpos
    omega
  · exact hpos

theorem swapout_retains (pagetable va : Nat) : Keeps Retains (swapout pagetable va) := by
  intro s res s' h
  rcases swapout_ok h with ⟨-, rfl⟩ | ⟨-, -, q, k, -, -, -, hP, t, ht, rfl⟩
  · exact refl _
  · have hst : Retains s t := by
      rw [ht]
      exact .of_eq rfl rfl
    exact trans_of Retains (trans_of Retains hst (freed_retains hP)) (.of_eq rfl rfl)

theorem Retains.forks : Forks Retains where
  write := fun _ _ => .of_eq rfl rfl
  take := by
    intro s r s' h
    rcases kalloc_ok h with ⟨p, rest, hf, -, rfl⟩ | ⟨-, v, t, hvictim, hend⟩
    · exact taken_retains hf
    · refine trans_of Retains (victim_keeps swapout_retains _ _ _ hvictim) ?_
      rcases hend with ⟨-, -, rfl⟩ | ⟨-, p, rest, hf, -, rfl⟩
      · exact .of_eq rfl rfl
      · exact taken_retains hf
  give := by
    intro pa s u s' h
    obtain ⟨hP, -, rfl⟩ := kfree_ok h
    exact freed_retains hP
  block := fun k => .ite (.stop _) (.bind (.gets _) fun sw => .ite (.update fun _ => .of_eq rfl rfl) (.stop _))
  raise := krefinc_retains
  stats := fun _ _ _ _ => .of_eq rfl rfl
  procs := fun _ _ _ => .of_eq rfl rfl

/-! ## Segments -/

def UserPage (m : Mem) (r v : Nat) : Prop := has (pte m r v) PTE_V = true ∧ has (pte m r v) PTE_U = true

theorem UserPage.walkaddr_run (hu : UserPage s.mem r (va / PGSIZE)) (hva : va < MAXVA) :
    walkaddr r va s = .ok (PTE2PA (pte s.mem r (va / PGSIZE)), s) := by
  rw [Xv6.walkaddr_run hva, if_pos ⟨hu.1, hu.2⟩]

omit [Image] in
theorem readi_eq {ip : List Byte} {off n : Nat} (h32 : off + n < 2 ^ 32) (hlen : (readi ip (off % 2 ^ 32) n).length = n) :
    readi ip (off % 2 ^ 32) n = (ip.drop off).take n := by
  rw [Nat.mod_eq_of_lt (by omega : off < 2 ^ 32), readi] at *
  split_ifs at * with hbad
  · rw [List.length_nil] at hlen
    simp [← hlen]
  · rfl

omit [Image] in
theorem Puts.page {ip bs : List Byte} {off sz k n : Nat} (h : Puts T r (va + k) bs s.mem t.mem) (hr : r ∈ T)
    (hn : n = if sz - k < PGSIZE then sz - k else PGSIZE) (hbs : bs = readi ip ((off + k) % 2 ^ 32) n)
    (hfull : bs.length = n) (h32 : off + sz < 2 ^ 32)
    (hlen : ((ip.drop (off + (k + PGSIZE))).take (sz - (k + PGSIZE))).length = sz - (k + PGSIZE))
    (h' : Puts T r (va + (k + PGSIZE)) ((ip.drop (off + (k + PGSIZE))).take (sz - (k + PGSIZE))) t.mem s'.mem) :
    ((ip.drop (off + k)).take (sz - k)).length = sz - k ∧
      Puts T r (va + k) ((ip.drop (off + k)).take (sz - k)) s.mem s'.mem := by
  have hread : bs = (ip.drop (off + k)).take n := by
    by_cases hk : k < sz
    · rw [hbs] at hfull ⊢
      exact readi_eq (by split_ifs at hn <;> omega) hfull
    · have hn0 : n = 0 := by rw [hn, Nat.sub_eq_zero_of_le (by omega), if_pos (by decide)]
      rw [hn0] at hfull ⊢
      exact List.eq_nil_of_length_eq_zero hfull
  split_ifs at hn with hlast
  · -- The last page.
    rw [Nat.sub_eq_zero_of_le (by omega), List.take_zero] at h'
    rw [← hn, ← hread]
    refine ⟨hfull, ?_⟩
    have hnil : Puts T r (va + k + bs.length) [] t.mem s'.mem := by
      refine ⟨h'.1, fun x hx => ?_⟩
      rw [h'.outside hx (by simp; omega), Mem.blit_of_outside (by simp; omega)]
    rw [← List.append_nil bs]
    exact h.append hnil hr
  · have hsplit : (ip.drop (off + k)).take (sz - k) = bs ++ (ip.drop (off + (k + PGSIZE))).take (sz - (k + PGSIZE)) := by
      rw [hread, hn, show sz - k = PGSIZE + (sz - (k + PGSIZE)) by omega, List.take_add, List.drop_drop, Nat.add_assoc]
    rw [hsplit]
    refine ⟨?_, h.append ?_ hr⟩
    · rw [List.length_append, hfull, hlen]
      omega
    · rwa [hfull, hn, Nat.add_assoc]

theorem loadseg_loop_ends {ip : List Byte} {off sz : Nat} (k : Nat) {i : Nat} (h : Inv n₀ L s T H) (hr : r ∈ T)
    (hpriv : Private s r) (hal : (va + i) % PGSIZE = 0) (hend : va + i + k * PGSIZE ≤ TRAPFRAME)
    (hu : ∀ v, (va + i) / PGSIZE ≤ v → v < (va + i) / PGSIZE + k → UserPage s.mem r v) :
    Ends (loadseg_loop r va ip off sz k i) s (fun res t => Wrote n₀ L T H r s t ∧
      (0 ≤ res → off + sz < 2 ^ 32 → sz ≤ i + k * PGSIZE → ((ip.drop (off + i)).take (sz - i)).length = sz - i ∧
        Puts T r (va + i) ((ip.drop (off + i)).take (sz - i)) s.mem t.mem)) E := by
  induction k generalizing s i with
  | zero =>
    refine ⟨.refl h hr, fun _ _ hle => ?_⟩
    rw [Nat.sub_eq_zero_of_le (by omega), List.take_zero]
    exact ⟨rfl, .nil s.mem⟩
  | succ k ih =>
    have hva : va + i < MAXVA := by
      simp only [PGSIZE, TRAPFRAME, TRAMPOLINE, MAXVA] at *
      omega
    have hpage := hu _ (Nat.le_refl _) (by omega)
    have hv := h.user_of_U hr (page_number_lt hva) hpage.2
    have hp := points_some hpage.1
    have hne := (h.page_leaf hr hv hp).ne_zero
    obtain ⟨n, hn⟩ : ∃ n, n = if sz - i < PGSIZE then sz - i else PGSIZE := ⟨_, rfl⟩
    obtain ⟨bs, hbs⟩ : ∃ bs, bs = readi ip ((off + i) % 2 ^ 32) n := ⟨_, rfl⟩
    have hlen : 0 + bs.length ≤ PGSIZE := by
      rw [hbs, hn]
      simp only [readi]
      split_ifs <;> simp only [List.length_take, List.length_nil] <;> omega
    rw [loadseg_loop, ends_bind, ends_of_run (hpage.walkaddr_run hva), if_neg hne]
    simp only [← hn, ← hbs]
    rw [ends_bind]
    refine Safe.ends trivial fun _ t₁ ht₁ => ?_
    rw [blit_ok] at ht₁
    have hw : Wrote n₀ L T H r s t₁ := h.wrote hr hv hp (hpriv _ hv _ hp).2 hlen (by rw [ht₁, Nat.add_zero])
    have hput := h.puts hr hv hp (hpriv _ hv _ hp).2 hlen (by rw [ht₁, Nat.add_zero]) hw.off
    rw [Nat.add_zero, Nat.div_mul_cancel (Nat.dvd_of_mod_eq_zero hal)] at hput
    have hnext : (va + (i + PGSIZE)) / PGSIZE = (va + i) / PGSIZE + 1 := by
      rw [← Nat.add_assoc, next_page]
    refine ends_ite.mpr ⟨fun _ => ⟨hw, fun hbad => by simp at hbad⟩, fun hfull => ?_⟩
    rw [not_not] at hfull
    refine (ih hw.grown.inv (hw.own hr hpriv) (by simp only [PGSIZE] at *; omega) (by rw [Nat.succ_mul] at hend; omega)
      ?_).mono ?_
    · intro v h1 h2
      rw [hnext] at h1 h2
      rw [UserPage, hw.off.pte hr]
      exact hu v (by omega) (by omega)
    · rintro res t₂ ⟨hw₂, hput₂⟩
      refine ⟨hw.trans hw₂, fun hres h32 hle => ?_⟩
      obtain ⟨hlen₂, hput₂⟩ := hput₂ hres h32 (by rw [Nat.succ_mul] at hle; omega)
      exact hput.page hr hn hbs hfull h32 hlen₂ hput₂

def Loaded (m : Mem) (r n : Nat) : Prop := ∀ v < n, UserPage m r v

omit [Image] in
theorem Filled.loaded {a b : Nat} {xperm : Pte} (h : Filled T H r a b xperm s t) (ha : Apart s r) (hb : b ≤ UPAGES)
    (hl : Loaded s.mem r a) : Loaded t.mem r b := by
  intro v hv
  by_cases hva : v < a
  · rw [UserPage, h.only.leaves ha v (hv.trans_le (hb.trans UPAGES_lt.le)) fun hin => absurd hin.1 (by omega)]
    exact hl v hva
  · have hu := h.user (.inr (ha.spared.mono (Nat.zero_le a))) v ⟨by omega, hv⟩
    refine ⟨hu.valid, ?_⟩
    rw [hu.has small_U (by decide), has_or, has_or, show has PTE_U PTE_U = true from by decide]
    simp

/-! ## The image that the headers describe -/

def proghdrs (ip : List Byte) : Nat → Nat → List ProgHdr
  | 0, _ => []
  | n + 1, off => proghdr (readi ip (off % 2 ^ 32) PROGHDR_SIZE) :: proghdrs ip n (off + PROGHDR_SIZE)

def loads (ip : List Byte) (n off : Nat) : List ProgHdr := (proghdrs ip n off).filter fun ph => ph.type = ELF_PROG_LOAD

omit [Image] in
theorem loads_succ (ip : List Byte) (n off : Nat) : loads ip (n + 1) off =
    let ph := proghdr (readi ip (off % 2 ^ 32) PROGHDR_SIZE)
    if ph.type = ELF_PROG_LOAD then ph :: loads ip n (off + PROGHDR_SIZE) else loads ip n (off + PROGHDR_SIZE) := by
  rw [loads, proghdrs, List.filter_cons]
  simp only [decide_eq_true_eq]
  rfl

/-- The byte at `x` is from the last header that has a file byte for it, and without one it is zero. -/
def image (ip : List Byte) (phs : List ProgHdr) (x : Nat) : Option Byte :=
  match phs.reverse.find? fun ph => ph.vaddr ≤ x ∧ x < ph.vaddr + ph.filesz with
  | some ph => ip[ph.off + (x - ph.vaddr)]?
  | none => some 0

def extent (phs : List ProgHdr) : Nat := phs.foldl (fun n ph => max n (ph.vaddr + ph.memsz)) 0

structure Imaged (ip : List Byte) (phs : List ProgHdr) (r sz : Nat) (m : Mem) : Prop where
  size : sz = extent phs
  files : ∀ ph ∈ phs, ph.vaddr + ph.filesz ≤ sz
  bytes : ∀ x, x / PGSIZE < npages sz → some (umem m r x) = image ip phs x

section imaged

omit [Image]

variable {ip : List Byte} {phs : List ProgHdr} {ph : ProgHdr} {sz sz' x a b : Nat} {xperm : Pte}

theorem image_snoc : image ip (phs ++ [ph]) x =
    if ph.vaddr ≤ x ∧ x < ph.vaddr + ph.filesz then ip[ph.off + (x - ph.vaddr)]? else image ip phs x := by
  rw [image, List.reverse_append, List.reverse_singleton, List.singleton_append, List.find?_cons]
  by_cases hx : ph.vaddr ≤ x ∧ x < ph.vaddr + ph.filesz
  · rw [if_pos hx, decide_eq_true hx]
  · rw [if_neg hx, decide_eq_false hx]
    rfl

theorem Imaged.above (h : Imaged ip phs r sz m) (hx : sz ≤ x) : image ip phs x = some 0 := by
  have hnone : (phs.reverse.find? fun ph => ph.vaddr ≤ x ∧ x < ph.vaddr + ph.filesz) = none := by
    refine List.find?_eq_none.mpr fun ph hph => ?_
    have := h.files ph (List.mem_reverse.mp hph)
    simp only [decide_eq_true_eq]
    omega
  rw [image, hnone]

theorem Imaged.nil : Imaged ip [] r 0 m := ⟨rfl, (by simp), fun _ hx => absurd hx (Nat.not_lt_zero _)⟩

theorem Filled.umem (h : Filled T H r a b xperm s t) (ha : Apart s r) (hr : r ∈ T) (hpriv : Private s r)
    (hl : Loaded s.mem r a) (hb : b ≤ UPAGES) (hx : x / PGSIZE < b) :
    umem t.mem r x = if x / PGSIZE < a then umem s.mem r x else 0 := by
  have hV := (h.loaded ha hb hl _ hx).1
  split_ifs with hxa
  · exact h.lone.umem hr ⟨hx.trans_le hb, hV⟩ (fun _ hin => absurd hin.1 (by omega))
      fun P hP => (hpriv _ (hx.trans_le hb) P hP).2
  · exact (h.blank _ ⟨by omega, hx⟩ _ (points_some hV)).2 _ (Nat.mod_lt x (by decide))

theorem Imaged.snoc (h : Imaged ip phs r sz s.mem) (hfill : Filled T H r (npages sz) (npages sz') xperm s t)
    (ha : Apart s r) (hr : r ∈ T) (hpriv : Private s r) (hl : Loaded s.mem r (npages sz)) (hle : sz' ≤ TRAPFRAME)
    (hmax : sz' = max sz (ph.vaddr + ph.memsz)) (hmem : ph.filesz ≤ ph.memsz)
    (hlen : ((ip.drop ph.off).take ph.filesz).length = ph.filesz)
    (hput : Puts T r ph.vaddr ((ip.drop ph.off).take ph.filesz) t.mem s'.mem) :
    Imaged ip (phs ++ [ph]) r sz' s'.mem := by
  have hb := npages_le hle
  refine ⟨?_, fun ph' hph => ?_, fun x hx => ?_⟩
  · rw [hmax, h.size, extent, extent, List.foldl_append]
    rfl
  · rcases List.mem_append.mp hph with hph | hph
    · exact (h.files ph' hph).trans (by omega)
    · rw [List.mem_singleton.mp hph]
      omega
  · have hmaps : Maps t.mem r x := ⟨hx.trans_le hb, (hfill.loaded ha hb hl _ hx).1⟩
    have hold : some (Xv6.umem t.mem r x) = image ip phs x := by
      rw [hfill.umem ha hr hpriv hl hb hx]
      split_ifs with hxs
      · exact h.bytes x hxs
      · refine (h.above ?_).symm
        simp only [npages, PGSIZE] at *
        omega
    rw [hput.2 x hmaps, image_snoc, ← hold, Mem.blit, hlen]
    split_ifs with hin
    · have hget : x - ph.vaddr < ((ip.drop ph.off).take ph.filesz).length := by omega
      rw [List.getD_eq_getElem _ _ hget, ← List.getElem?_eq_getElem hget, List.getElem?_take_of_lt (by omega),
        List.getElem?_drop]
    · rfl

end imaged

structure Fills (n₀ : Nat) (L Z : Prop) (T H : Finset Nat) (r sz : Nat) (s : Kernel) : Prop
    extends Sane n₀ L Z T H s where
  root : r ∈ T
  apart : Apart s r
  capped : Capped s.mem r
  build : Building s r sz
  loaded : Loaded s.mem r (npages sz)

theorem Fills.room {sz : Nat} (h : Fills n₀ L Z T H r sz s) :
    Apart s r ∧ Private s r ∧ Full s.mem r (npages sz) :=
  ⟨h.apart, h.build.own, fun v hv => (h.loaded v hv).1⟩

omit [Image] in
theorem Building.zero (hb : Bound s.mem r 0) : Building s r 0 := by
  refine ⟨Nat.zero_le _, hb.mono (Nat.zero_le _), ?_⟩
  intro v hv P hP
  exact absurd (hb v hv (by simp [present, (valid_of_points hP).1])) (by omega)

/-- What the loop over `k` headers from `off` on leaves of the state and of the tree with `sz` bytes. -/
structure Segments (n₀ : Nat) (L Z : Prop) (T H : Finset Nat) (r : Nat) (ip : List Byte) (k off sz : Nat) (s : Kernel)
    (res : Bool × Nat) (t : Kernel) : Prop where
  only : Only T r Set.univ s t
  sane : Sane n₀ L Z T H t
  grown : Grown n₀ L T H r s t
  size : res.2 ≤ TRAPFRAME
  bound : Bound t.mem r (npages res.2)
  fills : res.1 = true → Fills n₀ L Z T H r res.2 t
  imaged : res.1 = true → ∀ phs, Imaged ip phs r sz s.mem → (∀ ph ∈ loads ip k off, ph.off + ph.filesz < 2 ^ 32) →
    Imaged ip (phs ++ loads ip k off) r res.2 t.mem

theorem kexec_load_ends {ip : List Byte} {k off sz : Nat} (h : Fills n₀ L Z T H r sz s) :
    Ends (kexec_load r ip k off sz) s (Segments n₀ L Z T H r ip k off sz s) (Stray Z) := by
  induction k generalizing s off sz with
  | zero =>
    refine ⟨Only.refl s, h.toSane, h.inv.grown h.root (.refl s), h.build.size, h.build.bound, fun _ => h,
      fun _ phs himg _ => ?_⟩
    rwa [show loads ip 0 off = [] from rfl, List.append_nil]
  | succ k ih =>
    have hbad : Ends (pure (false, sz) : K (Bool × Nat)) s (Segments n₀ L Z T H r ip (k + 1) off sz s) (Stray Z) :=
      ⟨Only.refl s, h.toSane, h.inv.grown h.root (.refl s), h.build.size, h.build.bound, (by simp), (by simp)⟩
    rw [kexec_load]
    have hloads := loads_succ ip k off
    obtain ⟨ph, hph⟩ : ∃ ph, ph = proghdr (readi ip (off % 2 ^ 32) PROGHDR_SIZE) := ⟨_, rfl⟩
    simp only [← hph] at hloads ⊢
    refine ends_ite.mpr ⟨fun _ => hbad, fun _ => ends_ite.mpr ⟨fun hskip => ?_, fun htype =>
      ends_ite.mpr ⟨fun _ => hbad, fun hmem => ends_ite.mpr ⟨fun _ => hbad, fun _ =>
      ends_ite.mpr ⟨fun _ => hbad, fun hal => ?_⟩⟩⟩⟩⟩
    · refine (ih h).mono fun res t hseg => { hseg with imaged := ?_ }
      rw [hloads, if_neg hskip]
      exact hseg.imaged
    obtain ⟨hsm, hsS, hsC⟩ := flags2perm_has ph.flags
    rw [ends_bind]
    refine (uvmalloc_ends h.toSane h.root hsm hsS hsC h.build.size h.build.bound (.inr h.room)).mono fun sz1 t hal' => ?_
    have hs := hal'.sane
    have hg := hal'.grown
    have hou := hal'.only.mono (Set.subset_univ _)
    refine ends_ite.mpr ⟨fun h0 => ?_, fun h0 => ?_⟩
    · exact ⟨hou, hs, hg, h.build.size, hal'.failed h0, (by simp), (by simp)⟩
    obtain ⟨hmax, hle, hbound, hpriv⟩ := hal'.size h0
    have hloaded := (hal'.filled h0).loaded h.apart (npages_le hle) h.loaded
    have hpriv₁ := hpriv h.build.own
    rw [ends_bind, loadseg]
    refine (loadseg_loop_ends _ hg.inv h.root hpriv₁ ?_ ?_ ?_).mono ?_
    · simpa using hal
    · simp only [PGSIZE, TRAPFRAME, TRAMPOLINE, MAXVA] at *
      omega
    · intro v _ h2
      refine hloaded v (lt_of_lt_of_le h2 ?_)
      simp only [npages, PGSIZE] at *
      omega
    · rintro res t₁ ⟨hw, hput⟩
      have hou₁ : Only T r Set.univ s t₁ := (hou.trans (hw.only h.root)).mono (Set.subset_univ _)
      have hg₁ := hg.trans hw.grown
      have hs₁ := hs.keep hw.grown.inv hw.grown.evolve.proc hw.sheds
      have hb₁ := hw.bound h.root hbound
      have hfills₁ : Fills n₀ L Z T H r sz1 t₁ := by
        refine ⟨hs₁, h.root, hou₁.apart h.apart, hg₁.capped h.capped, ⟨hle, hb₁, hw.own h.root hpriv₁⟩, fun v hv => ?_⟩
        rw [UserPage, hw.off.pte h.root]
        exact hloaded v hv
      refine ends_ite.mpr ⟨fun _ => ⟨hou₁, hs₁, hg₁, hle, hb₁, (by simp), (by simp)⟩, fun hres => ?_⟩
      refine (ih hfills₁).mono fun res t₂ hseg => { hseg with
        only := (hou₁.trans hseg.only).mono (Set.subset_univ _), grown := hg₁.trans hseg.grown,
        imaged := fun hok phs himg h32 => ?_ }
      rw [hloads, if_pos (not_not.mp htype)] at h32 ⊢
      rw [List.append_cons]
      refine hseg.imaged hok _ ?_ fun ph' hph' => h32 ph' (List.mem_cons_of_mem _ hph')
      have hph32 := h32 ph (List.mem_cons_self ..)
      rw [Nat.mod_eq_of_lt (by omega : ph.off < 2 ^ 32), Nat.mod_eq_of_lt (by omega : ph.filesz < 2 ^ 32)] at hput
      obtain ⟨hlen, hput⟩ := hput (by omega) hph32 (by simp only [PGSIZE]; omega)
      rw [Nat.add_zero, Nat.sub_zero] at hlen hput
      exact himg.snoc (hal'.filled h0) h.apart h.root h.build.own h.loaded hle hmax (by omega) hlen hput

end Xv6
