import Xv6.Boot
import Xv6.Lone

/-!
# Panics of the memory code

`kalloc`, `walk` and `mappages` do not panic, whatever they leave of the trees.
-/

open Xv6.Lib Op Radix

namespace Xv6

/-- The panics of `vm.c` and `exec.c`, and a `freewalk` that is out of stack. -/
def vmPanics : List String :=
  ["walk", "mappages: va not aligned", "mappages: size not aligned", "mappages: size",
    "mappages: remap", "uvmunmap: not aligned", "freewalk: leaf", "freewalk: stack overflow", "uvmclear",
    "loadseg: address should exist"]

abbrev Elsewhere (msg : String) : Prop := msg ∉ vmPanics

def swapPanics : List String := ["swapfree: invalid swapblock", "swapfree: double free"]

/-- A panic of `swapfree`. There is none where `Z` says that the leaves name blocks in use. -/
def Stray (Z : Prop) (msg : String) : Prop := ¬ Z ∧ msg ∈ swapPanics

theorem Stray.elsewhere {Z : Prop} {msg : String} (h : Stray Z msg) : Elsewhere msg := by
  have hmsg := h.2
  simp only [swapPanics, List.mem_cons, List.not_mem_nil, or_false] at hmsg
  rcases hmsg with rfl | rfl <;> decide

variable [Image] {n₀ : Nat} {L Z : Prop} {E : String → Prop} {s s' t : Kernel} {T T' H H' : Finset Nat}
  {r v va p P k : Nat} {e : Pte}

/-! ## Pages -/

theorem Page.kern (h : Page P) : KERNBASE ≤ P := Image.kernbase_le_kend.trans h.ge

theorem krefinc_run (hP : Page P) : krefinc P s = .ok ((), { s with
    count := fun j => if j = (P - KERNBASE) / PGSIZE then refs s P + 1 else s.count j }) := by
  have hge := hP.kern
  have hlt := hP.lt
  have hal := hP.aligned
  rw [krefinc, if_neg (by omega), run_bind (pageindex_run hge hlt s), run_bind (run_gets _)]
  rfl

theorem krefdec_run (hP : Page P) (hpos : 0 < refs s P) : krefdec P s = .ok (refs s P - 1, { s with
    count := fun j => if j = (P - KERNBASE) / PGSIZE then refs s P - 1 else s.count j }) := by
  have hge := hP.kern
  have hlt := hP.lt
  have hal := hP.aligned
  have hcount : ¬ s.count ((P - KERNBASE) / PGSIZE) ≤ 0 := not_le.mpr hpos
  rw [krefdec, if_neg (by omega), run_bind (pageindex_run hge hlt s), run_bind (run_gets _), if_neg hcount]
  rfl

theorem kfree_run (hP : Page P) (hpos : 0 < refs s P) : kfree P s = .ok ((), freed P s) := by
  have hge := hP.ge
  have hlt := hP.lt
  have hal := hP.aligned
  have hdec := krefdec_run hP hpos
  rw [kfree, if_neg (by omega), run_bind hdec]
  by_cases h1 : refs s P = 1
  · rw [if_neg (by omega), freed, if_pos h1]
    rfl
  · rw [if_pos (by omega), freed, if_neg h1]
    rfl

theorem Inv.kfree_run (h : Inv n₀ L s T H) {x : Ref} (hx : goal s.mem T H x = some P) :
    kfree P s = .ok ((), freed P s) :=
  Xv6.kfree_run (h.books.mem x P hx).2 (h.books.pos hx)

omit [Image] in
theorem swapfree_ends (hk : Z → k < SWAP_MAX_BLOCKS ∧ inuse s.swap k = true) :
    Ends (swapfree k) s (fun _ t => t = { s with swap := s.swap.release k }) (Stray Z) := by
  by_cases hZ : Z
  · rw [ends_of_run (swapfree_run (hk hZ).1 (hk hZ).2)]
  · have hsafe : Safe (Stray Z) (swapfree k) s := by
      refine .ite (fun _ => ⟨hZ, by decide⟩) fun _ => .bind trivial fun sw t _ => ?_
      exact .ite (fun _ => trivial) fun _ => ⟨hZ, by decide⟩
    exact hsafe.ends fun _ _ hrun => (swapfree_ok hrun).2

/-! ## Victims -/

def Sized (s : Kernel) : Prop := ∀ i < NPROC, (s.proc i).sz ≤ TRAPFRAME

omit [Image] in
theorem walk0_safe (hva : va < MAXVA) : Safe E (walk0 r va) s :=
  (ends_of_run (walk0_run hva)).mpr trivial

omit [Image] in
theorem swapalloc_safe : Safe E swapalloc s := by
  refine .bind trivial fun sw t _ => .ite (fun _ => trivial) fun _ => ?_
  split <;> trivial

theorem swapout_safe (h : Inv n₀ L s T H) (hr : r ∈ T) (hva : va < MAXVA) : Safe E (swapout r va) s := by
  refine (walk0_safe (PGROUNDDOWN_lt.mpr hva)).bind fun slot t hwalk => ?_
  obtain ⟨-, rfl, rfl⟩ := walk0_ok hwalk
  rw [low_down, PGROUNDDOWN_div]
  cases hlow : low t.mem r va with
  | none => trivial
  | some q =>
    refine .bind trivial fun e t' he => .ite (fun _ => trivial) fun hV => .ite (fun _ => trivial) fun _ =>
      .ite (fun _ => trivial) fun hU => swapalloc_safe.bind fun k t₁ halloc => ?_
    obtain ⟨rfl, rfl⟩ := load64_ok.mp he
    rw [pte_of_low hlow] at hV hU ⊢
    simp only [Bool.not_eq_true', Bool.not_eq_false] at hV hU
    -- The page is mapped, so it is a page and its count is positive.
    have hv := h.user_of_U hr (page_number_lt hva) hU
    have hgoal : goal t'.mem T H (.leaf r (va / PGSIZE)) = some (PTE2PA (pte t'.mem r (va / PGSIZE))) := by
      rw [goal_leaf hr hv, points_some hV]
    generalize PTE2PA (pte t'.mem r (va / PGSIZE)) = pa at hgoal ⊢
    rcases swapalloc_ok halloc with ⟨rfl, rfl⟩ | ⟨k, rfl, -, rfl⟩
    · trivial
    · refine .bind trivial fun b t₁ hread => .bind trivial fun _ t₂ h₂ => .bind trivial fun _ t₃ h₃ =>
        .bind trivial fun _ t₅ h₅ => .bind trivial fun _ t₄ h₄ => ?_
      obtain ⟨-, rfl⟩ := bread_ok hread
      obtain ⟨-, rfl⟩ := pure_ok.mp h₅
      simp only [move_to_buf, bwrite, update_ok, store64_ok] at h₂ h₃ h₄
      have hpos : 0 < refs t₄ pa := by
        rw [h₄, h₃, h₂]
        exact h.books.pos hgoal
      exact .bind ((ends_of_run (kfree_run (h.books.mem _ _ hgoal).2 hpos)).mpr trivial) fun _ _ _ => trivial

theorem victim_loop_safe (h : Inv n₀ L s T H) (hr : r ∈ T) (n : Nat) (hn : va + n * PGSIZE ≤ MAXVA) :
    Safe E (victim_loop r n va) s := by
  induction n generalizing va with
  | zero => trivial
  | succ n ih =>
    have hva : va < MAXVA := by
      simp only [PGSIZE] at hn
      omega
    have hrest : Safe E (victim_loop r n (va + PGSIZE)) s := ih (by rw [Nat.succ_mul] at hn; omega)
    refine (walk0_safe hva).bind fun slot t hwalk => ?_
    obtain ⟨-, rfl, -⟩ := walk0_ok hwalk
    cases slot with
    | none => exact hrest
    | some a =>
      refine .bind trivial fun e t' he => ?_
      obtain ⟨-, rfl⟩ := load64_ok.mp he
      refine .ite (fun _ => (swapout_safe h hr hva).bind fun res t hout => ?_) fun _ => hrest
      rcases swapout_ok hout with ⟨rfl, rfl⟩ | ⟨rfl, -⟩
      · exact hrest
      · trivial

theorem victim_scan_safe (h : Inv n₀ L s T H) (hin : ProcsIn s T) (hs : Sized s) (n : Nat) (hn : n ≤ NPROC) :
    Safe E (victim_scan n) s := by
  induction n with
  | zero => trivial
  | succ n ih =>
    have hi : NPROC - (n + 1) < NPROC := by omega
    refine .ite (fun huse => ?_) fun _ => ih (by omega)
    have hsz := hs _ hi
    have hr := hin _ hi huse.1 huse.2
    refine (victim_loop_safe h hr _ ?_).bind fun found t hrun => ?_
    · simp only [PGSIZE, TRAPFRAME, TRAMPOLINE, MAXVA] at *
      omega
    · rcases victim_loop_ok _ hrun with ⟨rfl, rfl⟩ | ⟨rfl, -⟩
      · exact ih (by omega)
      · trivial

omit [Image] in
theorem popfree_safe : Safe E popfree s := by
  refine .bind trivial fun l t _ => ?_
  cases l <;> trivial

theorem kalloc_safe (h : Inv n₀ L s T H) (hin : ProcsIn s T) (hs : Sized s) : Safe E kalloc s := by
  have hsome : ∀ (p : Nat) (t : Kernel), Page p → Safe E (do
      memset p 5 PGSIZE
      let i ← pageindex p
      setcount i 1
      memstats_inc_pages_allocated
      pure (some p)) t :=
    fun p t hp => .bind trivial fun _ t _ =>
      .bind ((ends_of_run (pageindex_run hp.kern hp.lt _)).mpr trivial) fun i t _ => trivial
  refine popfree_safe.bind fun res t hpop => ?_
  rcases popfree_ok hpop with ⟨-, rfl, rfl⟩ | ⟨p, rest, hfree, rfl, rfl⟩
  · refine (victim_scan_safe h hin hs NPROC (Nat.le_refl _)).bind fun v t₁ hvictim => ?_
    have hinv : Inv n₀ L t₁ T H := by
      rcases victim_spec h hin hvictim with ⟨-, rfl⟩ | ⟨-, _, _, _, _, _, _, _, hinv⟩
      · exact h
      · exact hinv
    refine .ite (fun _ => popfree_safe.bind fun res t₂ hpop' => ?_) fun _ => trivial
    rcases popfree_ok hpop' with ⟨-, rfl, -⟩ | ⟨p, rest, hfree, rfl, -⟩
    · trivial
    · exact hsome p t₂ (hinv.page_free (by simp [hfree]))
  · exact hsome p _ (h.page_free (by simp [hfree]))

/-! ## What an operation starts from -/

/-- The books are right. Where `Z` holds, the leaves that are swapped out name blocks of their own. -/
structure Sane (n₀ : Nat) (L Z : Prop) (T H : Finset Nat) (s : Kernel) : Prop where
  inv : Inv n₀ L s T H
  procsIn : ProcsIn s T
  sized : Sized s
  slots : Z → Slots T s

namespace Sane

theorem next (h : Sane n₀ L Z T H s) (hinv : Inv n₀ L t T' H') (hT : T ⊆ T') (hp : t.proc = s.proc)
    (hz : Z → Slots T' t) : Sane n₀ L Z T' H' t := by
  refine ⟨hinv, fun i hi hu h0 => ?_, fun i hi => ?_, hz⟩
  · rw [hp] at hu h0 ⊢
    exact hT (h.procsIn i hi hu h0)
  · rw [hp]
    exact h.sized i hi

theorem keep (h : Sane n₀ L Z T H s) (hinv : Inv n₀ L t T H') (hp : t.proc = s.proc) (hsh : Sheds T s t) :
    Sane n₀ L Z T H' t :=
  h.next hinv (Finset.Subset.refl T) hp fun hZ => (h.slots hZ).sheds hsh

theorem unseen {H₁ : Finset Nat} (h : Sane n₀ L Z T H₁ s) (hinv : Inv n₀ L t T H') (hu : Unseen n₀ T H s t) :
    Sane n₀ L Z T H' t :=
  h.next hinv (Finset.Subset.refl T) hu.evolve.proc fun hZ => hu.slots (h.slots hZ)

theorem grows {H₁ : Finset Nat} (h : Sane n₀ L Z T H₁ s) (hinv : Inv n₀ L t T H') (hg : Grows n₀ T H r s t) :
    Sane n₀ L Z T H' t :=
  h.next hinv (Finset.Subset.refl T) hg.evolve.proc fun hZ => hg.slots (h.slots hZ)

end Sane

theorem kalloc_ends (h : Sane n₀ L Z T H s) :
    Ends kalloc s (fun res t => Unseen n₀ T H s t ∧ t.freelist ⊆ s.freelist ∧ (res = none → Sane n₀ L Z T H t) ∧
      ∀ p, res = some p → p ∉ H ∧ Sane n₀ L Z T (insert p H) t) E := by
  refine (kalloc_safe h.inv h.procsIn h.sized).ends fun res t hrun => ?_
  obtain ⟨hun, hfree, hnone, hsome⟩ := kalloc_spec h.inv h.procsIn hrun
  refine ⟨hun, hfree, fun hres => h.unseen (hnone hres) hun, fun p hp => ?_⟩
  obtain ⟨hnot, hinv⟩ := hsome p hp
  exact ⟨hnot, h.unseen hinv hun⟩

/-! ## Walking and mapping -/

theorem walk_level_ends {n n' : Node} {q level : Nat} {k : Fin 512} (h : Sane n₀ L Z T H s) (hr : r ∈ T)
    (hq : node s.mem r n = some q) (hc : child n k = some n') (hk : PX level va = k) :
    Ends (walk_level (some kalloc) q level va) s (fun res t => Grows n₀ T H r s t ∧ Sane n₀ L Z T H t ∧
      t.freelist ⊆ s.freelist ∧ ∀ c, res = some c → node t.mem r n' = some c) E := by
  have hnode : node s.mem r n' = points (s.mem.load64 (q + 8 * k)) := table_child hq hc
  simp only [walk_level, load64, ends_bind, ends_gets, hk]
  refine ends_ite.mpr ⟨fun hV => ⟨.refl _, h, List.Subset.refl _, ?_⟩, fun hV => ?_⟩
  · rintro c ⟨⟩
    rw [hnode, points_some hV]
  · rw [ends_bind]
    refine (kalloc_ends h).mono ?_
    rintro res t ⟨hun, hfree, hnone, hsome⟩
    have hnodes := hun.fixed.tables
    cases res with
    | none => exact ⟨.of_unseen hun hr, hnone rfl, hfree, (by simp)⟩
    | some p =>
      obtain ⟨hnot, hs⟩ := hsome p rfl
      have hold : node t.mem r n' = none := by
        rw [hnodes r hr, hnode]
        exact points_none (by simpa using hV)
      obtain ⟨hinv, hg, hn'⟩ := hs.inv.hang_grows hnot hr ((hnodes r hr n).trans hq) hc hold rfl
      refine ⟨(Grows.of_unseen hun hr).trans hg, hs.grows hinv hg, hfree, ?_⟩
      rintro c ⟨⟩
      exact hn'

theorem walk_ends (h : Sane n₀ L Z T H s) (hr : r ∈ T) (hva : va < MAXVA) :
    Ends (walk r va true) s (fun res t => Grows n₀ T H r s t ∧ Sane n₀ L Z T H t ∧ t.freelist ⊆ s.freelist ∧
      ∀ a, res = some a → ∃ q, low t.mem r va = some q ∧ a = q + 8 * (lo (va / PGSIZE) : Nat)) E := by
  refine ends_ite.mpr ⟨fun hge => absurd hva (by omega), fun _ => ends_bind.mpr ?_⟩
  refine (walk_level_ends h hr (n := .top) rfl rfl (PX_hi va)).mono ?_
  rintro t1 s₁ ⟨hg₁, hs₁, hfree₁, hnode₁⟩
  cases t1 with
  | none => exact ⟨hg₁, hs₁, hfree₁, (by simp)⟩
  | some t1 =>
    rw [ends_bind]
    refine (walk_level_ends hs₁ hr (hnode₁ t1 rfl) rfl (PX_md va)).mono ?_
    rintro t0 s₂ ⟨hg₂, hs₂, hfree₂, hnode₂⟩
    have hg := hg₁.trans hg₂
    have hfree := List.Subset.trans hfree₂ hfree₁
    cases t0 with
    | none => exact ⟨hg, hs₂, hfree, (by simp)⟩
    | some t0 =>
      refine ⟨hg, hs₂, hfree, ?_⟩
      rintro a ⟨⟩
      exact ⟨t0, hnode₂ t0 rfl, by rw [PX_lo]⟩

omit [Image] in
theorem Evolve.not_valid (h : Evolve n₀ T H s t) (hr : r ∈ T) (hv : v < 512 ^ 3)
    (hV : has (pte s.mem r v) PTE_V = false) : has (pte t.mem r v) PTE_V = false := by
  rcases h.leaves r hr v hv with he | ⟨-, k, he⟩
  · rw [he, hV]
  · rw [he, small_of_swapblock k small_V (by decide)]

/-- What `mappages` for one page does: it walks to the leaf, and gives up or sets it to `e`. -/
def MapsOne (n₀ : Nat) (L Z : Prop) (T H : Finset Nat) (r v : Nat) (e : Pte) (s : Kernel) (res : Int) (s' : Kernel) : Prop :=
  ∃ t, Grows n₀ T H r s t ∧ Sane n₀ L Z T H t ∧ t.freelist ⊆ s.freelist ∧ (res = -1 ∧ s' = t ∨
    res = 0 ∧ has (pte t.mem r v) PTE_V = false ∧ s' = { t with mem := s'.mem } ∧ Enters n₀ T H r v e t s')

theorem mappages_ends {pa : Nat} {perm : Pte} (h : Sane n₀ L Z T H s) (hr : r ∈ T) (hal : va % PGSIZE = 0)
    (hva : va < MAXVA) (hV : has (pte s.mem r (va / PGSIZE)) PTE_V = true → E "mappages: remap") :
    Ends (mappages r va PGSIZE pa perm) s
      (MapsOne n₀ L Z T H r (va / PGSIZE) (PA2PTE pa ||| perm ||| PTE_V) s) E := by
  rw [mappages, mappages_with, if_neg (by omega), if_neg (by decide), if_neg (by decide), show PGSIZE / PGSIZE - 1 = 0 from rfl,
    mappages_loop_with, ends_bind]
  refine (walk_ends h hr hva).mono ?_
  rintro slot t ⟨hg, hs, hfree, hslot⟩
  cases slot with
  | none => exact ⟨t, hg, hs, hfree, .inl ⟨rfl, rfl⟩⟩
  | some a =>
    obtain ⟨q, hq, rfl⟩ := hslot a rfl
    simp only [load64, store64, ends_bind, ends_gets, pte_of_low hq]
    refine ends_ite.mpr ⟨fun hbad => hV ?_, fun hno => ?_⟩
    · by_contra hV
      rw [hg.evolve.not_valid hr (page_number_lt hva) (eq_false_of_ne_true hV)] at hbad
      cases hbad
    · exact ⟨t, hg, hs, hfree, .inr ⟨rfl, eq_false_of_ne_true hno, rfl, hs.inv.enters hr hva hq rfl rfl rfl rfl⟩⟩

theorem Enters.held {perm : Pte} (hent : Enters n₀ T H r v (PA2PTE p ||| perm ||| PTE_V) s t)
    (ht : t = { s with mem := t.mem }) (h : Inv n₀ L s T H) (hr : r ∈ T) (hv : v < UPAGES)
    (hV : has (pte s.mem r v) PTE_V = false) (hp : p ∈ H) (hperm : Small perm) (hsw : has perm PTE_SWAPPED = false)
    (hcow : has perm PTE_COW = true → has perm PTE_W = false) : Inv n₀ L t T (H.erase p) := by
  have hok : LeafOk v (PA2PTE p ||| perm ||| PTE_V) :=
    leafOk_user hv (by rw [has_mapped small_SWAPPED (by decide), hsw])
      (by rwa [has_mapped small_COW (by decide), has_mapped small_W (by decide)])
  exact h.map_held hr hv hent.set (points_none hV) hp (points_mapped (h.page_held hp) hperm) hok
    (by rw [ht]) (by rw [ht]) (by rw [ht])

end Xv6
