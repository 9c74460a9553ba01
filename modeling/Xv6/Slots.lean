import Xv6.Frame
import Xv6.Paging

/-!
# Swap blocks of the leaves

The blocks that swapped leaves name are in use, and no two leaves name the same one, so `swapfree` never finds a block
free.
-/

open Xv6.Lib Op Radix

namespace Xv6

variable [Image] {n₀ : Nat} {L : Prop} {s s' t : Kernel} {T T' H : Finset Nat} {r v va p k : Nat} {e : Pte}

/-! ## Blocks in entries -/

section
omit [Image]

theorem pte_to_swapblock_to_pte (hk : k < SWAP_MAX_BLOCKS) : pte_to_swapblock (swapblock_to_pte k) = k := by
  have hshift : swapblock_to_pte k >>> 10 = BitVec.ofNat 64 k := by
    rw [swapblock_to_pte, BitVec.ushiftRight_or_distrib, small_SWAPPED, BitVec.or_zero]
    apply BitVec.eq_of_toNat_eq
    simp only [BitVec.toNat_ushiftRight, BitVec.toNat_shiftLeft, BitVec.toNat_ofNat, Nat.shiftLeft_eq,
      Nat.shiftRight_eq_div_pow, SWAP_MAX_BLOCKS] at *
    omega
  rw [pte_to_swapblock, hshift, BitVec.toNat_and, BitVec.toNat_ofNat, BitVec.toNat_ofNat,
    show 0xFFFFFFFF % 2 ^ 64 = 2 ^ 32 - 1 from rfl, Nat.and_two_pow_sub_one_eq_mod]
  simp only [SWAP_MAX_BLOCKS] at hk
  omega

theorem swapped_swapblock (k : Nat) : has (swapblock_to_pte k) PTE_SWAPPED = true := by
  rw [swapblock_to_pte, has_or, show has PTE_SWAPPED PTE_SWAPPED = true from by decide, Bool.or_true]

def block (e : Pte) : Option Nat := if has e PTE_SWAPPED then some (pte_to_swapblock e) else none

theorem block_none (h : has e PTE_SWAPPED = false) : block e = none := by simp [block, h]

theorem block_some (h : has e PTE_SWAPPED = true) : block e = some (pte_to_swapblock e) := by simp [block, h]

theorem block_swapblock (hk : k < SWAP_MAX_BLOCKS) : block (swapblock_to_pte k) = some k := by
  rw [block_some (swapped_swapblock k), pte_to_swapblock_to_pte hk]

/-! ## Taking and giving blocks -/

def Swap.release (sw : Swap) (k : Nat) : Swap := { inuse := Bitmap.clear sw.inuse k, nfree := sw.nfree + 1 }

theorem inuse_mark {sw : Swap} {j : Nat} : inuse (sw.mark k) j = (decide (j = k) || inuse sw j) :=
  Bitmap.test_set

theorem inuse_release {sw : Swap} {j : Nat} : inuse (sw.release k) j = (!decide (j = k) && inuse sw j) :=
  Bitmap.test_clear

theorem swapfree_ok {u : Unit} (h : swapfree k s = .ok (u, s')) :
    (k < SWAP_MAX_BLOCKS ∧ inuse s.swap k = true) ∧ s' = { s with swap := s.swap.release k } := by
  unfold swapfree at h
  split_ifs at h with hk
  · simp at h
  · simp only [bind_ok, gets_ok] at h
    obtain ⟨sw, t, ⟨rfl, rfl⟩, h⟩ := h
    split_ifs at h with hu
    · rw [update_ok] at h
      exact ⟨⟨not_le.mp hk, hu⟩, h⟩
    · simp at h

theorem swapfree_run (hk : k < SWAP_MAX_BLOCKS) (hu : inuse s.swap k = true) :
    swapfree k s = .ok ((), { s with swap := s.swap.release k }) := by
  unfold swapfree
  rw [if_neg (not_le.mpr hk), run_bind (run_gets _), if_pos hu]
  rfl

end

/-! ## The blocks of a set of trees -/

structure Slots (T : Finset Nat) (s : Kernel) : Prop where
  used : ∀ r ∈ T, ∀ v < 512 ^ 3, ∀ k, block (pte s.mem r v) = some k → k < SWAP_MAX_BLOCKS ∧ inuse s.swap k = true
  own : ∀ r ∈ T, ∀ v < 512 ^ 3, ∀ r' ∈ T, ∀ v' < 512 ^ 3, ∀ k, block (pte s.mem r v) = some k →
    block (pte s.mem r' v') = some k → r' = r ∧ v' = v

/-- The blocks in use are the same, and a leaf of `T` that names one named it before. -/
structure Sheds (T : Finset Nat) (s s' : Kernel) : Prop where
  swap : s'.swap = s.swap
  leaves : ∀ r ∈ T, ∀ v < 512 ^ 3, ∀ k, block (pte s'.mem r v) = some k → block (pte s.mem r v) = some k

namespace Sheds

omit [Image]

theorem refl (s : Kernel) : Sheds T s s := ⟨rfl, fun _ _ _ _ _ h => h⟩

theorem trans (h : Sheds T s t) (h' : Sheds T t s') : Sheds T s s' :=
  ⟨h'.swap.trans h.swap, fun r hr v hv k hk => h.leaves r hr v hv k (h'.leaves r hr v hv k hk)⟩

theorem of_leaves (hsw : s'.swap = s.swap) (hl : ∀ r ∈ T, ∀ v < 512 ^ 3, pte s'.mem r v = pte s.mem r v) :
    Sheds T s s' := ⟨hsw, fun r hr v hv k hk => by rwa [hl r hr v hv] at hk⟩

theorem of_off (hm : Off T s.mem s'.mem) (hsw : s'.swap = s.swap) : Sheds T s s' :=
  of_leaves hsw fun _ hr v _ => hm.pte hr v

theorem of_set (hset : LeafSet T s.mem s'.mem r v e) (he : has e PTE_SWAPPED = false) (hsw : s'.swap = s.swap) :
    Sheds T s s' := by
  refine ⟨hsw, fun r' hr' v' hv' k hk => ?_⟩
  rw [hset.leaves r' hr' v' hv'] at hk
  split_ifs at hk
  · rw [block_none he] at hk
    cases hk
  · exact hk

end Sheds

namespace Slots

section
omit [Image]

theorem sheds (h : Slots T s) (hs : Sheds T s s') : Slots T s' := by
  refine ⟨fun r hr v hv k hk => ?_, fun r hr v hv r' hr' v' hv' k hk hk' => ?_⟩
  · rw [hs.swap]
    exact h.used r hr v hv k (hs.leaves r hr v hv k hk)
  · exact h.own r hr v hv r' hr' v' hv' k (hs.leaves r hr v hv k hk) (hs.leaves r' hr' v' hv' k hk')

theorem mono (h : Slots T' s) (hT : T ⊆ T') : Slots T s :=
  ⟨fun r hr => h.used r (hT hr), fun r hr v hv r' hr' => h.own r (hT hr) v hv r' (hT hr')⟩

theorem insert (h : Slots T s) (hr : ∀ v < 512 ^ 3, has (pte s.mem r v) PTE_SWAPPED = false) :
    Slots (insert r T) s := by
  have hold : ∀ r' ∈ Insert.insert r T, ∀ v < 512 ^ 3, ∀ k, block (pte s.mem r' v) = some k → r' ∈ T := by
    intro r' hr' v hv k hk
    refine (Finset.mem_insert.mp hr').resolve_left ?_
    rintro rfl
    rw [block_none (hr v hv)] at hk
    cases hk
  refine ⟨fun r' hr' v hv k hk => h.used r' (hold r' hr' v hv k hk) v hv k hk, ?_⟩
  intro r₁ hr₁ v₁ hv₁ r₂ hr₂ v₂ hv₂ k h₁ h₂
  exact h.own r₁ (hold r₁ hr₁ v₁ hv₁ k h₁) v₁ hv₁ r₂ (hold r₂ hr₂ v₂ hv₂ k h₂) v₂ hv₂ k h₁ h₂

theorem mark (h : Slots T s) (hset : LeafSet T s.mem s'.mem r v (swapblock_to_pte k)) (hk : s.swap.Spare k)
    (hsw : s'.swap = s.swap.mark k) : Slots T s' := by
  have hcase : ∀ r' ∈ T, ∀ v' < 512 ^ 3, ∀ j, block (pte s'.mem r' v') = some j →
      (r' = r ∧ v' = v) ∧ j = k ∨ block (pte s.mem r' v') = some j ∧ j ≠ k := by
    intro r' hr' v' hv' j hj
    rw [hset.leaves r' hr' v' hv'] at hj
    split_ifs at hj with hrv
    · rw [block_swapblock hk.lt] at hj
      exact .inl ⟨hrv, (Option.some.inj hj).symm⟩
    · refine .inr ⟨hj, ?_⟩
      rintro rfl
      have hu := (h.used r' hr' v' hv' j hj).2
      rw [hk.free] at hu
      cases hu
  refine ⟨fun r' hr' v' hv' j hj => ?_, fun r₁ hr₁ v₁ hv₁ r₂ hr₂ v₂ hv₂ j h₁ h₂ => ?_⟩
  · rw [hsw, inuse_mark]
    rcases hcase r' hr' v' hv' j hj with ⟨-, rfl⟩ | ⟨hold, -⟩
    · exact ⟨hk.lt, by simp⟩
    · have hu := h.used r' hr' v' hv' j hold
      exact ⟨hu.1, by simp [hu.2]⟩
  · rcases hcase r₁ hr₁ v₁ hv₁ j h₁ with ⟨⟨rfl, rfl⟩, hj₁⟩ | ⟨hold₁, hj₁⟩ <;>
      rcases hcase r₂ hr₂ v₂ hv₂ j h₂ with ⟨hrv₂, hj₂⟩ | ⟨hold₂, hj₂⟩
    · exact hrv₂
    · exact absurd hj₁ hj₂
    · exact absurd hj₂ hj₁
    · exact h.own r₁ hr₁ v₁ hv₁ r₂ hr₂ v₂ hv₂ j hold₁ hold₂

theorem release (h : Slots T s) (hr : r ∈ T) (hv : v < 512 ^ 3) (hk : block (pte s.mem r v) = some k)
    (hset : LeafSet T s.mem s'.mem r v e) (he : has e PTE_SWAPPED = false) (hsw : s'.swap = s.swap.release k) :
    Slots T s' := by
  have hcase : ∀ r' ∈ T, ∀ v' < 512 ^ 3, ∀ j, block (pte s'.mem r' v') = some j →
      block (pte s.mem r' v') = some j ∧ j ≠ k := by
    intro r' hr' v' hv' j hj
    rw [hset.leaves r' hr' v' hv'] at hj
    split_ifs at hj with hrv
    · rw [block_none he] at hj
      cases hj
    · refine ⟨hj, ?_⟩
      rintro rfl
      exact hrv (h.own r hr v hv r' hr' v' hv' j hk hj)
  refine ⟨fun r' hr' v' hv' j hj => ?_, fun r₁ hr₁ v₁ hv₁ r₂ hr₂ v₂ hv₂ j h₁ h₂ => ?_⟩
  · obtain ⟨hold, hne⟩ := hcase r' hr' v' hv' j hj
    have hu := h.used r' hr' v' hv' j hold
    rw [hsw, inuse_release]
    exact ⟨hu.1, by simp [hne, hu.2]⟩
  · exact h.own r₁ hr₁ v₁ hv₁ r₂ hr₂ v₂ hv₂ j (hcase r₁ hr₁ v₁ hv₁ j h₁).1 (hcase r₂ hr₂ v₂ hv₂ j h₂).1

end

end Slots

theorem Evicted.slots (h : Evicted T s s' r v) (hs : Slots T s) : Slots T s' := by
  obtain ⟨k, hset, hspare, hsw⟩ := h.set
  exact hs.mark hset hspare hsw

/-! ## Pages that cannot be victims -/

def Spared (s : Kernel) (r n : Nat) : Prop :=
  ∀ i < NPROC, (s.proc i).state ≠ .UNUSED → (s.proc i).pagetable = r → npages (s.proc i).sz ≤ n

omit [Image] in
theorem Apart.spared (h : Apart s r) : Spared s r 0 := fun i hi hu he => absurd he (h i hi hu)

omit [Image] in
theorem Spared.mono {n m : Nat} (h : Spared s r n) (hnm : n ≤ m) : Spared s r m :=
  fun i hi hu he => (h i hi hu he).trans hnm

omit [Image] in
theorem Spared.congr {n : Nat} (h : Spared s r n) (hp : s'.proc = s.proc) : Spared s' r n := by
  intro i hi hu he
  rw [hp] at hu he ⊢
  exact h i hi hu he

/-- The tables of `T` are as before, and so are their leaves, but for those whose page a swap-out took. -/
structure Fixed (T : Finset Nat) (s s' : Kernel) : Prop where
  proc : s'.proc = s.proc
  swaps : s.stats.swap_outs ≤ s'.stats.swap_outs
  tables : ∀ r ∈ T, ∀ n, node s'.mem r n = node s.mem r n
  calm : s'.stats.swap_outs = s.stats.swap_outs → ∀ r ∈ T, ∀ v < 512 ^ 3, pte s'.mem r v = pte s.mem r v
  spared : ∀ r ∈ T, ∀ n, Spared s r n → ∀ v < 512 ^ 3, n ≤ v → pte s'.mem r v = pte s.mem r v
  valid : ∀ r ∈ T, ∀ v < 512 ^ 3, has (pte s'.mem r v) PTE_V = true → pte s'.mem r v = pte s.mem r v

namespace Fixed

omit [Image]

theorem of_leaves (hp : s'.proc = s.proc) (hsw : s'.stats.swap_outs = s.stats.swap_outs)
    (hn : ∀ r ∈ T, ∀ n, node s'.mem r n = node s.mem r n)
    (hl : ∀ r ∈ T, ∀ v < 512 ^ 3, pte s'.mem r v = pte s.mem r v) : Fixed T s s' :=
  ⟨hp, hsw.ge, hn, fun _ => hl, fun r hr _ _ v hv _ => hl r hr v hv, fun r hr v hv _ => hl r hr v hv⟩

theorem of_off (hm : Off T s.mem s'.mem) (hp : s'.proc = s.proc)
    (hsw : s'.stats.swap_outs = s.stats.swap_outs) : Fixed T s s' :=
  of_leaves hp hsw (fun _ hr n => hm.node hr n) fun _ hr v _ => hm.pte hr v

theorem refl (s : Kernel) : Fixed T s s := of_off (.refl _) rfl rfl

theorem trans (h : Fixed T s t) (h' : Fixed T t s') : Fixed T s s' := by
  have hle := h.swaps
  have hle' := h'.swaps
  refine ⟨h'.proc.trans h.proc, hle.trans hle', fun r hr n => (h'.tables r hr n).trans (h.tables r hr n), ?_, ?_, ?_⟩
  · intro hsw r hr v hv
    rw [h'.calm (by omega) r hr v hv, h.calm (by omega) r hr v hv]
  · intro r hr n hs v hv hn
    rw [h'.spared r hr n (hs.congr h.proc) v hv hn, h.spared r hr n hs v hv hn]
  · intro r hr v hv hV
    have he := h'.valid r hr v hv hV
    rw [he] at hV ⊢
    exact h.valid r hr v hv hV

theorem mono (h : Fixed T' s s') (hT : T ⊆ T') : Fixed T s s' :=
  ⟨h.proc, h.swaps, fun r hr => h.tables r (hT hr), fun hsw r hr => h.calm hsw r (hT hr),
    fun r hr => h.spared r (hT hr), fun r hr => h.valid r (hT hr)⟩

end Fixed

theorem Evicted.fixed {i : Nat} (h : Evicted T s s' (s.proc i).pagetable v) (hi : i < NPROC)
    (hu : (s.proc i).state ≠ .UNUSED) (hv : v < npages (s.proc i).sz) : Fixed T s s' := by
  obtain ⟨k, hset, -⟩ := h.set
  have hsw := h.swaps
  refine ⟨h.proc, by omega, hset.tables, fun hsame => by omega, fun r hr n hs v' hv' hn => ?_, fun r hr v' hv' hV => ?_⟩
  · refine hset.other hr hv' ?_
    rintro ⟨rfl, rfl⟩
    have := hs i hi hu rfl
    omega
  · refine hset.other hr hv' ?_
    rintro ⟨rfl, rfl⟩
    rw [hset.self hr hv', small_of_swapblock k small_V (by decide)] at hV
    cases hV

/-- The trees other than `r` are as before, but for evictions, and so are the leaves of `r` outside `A`. -/
structure Only (T : Finset Nat) (r : Nat) (A : Set Nat) (s s' : Kernel) : Prop where
  others : Fixed (T.erase r) s s'
  calm : s'.stats.swap_outs = s.stats.swap_outs → ∀ v < 512 ^ 3, v ∉ A → pte s'.mem r v = pte s.mem r v
  spared : ∀ n, Spared s r n → ∀ v < 512 ^ 3, n ≤ v → v ∉ A → pte s'.mem r v = pte s.mem r v

namespace Only

variable {A B : Set Nat}

omit [Image]

theorem proc (h : Only T r A s s') : s'.proc = s.proc := h.others.proc

theorem tables (h : Only T r A s s') {r' : Nat} (hr' : r' ∈ T) (hne : r' ≠ r) (n : Node) :
    node s'.mem r' n = node s.mem r' n := h.others.tables r' (Finset.mem_erase.mpr ⟨hne, hr'⟩) n

theorem leaves (h : Only T r A s s') (ha : Apart s r) (v : Nat) (hv : v < 512 ^ 3) (hno : v ∉ A) :
    pte s'.mem r v = pte s.mem r v := h.spared 0 ha.spared v hv (Nat.zero_le _) hno

theorem refl (s : Kernel) : Only T r A s s := ⟨.refl s, fun _ _ _ _ => rfl, fun _ _ _ _ _ _ => rfl⟩

theorem apart (h : Only T r A s s') {q : Nat} (ha : Apart s q) : Apart s' q := by
  intro i hi hu
  rw [h.proc] at hu ⊢
  exact ha i hi hu

theorem trans (h : Only T r A s t) (h' : Only T r B t s') : Only T r (A ∪ B) s s' := by
  have hle := h.others.swaps
  have hle' := h'.others.swaps
  refine ⟨h.others.trans h'.others, fun hsw v hv hno => ?_, fun n hs v hv hn hno => ?_⟩
  · rw [h'.calm (by omega) v hv fun hB => hno (.inr hB), h.calm (by omega) v hv fun hA => hno (.inl hA)]
  · rw [h'.spared n (hs.congr h.proc) v hv hn fun hB => hno (.inr hB), h.spared n hs v hv hn fun hA => hno (.inl hA)]

theorem mono (h : Only T r A s s') (hAB : A ⊆ B) : Only T r B s s' :=
  ⟨h.others, fun hsw v hv hno => h.calm hsw v hv fun hA => hno (hAB hA),
    fun n hs v hv hn hno => h.spared n hs v hv hn fun hA => hno (hAB hA)⟩

theorem of_fixed (h : Fixed T s s') (hr : r ∈ T) : Only T r A s s' :=
  ⟨h.mono (Finset.erase_subset r T), fun hsw v hv _ => h.calm hsw r hr v hv,
    fun n hs v hv hn _ => h.spared r hr n hs v hv hn⟩

theorem of_off (hr : r ∈ T) (hm : Off T s.mem s'.mem) (hp : s'.proc = s.proc)
    (hsw : s'.stats.swap_outs = s.stats.swap_outs) : Only T r A s s' := of_fixed (.of_off hm hp hsw) hr

theorem of_set (hr : r ∈ T) (hset : LeafSet T s.mem s'.mem r v e) (hp : s'.proc = s.proc)
    (hsw : s'.stats.swap_outs = s.stats.swap_outs) : Only T r {v} s s' := by
  have hother : ∀ v' < 512 ^ 3, v' ∉ ({v} : Set Nat) → pte s'.mem r v' = pte s.mem r v' :=
    fun v' hv' hno => hset.other hr hv' fun he => hno he.2
  refine ⟨.of_leaves hp hsw (fun r' hr' n => hset.tables r' (Finset.mem_of_mem_erase hr') n) ?_,
    fun _ => hother, fun _ _ v' hv' _ => hother v' hv'⟩
  intro r' hr' v' hv'
  exact hset.other (Finset.mem_of_mem_erase hr') hv' fun he => Finset.ne_of_mem_erase hr' he.1

theorem of_tables (hp : s'.proc = s.proc) (hsw : s'.stats.swap_outs = s.stats.swap_outs) (hr : r ∈ T)
    (hn : ∀ r' ∈ T, r' ≠ r → ∀ n, node s'.mem r' n = node s.mem r' n)
    (hl : ∀ r' ∈ T, ∀ v, pte s'.mem r' v = pte s.mem r' v) : Only T r A s s' :=
  ⟨.of_leaves hp hsw (fun r' hr' => hn r' (Finset.mem_of_mem_erase hr') (Finset.ne_of_mem_erase hr'))
    fun r' hr' v _ => hl r' (Finset.mem_of_mem_erase hr') v, fun _ v _ _ => hl r hr v, fun _ _ v _ _ _ => hl r hr v⟩

end Only

end Xv6
