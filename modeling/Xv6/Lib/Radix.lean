import Xv6.Lib.Bytes
import Mathlib.Data.Finset.Basic
import Mathlib.Data.Fintype.Sigma
import Mathlib.Data.Fintype.Sum
import Mathlib.Tactic.DeriveFintype

/-!
# Three-level tables in memory

A table is a page of 512 words. A word of the two upper levels decodes to the address of a
table of the next level, or to nothing. Page numbers have three digits in base 512.
-/

namespace Xv6.Lib.Radix

/-- A place in the tree of a root: the root, below its entry `i`, and below entry `j` of that. -/
inductive Node where
  | top
  | mid (i : Fin 512)
  | low (i j : Fin 512)
  deriving DecidableEq, Fintype

variable (dec : BitVec 64 → Option Nat)

def next (m : Mem) (p : Nat) (i : Fin 512) : Option Nat := dec (m.load64 (p + 8 * i))

def table (m : Mem) (r : Nat) : Node → Option Nat
  | .top => some r
  | .mid i => next dec m r i
  | .low i j => (next dec m r i).bind fun p => next dec m p j

def hi (v : Nat) : Fin 512 := ⟨v / 262144 % 512, by omega⟩
def md (v : Nat) : Fin 512 := ⟨v / 512 % 512, by omega⟩
def lo (v : Nat) : Fin 512 := ⟨v % 512, by omega⟩

/-- The word of a page number, 0 if the tree has no table for it. -/
def entry (m : Mem) (r v : Nat) : BitVec 64 :=
  match table dec m r (.low (hi v) (md v)) with
  | some p => m.load64 (p + 8 * lo v)
  | none => 0

/-- The trees of the roots `T` are trees, apart from each other: no page is a table twice. -/
structure Forest (m : Mem) (T : Finset Nat) : Prop where
  aligned : ∀ r ∈ T, ∀ n p, table dec m r n = some p → p % 4096 = 0
  inj : ∀ r ∈ T, ∀ r' ∈ T, ∀ n n' p,
    table dec m r n = some p → table dec m r' n' = some p → r = r' ∧ n = n'

variable {dec} {m m' : Mem} {T : Finset Nat} {p q r r' v v' : Nat} {n n' : Node}

theorem entry_some (h : table dec m r (.low (hi v) (md v)) = some p) :
    entry dec m r v = m.load64 (p + 8 * lo v) := by
  simp only [entry, h]

theorem entry_none (h : table dec m r (.low (hi v) (md v)) = none) : entry dec m r v = 0 := by
  simp only [entry, h]

/-! ## Digits -/

theorem digits_inj (hv : v < 512 ^ 3) (hv' : v' < 512 ^ 3) (h2 : hi v = hi v')
    (h1 : md v = md v') (h0 : lo v = lo v') : v = v' := by
  simp only [hi, md, lo, Fin.mk.injEq] at h2 h1 h0
  omega

theorem exists_digits (i j k : Fin 512) : ∃ v < 512 ^ 3, hi v = i ∧ md v = j ∧ lo v = k := by
  refine ⟨i * 262144 + j * 512 + k, by omega, ?_, ?_, ?_⟩ <;> ext <;> simp only [hi, md, lo] <;> omega

/-! ## Slots -/

theorem load_store_slot (hp : p % 4096 = 0) (hq : q % 4096 = 0) (i j : Fin 512) (w : BitVec 64) :
    (m.store64 (p + 8 * i) w).load64 (q + 8 * j) =
      if p = q ∧ i = j then w else m.load64 (q + 8 * j) := by
  split_ifs with h
  · obtain ⟨rfl, rfl⟩ := h
    exact Mem.load64_store64 _ _ _
  · apply Mem.load64_store64_of_disjoint
    by_cases hpq : p = q
    · have hij : (i : Nat) ≠ j := fun he => h ⟨hpq, Fin.ext he⟩
      omega
    · omega

theorem next_store (hp : p % 4096 = 0) (hq : q % 4096 = 0) (i j : Fin 512) (w : BitVec 64) :
    next dec (m.store64 (p + 8 * i) w) q j = if p = q ∧ i = j then dec w else next dec m q j := by
  unfold next
  rw [load_store_slot hp hq]
  split_ifs <;> rfl

/-! ## What a tree reads -/

theorem next_congr (h : ∀ k < 4096, m' (p + k) = m (p + k)) (i : Fin 512) :
    next dec m' p i = next dec m p i := by
  unfold next
  refine congrArg dec (Mem.load64_congr ?_)
  intro k hk
  rw [Nat.add_assoc]
  exact h _ (by omega)

theorem table_congr (h : ∀ n p, table dec m r n = some p → ∀ k < 4096, m' (p + k) = m (p + k)) :
    ∀ n, table dec m' r n = table dec m r n := by
  have hmid : ∀ i, next dec m' r i = next dec m r i := next_congr (h .top r rfl)
  intro n
  cases n with
  | top => rfl
  | mid i => exact hmid i
  | low i j =>
    simp only [table, hmid i]
    cases hi : next dec m r i with
    | none => simp only [Option.bind_none]
    | some p => exact next_congr (h (.mid i) p hi) j

theorem entry_congr (h : ∀ n p, table dec m r n = some p → ∀ k < 4096, m' (p + k) = m (p + k))
    (v : Nat) : entry dec m' r v = entry dec m r v := by
  unfold entry
  rw [table_congr h]
  cases ht : table dec m r (.low (hi v) (md v)) with
  | none => rfl
  | some p =>
    apply Mem.load64_congr
    intro k hk
    rw [Nat.add_assoc]
    exact h _ p ht _ (by omega)

theorem Forest.congr {dec' : BitVec 64 → Option Nat} (hf : Forest dec m T)
    (h : ∀ r ∈ T, ∀ n, table dec' m' r n = table dec m r n) : Forest dec' m' T := by
  constructor
  · intro r hr n p ht
    rw [h r hr] at ht
    exact hf.aligned r hr n p ht
  · intro r hr r' hr' n n' p ht ht'
    rw [h r hr] at ht
    rw [h r' hr'] at ht'
    exact hf.inj r hr r' hr' n n' p ht ht'

/-! ## Writing a word of the lowest level -/

section le
variable {dec' : BitVec 64 → Option Nat}

theorem table_store_low_of_le (hle : ∀ w q, dec' w = some q → dec w = some q) (hf : Forest dec m T)
    (hr : r ∈ T) {i j : Fin 512} (hp : table dec m r (.low i j) = some p) (k : Fin 512) (w : BitVec 64) :
    ∀ r' ∈ T, ∀ n, table dec' (m.store64 (p + 8 * k) w) r' n = table dec' m r' n := by
  have hal := hf.aligned r hr _ p hp
  -- The two upper levels are other tables than `p`.
  have hne : ∀ r' ∈ T, ∀ n q, table dec m r' n = some q → (∀ i j, n ≠ .low i j) → p ≠ q := by
    rintro r' hr' n q hq hn rfl
    exact hn i j (hf.inj r' hr' r hr n _ _ hq hp).2
  intro r' hr' n
  have hmid : ∀ i', next dec' (m.store64 (p + 8 * k) w) r' i' = next dec' m r' i' := by
    intro i'
    rw [next_store hal (hf.aligned r' hr' .top r' rfl), if_neg]
    rintro ⟨h, -⟩
    exact hne r' hr' .top r' rfl (by simp) h
  cases n with
  | top => rfl
  | mid i' => exact hmid i'
  | low i' j' =>
    simp only [table, hmid i']
    cases hq : next dec' m r' i' with
    | none => simp only [Option.bind_none]
    | some q =>
      have hq' : table dec m r' (.mid i') = some q := hle _ _ hq
      simp only [Option.bind_some]
      rw [next_store hal (hf.aligned r' hr' (.mid i') q hq'), if_neg]
      rintro ⟨h, -⟩
      exact hne r' hr' (.mid i') q hq' (by simp) h

end le

theorem table_store_low (hf : Forest dec m T) (hr : r ∈ T) {i j : Fin 512}
    (hp : table dec m r (.low i j) = some p) (k : Fin 512) (w : BitVec 64) :
    ∀ r' ∈ T, ∀ n, table dec (m.store64 (p + 8 * k) w) r' n = table dec m r' n :=
  table_store_low_of_le (fun _ _ h => h) hf hr hp k w

theorem entry_store_low (hf : Forest dec m T) (hr : r ∈ T) (hv : v < 512 ^ 3)
    (hp : table dec m r (.low (hi v) (md v)) = some p) (w : BitVec 64) :
    ∀ r' ∈ T, ∀ v' < 512 ^ 3, entry dec (m.store64 (p + 8 * lo v) w) r' v' =
      if r' = r ∧ v' = v then w else entry dec m r' v' := by
  intro r' hr' v' hv'
  unfold entry
  rw [table_store_low hf hr hp (lo v) w r' hr']
  have hal := hf.aligned r hr _ p hp
  cases hq : table dec m r' (.low (hi v') (md v')) with
  | none =>
    rw [if_neg]
    rintro ⟨rfl, rfl⟩
    rw [hp] at hq
    cases hq
  | some q =>
    simp only
    rw [load_store_slot hal (hf.aligned r' hr' _ q hq)]
    by_cases hsame : r' = r ∧ v' = v
    · obtain ⟨rfl, rfl⟩ := hsame
      rw [hp] at hq
      cases hq
      simp
    · rw [if_neg hsame, if_neg]
      rintro ⟨rfl, hlo⟩
      obtain ⟨he, hn⟩ := hf.inj r' hr' r hr _ _ p hq hp
      simp only [Node.low.injEq] at hn
      exact hsame ⟨he, digits_inj hv' hv hn.1 hn.2 hlo.symm⟩

/-! ## Hanging a table into the tree, and taking one out -/

def child : Node → Fin 512 → Option Node
  | .top, k => some (.mid k)
  | .mid i, k => some (.low i k)
  | .low _ _, _ => none

def Below : Node → Node → Prop
  | .top, x => x ≠ .top
  | .mid i, .low i' _ => i' = i
  | _, _ => False

theorem below_child {k : Fin 512} (hc : child n k = some n') : Below n n' := by
  cases n <;> cases hc
  · exact fun h => by cases h
  · rfl

theorem Below.of_child {k : Fin 512} {x : Node} (hc : child n k = some n') (h : Below n' x) :
    Below n x := by
  cases n <;> cases hc
  · rintro rfl
    exact h
  · cases x <;> exact h.elim

theorem not_below_self (n : Node) : ¬ Below n n := by
  cases n with
  | top => exact fun h => h rfl
  | mid i => exact id
  | low i j => exact id

theorem not_below_parent {k : Fin 512} (hc : child n k = some n') : ¬ Below n' n := by
  cases n <;> cases hc <;> exact id

theorem table_child (hp : table dec m r n = some p) {k : Fin 512} (hc : child n k = some n') :
    table dec m r n' = next dec m p k := by
  cases n with
  | top =>
    cases hc
    cases hp
    rfl
  | mid i =>
    cases hc
    simp only [table] at hp ⊢
    rw [hp]
    rfl
  | low i j => cases hc

def Bare (dec : BitVec 64 → Option Nat) (m : Mem) (c : Option Nat) : Prop :=
  ∀ q, c = some q → ∀ j, next dec m q j = none

theorem table_store_child (hf : Forest dec m T) (hr : r ∈ T) (hp : table dec m r n = some p)
    {k : Fin 512} (hc : child n k = some n') {w : BitVec 64}
    (hold : Bare dec m (table dec m r n')) (hnew : Bare dec (m.store64 (p + 8 * k) w) (dec w)) :
    ∀ r' ∈ T, ∀ x, table dec (m.store64 (p + 8 * k) w) r' x =
      if r' = r ∧ x = n' then dec w else table dec m r' x := by
  have hal := hf.aligned r hr _ p hp
  -- Only the table `p` is written, and `p` is the table of one node only.
  have hnext : ∀ r' ∈ T, ∀ x q, table dec m r' x = some q → ∀ i,
      next dec (m.store64 (p + 8 * k) w) q i =
        if (r' = r ∧ x = n) ∧ k = i then dec w else next dec m q i := by
    intro r' hr' x q hq i
    rw [next_store hal (hf.aligned r' hr' x q hq)]
    by_cases hpq : p = q
    · subst hpq
      obtain ⟨rfl, rfl⟩ := hf.inj r' hr' r hr x n p hq hp
      simp
    · have : ¬ (r' = r ∧ x = n) := by
        rintro ⟨rfl, rfl⟩
        rw [hp] at hq
        exact hpq (Option.some.inj hq)
      simp [hpq, this]
  intro r' hr' x
  cases n with
  | low i j => cases hc
  | top =>
    cases hc
    cases x with
    | top => simp [table]
    | mid i =>
      simp only [table]
      rw [hnext r' hr' .top r' rfl]
      simp [eq_comm]
    | low i j =>
      have hlow : ∀ q, table dec m r' (.mid i) = some q →
          next dec (m.store64 (p + 8 * k) w) q j = next dec m q j := by
        intro q hq
        rw [hnext r' hr' (.mid i) q hq]
        simp
      simp only [table, reduceCtorEq, and_false, if_false]
      rw [hnext r' hr' .top r' rfl]
      split_ifs with h
      · obtain ⟨⟨rfl, -⟩, rfl⟩ := h
        have h1 : (dec w).bind (fun q => next dec (m.store64 (p + 8 * k) w) q j) = none := by
          cases hw : dec w with
          | none => rfl
          | some q => exact hnew q hw j
        have h2 : (next dec m r' k).bind (fun q => next dec m q j) = none := by
          cases hq : next dec m r' k with
          | none => rfl
          | some q => exact hold q hq j
        rw [h1, h2]
      · cases hq : next dec m r' i with
        | none => simp only [Option.bind_none]
        | some q => exact hlow q hq
  | mid i =>
    cases hc
    cases x with
    | top => simp [table]
    | mid i' =>
      simp only [table]
      rw [hnext r' hr' .top r' rfl]
      simp
    | low i' j' =>
      simp only [table]
      rw [hnext r' hr' .top r' rfl, if_neg (by simp)]
      cases hq : next dec m r' i' with
      | none =>
        rw [if_neg]
        · simp only [Option.bind_none]
        · rintro ⟨rfl, he⟩
          cases he
          simp only [table] at hp
          rw [hp] at hq
          cases hq
      | some q =>
        simp only [Option.bind_some]
        rw [hnext r' hr' (.mid i') q hq]
        simp [and_assoc, eq_comm]

theorem load_store_upper (hf : Forest dec m T) (hr : r ∈ T) (hp : table dec m r n = some p)
    {k : Fin 512} (hc : child n k = some n') (w : BitVec 64) {i j : Fin 512} (hr' : r' ∈ T)
    (hq : table dec m r' (.low i j) = some q) (x : Fin 512) :
    (m.store64 (p + 8 * k) w).load64 (q + 8 * x) = m.load64 (q + 8 * x) := by
  rw [load_store_slot (hf.aligned r hr n p hp) (hf.aligned r' hr' _ q hq), if_neg]
  rintro ⟨rfl, -⟩
  obtain ⟨-, rfl⟩ := hf.inj r hr r' hr' n _ p hp hq
  cases hc

theorem entry_hang (hf : Forest dec m T) (hr : r ∈ T) (hp : table dec m r n = some p)
    {k : Fin 512} (hc : child n k = some n') {w : BitVec 64}
    (ht : ∀ r' ∈ T, ∀ x, table dec (m.store64 (p + 8 * k) w) r' x =
      if r' = r ∧ x = n' then some q else table dec m r' x)
    (hold : table dec m r n' = none)
    (hzero : ∀ x : Fin 512, (m.store64 (p + 8 * k) w).load64 (q + 8 * x) = 0) :
    ∀ r' ∈ T, ∀ v, entry dec (m.store64 (p + 8 * k) w) r' v = entry dec m r' v := by
  intro r' hr' v
  unfold entry
  rw [ht r' hr']
  split_ifs with h
  · obtain ⟨rfl, rfl⟩ := h
    rw [hold]
    exact hzero _
  · cases hq : table dec m r' (.low (hi v) (md v)) with
    | none => rfl
    | some q => exact load_store_upper hf hr hp hc w hr' hq _

theorem entry_prune (hf : Forest dec m T) (hr : r ∈ T) (hp : table dec m r n = some p)
    {k : Fin 512} (hc : child n k = some n') {w : BitVec 64}
    (ht : ∀ r' ∈ T, ∀ x, table dec (m.store64 (p + 8 * k) w) r' x =
      if r' = r ∧ x = n' then none else table dec m r' x) :
    ∀ r' ∈ T, ∀ v, entry dec (m.store64 (p + 8 * k) w) r' v =
      if r' = r ∧ .low (hi v) (md v) = n' then 0 else entry dec m r' v := by
  intro r' hr' v
  unfold entry
  rw [ht r' hr']
  split_ifs with h
  · rfl
  · cases hq : table dec m r' (.low (hi v) (md v)) with
    | none => rfl
    | some q => exact load_store_upper hf hr hp hc w hr' hq _

theorem forest_hang (hf : Forest dec m T)
    (ht : ∀ r' ∈ T, ∀ x, table dec m' r' x = if r' = r ∧ x = n' then some q else table dec m r' x)
    (hq : q % 4096 = 0) (hne : ∀ r' ∈ T, ∀ x, table dec m r' x ≠ some q) : Forest dec m' T := by
  constructor
  · intro r' hr' x p h
    rw [ht r' hr'] at h
    split_ifs at h
    · cases h; exact hq
    · exact hf.aligned r' hr' x p h
  · intro r₁ h₁ r₂ h₂ x₁ x₂ p hp₁ hp₂
    rw [ht r₁ h₁] at hp₁
    rw [ht r₂ h₂] at hp₂
    split_ifs at hp₁ hp₂ with hc₁ hc₂ hc₂
    · exact ⟨hc₁.1.trans hc₂.1.symm, hc₁.2.trans hc₂.2.symm⟩
    · cases hp₁; exact absurd hp₂ (hne r₂ h₂ x₂)
    · cases hp₂; exact absurd hp₁ (hne r₁ h₁ x₁)
    · exact hf.inj r₁ h₁ r₂ h₂ x₁ x₂ p hp₁ hp₂

/-! ## A root of its own -/

theorem table_zero (hz : ∀ i : Fin 512, m.load64 (q + 8 * i) = 0) (h0 : dec 0 = none) (n : Node) :
    table dec m q n = if n = .top then some q else none := by
  have hmid : ∀ i, next dec m q i = none := by
    intro i
    simp only [next, hz i, h0]
  cases n with
  | top => rfl
  | mid i => simp [table, hmid]
  | low i j => simp [table, hmid]

theorem entry_zero (hz : ∀ i : Fin 512, m.load64 (q + 8 * i) = 0) (h0 : dec 0 = none) (v : Nat) :
    entry dec m q v = 0 := by
  unfold entry
  rw [table_zero hz h0]
  rfl

theorem Forest.subset {T' : Finset Nat} (hf : Forest dec m T) (h : T' ⊆ T) : Forest dec m T' :=
  ⟨fun r hr => hf.aligned r (h hr), fun r hr r' hr' => hf.inj r (h hr) r' (h hr')⟩

end Xv6.Lib.Radix
