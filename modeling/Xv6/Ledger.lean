import Xv6.Kalloc
import Xv6.Lib.Radix
import Xv6.Lib.RefCount
import Mathlib.Data.Finset.Prod

/-!
# Who refers to which page

A page is referred to by the user leaves that map it, by its place as a table of a page-table tree,
or by the kernel that holds it for something else. `Inv` says that the reference counts are right,
which references may go to one page, and what the leaves look like.
-/

open Xv6.Lib Xv6.Lib.Radix

namespace Xv6

/-! ## Trees of tables -/

def points (e : Pte) : Option Nat := if has e PTE_V then some (PTE2PA e) else none

abbrev node (m : Mem) (r : Nat) (n : Node) : Option Nat := table points m r n

abbrev pte (m : Mem) (r v : Nat) : Pte := entry points m r v

def UPAGES : Nat := TRAPFRAME / PGSIZE

theorem UPAGES_eq : UPAGES = 67108862 := rfl

theorem UPAGES_lt : UPAGES < 512 ^ 3 := by decide

theorem points_none {e : Pte} (h : has e PTE_V = false) : points e = none := by
  simp [points, h]

theorem points_some {e : Pte} (h : has e PTE_V = true) : points e = some (PTE2PA e) := by
  simp [points, h]

@[simp] theorem points_zero : points 0#64 = none := points_none (has_zero _)

theorem valid_of_points {e : Pte} {P : Nat} (h : points e = some P) :
    has e PTE_V = true ∧ PTE2PA e = P := by
  unfold points at h
  split_ifs at h with hV
  exact ⟨hV, Option.some.inj h⟩

theorem points_eq_none {e : Pte} : points e = none ↔ has e PTE_V = false := by
  simp [points]

def walkable (e : Pte) : Option Nat :=
  if has e PTE_V ∧ e &&& (PTE_R ||| PTE_W ||| PTE_X) = 0#64 then some (PTE2PA e) else none

theorem points_of_walkable {e : Pte} {P : Nat} (h : walkable e = some P) : points e = some P := by
  unfold walkable at h
  split_ifs at h with hV
  rw [points_some hV.1, h]

/-- No entry on the way to a table looks like a leaf. -/
def Plain (m : Mem) (r : Nat) : Prop := ∀ n, table walkable m r n = node m r n

/-! ## References -/

inductive Ref where
  | leaf (r v : Nat)
  | table (r : Nat) (n : Node)
  | held (p : Nat)
  deriving DecidableEq

def Ref.below (top pages : Nat) : Finset Ref :=
  ((Finset.range top ×ˢ Finset.range pages).image fun x => Ref.leaf x.1 x.2) ∪
    ((Finset.range top ×ˢ Finset.univ).image fun x => Ref.table x.1 x.2) ∪
    (Finset.range top).image Ref.held

theorem Ref.mem_below {top pages : Nat} (x : Ref) : x ∈ Ref.below top pages ↔
    match x with
    | .leaf r v => r < top ∧ v < pages
    | .table r _ => r < top
    | .held p => p < top := by
  cases x <;> simp [Ref.below]

-- Never to be computed.
attribute [irreducible] Ref.below

def Ref.all : Finset Ref := Ref.below PHYSTOP UPAGES

theorem Ref.leaf_mem {r v : Nat} (hr : r < PHYSTOP) (hv : v < UPAGES) : Ref.leaf r v ∈ Ref.all := by
  rw [Ref.all, Ref.mem_below]
  exact ⟨hr, hv⟩

theorem Ref.table_mem {r : Nat} (hr : r < PHYSTOP) (n : Node) : Ref.table r n ∈ Ref.all := by
  rw [Ref.all, Ref.mem_below]
  exact hr

theorem Ref.held_mem {p : Nat} (hp : p < PHYSTOP) : Ref.held p ∈ Ref.all := by
  rw [Ref.all, Ref.mem_below]
  exact hp

/-- The page a reference goes to, for the trees of the roots `T` and the pages `H` that the kernel
holds. -/
def goal (m : Mem) (T H : Finset Nat) : Ref → Option Nat
  | .leaf r v => if r ∈ T ∧ v < UPAGES then points (pte m r v) else none
  | .table r n => if r ∈ T then node m r n else none
  | .held p => if p ∈ H then some p else none

/-- Two references that may go to one page. A writable leaf shares its page with nothing. Leaves
that share a page map it at one address and agree on copy-on-write. A leaf shares a page with a
table only once more than `n₀` pages have been swapped out. -/
def Compat (n₀ : Nat) (s : Kernel) : Ref → Ref → Prop
  | .leaf r v, .leaf r' v' => v = v' ∧ has (pte s.mem r v) PTE_W = false ∧
      has (pte s.mem r' v') PTE_W = false ∧
      has (pte s.mem r v) PTE_COW = has (pte s.mem r' v') PTE_COW
  | .leaf r v, .table _ _ => has (pte s.mem r v) PTE_W = false ∧ n₀ < s.stats.swap_outs
  | .table _ _, .leaf r v => has (pte s.mem r v) PTE_W = false ∧ n₀ < s.stats.swap_outs
  | _, _ => False

def LeafOk (v : Nat) (e : Pte) : Prop :=
  if v < UPAGES then (has e PTE_V = true → has e PTE_SWAPPED = false) ∧
    (has e PTE_COW = true → has e PTE_W = false)
  else has e PTE_U = false ∧ has e PTE_COW = false ∧ has e PTE_SWAPPED = false ∧
    (MAXVA / PGSIZE ≤ v → has e PTE_V = false)

variable [Image]

structure Page (P : Nat) : Prop where
  aligned : P % PGSIZE = 0
  ge : kend ≤ P
  lt : P < PHYSTOP

-- `refcount.count[pageindex(P)]`
def refs (s : Kernel) (P : Nat) : Int := s.count ((P - KERNBASE) / PGSIZE)

structure Inv (n₀ : Nat) (L : Prop) (s : Kernel) (T H : Finset Nat) : Prop where
  books : Counted Ref.all Page L (Compat n₀ s) (goal s.mem T H) (refs s) s.freelist
  flags : ∀ r ∈ T, ∀ v < 512 ^ 3, LeafOk v (pte s.mem r v)
  plain : ∀ r ∈ T, Plain s.mem r

theorem index_inj {P Q : Nat} (hP : Page P) (hQ : Page Q)
    (h : (P - KERNBASE) / PGSIZE = (Q - KERNBASE) / PGSIZE) : P = Q := by
  have hk := Image.kernbase_le_kend
  have h1 := hP.aligned
  have h2 := hP.ge
  have h3 := hQ.aligned
  have h4 := hQ.ge
  simp only [KERNBASE, PGSIZE] at *
  omega

theorem refs_setcount {s s' : Kernel} {P : Nat} {n : Int} (hP : Page P)
    (hs : s'.count = fun j => if j = (P - KERNBASE) / PGSIZE then n else s.count j)
    {Q : Nat} (hQ : Page Q) : refs s' Q = if Q = P then n else refs s Q := by
  simp only [refs, hs]
  by_cases hQP : Q = P
  · subst hQP
    simp
  · rw [if_neg hQP, if_neg]
    intro he
    exact hQP (index_inj hQ hP he)

omit [Image]

section goals
variable {m m' : Mem} {T H : Finset Nat} {r v p P : Nat} {n : Node}

theorem goal_leaf (hr : r ∈ T) (hv : v < UPAGES) :
    goal m T H (.leaf r v) = points (pte m r v) := if_pos ⟨hr, hv⟩

theorem goal_table (hr : r ∈ T) : goal m T H (.table r n) = node m r n := if_pos hr

theorem goal_held (hp : p ∈ H) : goal m T H (.held p) = some p := if_pos hp

theorem of_goal_leaf (h : goal m T H (.leaf r v) = some P) :
    (r ∈ T ∧ v < UPAGES) ∧ points (pte m r v) = some P := by
  simp only [goal] at h
  split_ifs at h with hrv
  exact ⟨hrv, h⟩

theorem of_goal_table (h : goal m T H (.table r n) = some P) : r ∈ T ∧ node m r n = some P := by
  simp only [goal] at h
  split_ifs at h with hr
  exact ⟨hr, h⟩

theorem of_goal_held (h : goal m T H (.held p) = some P) : p ∈ H ∧ p = P := by
  simp only [goal] at h
  split_ifs at h with hp
  exact ⟨hp, Option.some.inj h⟩

theorem goal_points (hn : ∀ r ∈ T, ∀ n, node m' r n = node m r n)
    (he : ∀ r ∈ T, ∀ v < UPAGES, points (pte m' r v) = points (pte m r v)) : goal m' T H = goal m T H := by
  funext x
  cases x with
  | leaf r v =>
    simp only [goal]
    split_ifs with h
    · exact he r h.1 v h.2
    · rfl
  | table r n =>
    simp only [goal]
    split_ifs with h
    · exact hn r h n
    · rfl
  | held p => rfl

theorem goal_congr (hn : ∀ r ∈ T, ∀ n, node m' r n = node m r n)
    (he : ∀ r ∈ T, ∀ v < UPAGES, pte m' r v = pte m r v) : goal m' T H = goal m T H :=
  goal_points hn fun r hr v hv => by rw [he r hr v hv]

end goals

/-! ## References of their own -/

section compat
variable {n₀ : Nat} {s s' : Kernel} {x y : Ref} {r r' v p : Nat} {n n' : Node}

theorem not_compat_held : ¬ Compat n₀ s (.held p) y := by
  cases y <;> exact id

theorem not_compat_table : ¬ Compat n₀ s (.table r n) (.table r' n') := id

theorem Compat.symm (h : Compat n₀ s x y) : Compat n₀ s y x := by
  cases x <;> cases y
  case leaf.leaf => exact ⟨h.1.symm, h.2.2.1, h.2.1, h.2.2.2.symm⟩
  all_goals exact h

theorem Compat.mono (h : Compat n₀ s x y) (hsw : s.stats.swap_outs ≤ s'.stats.swap_outs)
    (hx : ∀ r v, x = .leaf r v → pte s'.mem r v = pte s.mem r v)
    (hy : ∀ r v, y = .leaf r v → pte s'.mem r v = pte s.mem r v) : Compat n₀ s' x y := by
  cases x <;> cases y
  case leaf.leaf r v r' v' =>
    simp only [Compat, hx r v rfl, hy r' v' rfl] at h ⊢
    exact h
  case leaf.table r v _ _ =>
    simp only [Compat, hx r v rfl] at h ⊢
    exact ⟨h.1, by omega⟩
  case table.leaf r v =>
    simp only [Compat, hy r v rfl] at h ⊢
    exact ⟨h.1, by omega⟩
  all_goals exact h

theorem not_compat_of_writable (hw : has (pte s.mem r v) PTE_W = true) :
    ¬ Compat n₀ s (.leaf r v) y := by
  cases y with
  | leaf r' v' =>
    rintro ⟨-, h, -⟩
    rw [hw] at h
    cases h
  | table _ _ =>
    rintro ⟨h, -⟩
    rw [hw] at h
    cases h
  | held _ => exact id

end compat

/-! ## Writes that do not touch a table -/

section off
variable {m m' m'' : Mem} {T H : Finset Nat} {r P : Nat}

def Off (T : Finset Nat) (m m' : Mem) : Prop :=
  ∀ r ∈ T, ∀ n p, node m r n = some p → ∀ k < 4096, m' (p + k) = m (p + k)

theorem Off.node (h : Off T m m') (hr : r ∈ T) (n : Node) :
    node m' r n = node m r n := table_congr (h r hr) n

theorem Off.pte (h : Off T m m') (hr : r ∈ T) (v : Nat) : pte m' r v = pte m r v :=
  entry_congr (h r hr) v

theorem Off.plain (h : Off T m m') (hr : r ∈ T) (hp : Plain m r) : Plain m' r := by
  have hwalk : ∀ n, table walkable m' r n = table walkable m r n :=
    table_congr fun n p hn => h r hr n p ((hp n).symm.trans hn)
  intro n
  rw [hwalk n, hp n, h.node hr n]

theorem Off.goal (h : Off T m m') : goal m' T H = goal m T H :=
  goal_congr (fun _ hr n => h.node hr n) (fun _ hr v _ => h.pte hr v)

theorem Off.trans (h : Off T m m') (h' : Off T m' m'') : Off T m m'' := by
  intro r hr n p hp k hk
  rw [h' r hr n p (by rw [h.node hr, hp]) k hk, h r hr n p hp k hk]

theorem Off.refl (m : Mem) : Off T m m := fun _ _ _ _ _ _ _ => rfl

def OnPage (P : Nat) (m m' : Mem) : Prop := ∀ a, a < P ∨ P + PGSIZE ≤ a → m' a = m a

theorem OnPage.refl (m : Mem) : OnPage P m m := fun _ _ => rfl

theorem OnPage.trans (h : OnPage P m m') (h' : OnPage P m' m'') :
    OnPage P m m'' := fun a ha => (h' a ha).trans (h a ha)

theorem OnPage.fill (m : Mem) (P : Nat) (c : Byte) : OnPage P m (m.fill P PGSIZE c) :=
  fun _ ha => Mem.fill_of_outside ha

theorem store_on_page (k : Fin 512) (w : BitVec 64) : OnPage P m (m.store64 (P + 8 * k) w) := by
  intro a ha
  apply Mem.store64_of_outside
  simp only [PGSIZE] at ha
  omega

end off

/-! ## What the ledger says of a page -/

variable [Image] {n₀ : Nat} {L : Prop} {s s' : Kernel} {T H : Finset Nat} {r r' v v' p P : Nat}
  {n : Node}

theorem Page.disjoint {Q : Nat} (hP : Page P) (hQ : Page Q) (h : P ≠ Q) :
    P + PGSIZE ≤ Q ∨ Q + PGSIZE ≤ P := by
  have h1 := hP.aligned
  have h2 := hQ.aligned
  simp only [PGSIZE] at *
  omega

theorem OnPage.bytes {m m' : Mem} {Q k : Nat} (h : OnPage P m m') (hQ : Page Q) (hP : Page P) (hne : Q ≠ P)
    (hk : k < PGSIZE) : m' (Q + k) = m (Q + k) := by
  have hd := hQ.disjoint hP hne
  apply h
  simp only [PGSIZE] at *
  omega

namespace Inv

theorem page_leaf (h : Inv n₀ L s T H) (hr : r ∈ T) (hv : v < UPAGES)
    (hp : points (pte s.mem r v) = some P) : Page P :=
  (h.books.mem (.leaf r v) P (by rw [goal_leaf hr hv, hp])).2

theorem page_table (h : Inv n₀ L s T H) (hr : r ∈ T) (hp : node s.mem r n = some p) : Page p :=
  (h.books.mem (.table r n) p (by rw [goal_table hr, hp])).2

theorem page_root (h : Inv n₀ L s T H) (hr : r ∈ T) : Page r := h.page_table (n := .top) hr rfl

theorem page_held (h : Inv n₀ L s T H) (hp : p ∈ H) : Page p :=
  (h.books.mem (.held p) p (goal_held hp)).2

theorem page_free (h : Inv n₀ L s T H) (hp : p ∈ s.freelist) : Page p := (h.books.free_ok p hp).1

theorem forest (h : Inv n₀ L s T H) : Forest points s.mem T := by
  constructor
  · intro r hr n p hp
    exact (h.page_table hr hp).aligned
  · intro r hr r' hr' n n' p hp hp'
    have hx : goal s.mem T H (.table r n) = some p := (goal_table hr).trans hp
    have hy : goal s.mem T H (.table r' n') = some p := (goal_table hr').trans hp'
    rcases h.books.apart _ _ p hx hy with he | he
    · cases he
      exact ⟨rfl, rfl⟩
    · exact absurd he not_compat_table

theorem held_only (h : Inv n₀ L s T H) (hp : p ∈ H) {x : Ref} (hx : goal s.mem T H x = some p) :
    x = .held p := by
  rcases h.books.apart (.held p) x p (goal_held hp) hx with he | he
  · exact he.symm
  · exact absurd he not_compat_held

theorem held_not_table (h : Inv n₀ L s T H) (hp : p ∈ H) (hr : r ∈ T) : node s.mem r n ≠ some p := by
  intro hn
  have := h.held_only hp (x := .table r n) (by rw [goal_table hr, hn])
  cases this

theorem free_not_table (h : Inv n₀ L s T H) (hp : p ∈ s.freelist) (hr : r ∈ T) :
    node s.mem r n ≠ some p := by
  intro hn
  exact h.books.free_none hp (.table r n) (by rw [goal_table hr, hn])

theorem held_not_free (h : Inv n₀ L s T H) (hp : p ∈ H) : p ∉ s.freelist :=
  h.books.not_free (goal_held hp)

theorem only_leaf (h : Inv n₀ L s T H) (hr : r ∈ T) (hv : v < UPAGES)
    (hp : points (pte s.mem r v) = some P) (h1 : refs s P ≤ 1) {x : Ref}
    (hx : goal s.mem T H x = some P) : x = .leaf r v :=
  h.books.unique h1 hx (by rw [goal_leaf hr hv, hp])

theorem writable_only (h : Inv n₀ L s T H) (hr : r ∈ T) (hv : v < UPAGES)
    (hp : points (pte s.mem r v) = some P) (hw : has (pte s.mem r v) PTE_W = true) {x : Ref}
    (hx : goal s.mem T H x = some P) : x = .leaf r v := by
  have hl : goal s.mem T H (.leaf r v) = some P := by rw [goal_leaf hr hv, hp]
  rcases h.books.apart _ x P hl hx with he | he
  · exact he.symm
  · exact absurd he (not_compat_of_writable hw)

theorem not_swapped (h : Inv n₀ L s T H) (hr : r ∈ T) (hv : v < UPAGES)
    (hV : has (pte s.mem r v) PTE_V = true) : has (pte s.mem r v) PTE_SWAPPED = false := by
  have := h.flags r hr v (hv.trans UPAGES_lt)
  rw [LeafOk, if_pos hv] at this
  exact this.1 hV

theorem cow_not_writable (h : Inv n₀ L s T H) (hr : r ∈ T) (hv : v < UPAGES)
    (hC : has (pte s.mem r v) PTE_COW = true) : has (pte s.mem r v) PTE_W = false := by
  have := h.flags r hr v (hv.trans UPAGES_lt)
  rw [LeafOk, if_pos hv] at this
  exact this.2 hC

theorem user_of_U (h : Inv n₀ L s T H) (hr : r ∈ T) (hv : v < 512 ^ 3)
    (hU : has (pte s.mem r v) PTE_U = true) : v < UPAGES := by
  by_contra hge
  have := h.flags r hr v hv
  rw [LeafOk, if_neg hge, hU] at this
  cases this.1

theorem user_of_COW (h : Inv n₀ L s T H) (hr : r ∈ T) (hv : v < 512 ^ 3)
    (hC : has (pte s.mem r v) PTE_COW = true) : v < UPAGES := by
  by_contra hge
  have := h.flags r hr v hv
  rw [LeafOk, if_neg hge, hC] at this
  cases this.2.1

theorem user_of_SWAPPED (h : Inv n₀ L s T H) (hr : r ∈ T) (hv : v < 512 ^ 3)
    (hS : has (pte s.mem r v) PTE_SWAPPED = true) : v < UPAGES := by
  by_contra hge
  have := h.flags r hr v hv
  rw [LeafOk, if_neg hge, hS] at this
  cases this.2.2.1

end Inv

omit [Image] in
theorem Off.of_page {m m' : Mem} (hal : ∀ r ∈ T, ∀ n p, Xv6.node m r n = some p → p % PGSIZE = 0)
    (hP : P % PGSIZE = 0) (hne : ∀ r ∈ T, ∀ n, Xv6.node m r n ≠ some P) (hm : OnPage P m m') : Off T m m' := by
  intro r hr n p hp k hk
  have hpP : p ≠ P := by
    rintro rfl
    exact hne r hr n hp
  have hpal := hal r hr n p hp
  apply hm
  simp only [PGSIZE] at *
  omega

theorem Inv.off_page (h : Inv n₀ L s T H) (hP : Page P)
    (hne : ∀ r ∈ T, ∀ n, node s.mem r n ≠ some P) {m' : Mem} (hm : OnPage P s.mem m') :
    Off T s.mem m' :=
  Off.of_page h.forest.aligned hP.aligned hne hm

theorem Inv.write (h : Inv n₀ L s T H) (hm : Off T s.mem s'.mem) (hc : s'.count = s.count)
    (hf : s'.freelist = s.freelist) (hsw : s'.stats.swap_outs = s.stats.swap_outs) :
    Inv n₀ L s' T H := by
  refine ⟨?_, ?_, fun r hr => hm.plain hr (h.plain r hr)⟩
  · have hg := h.books.mono (q := Compat n₀ s') (by
      intro x y P hx hy _ hxy
      refine hxy.mono hsw.ge ?_ ?_
      · rintro r v rfl
        exact hm.pte (of_goal_leaf hx).1.1 v
      · rintro r v rfl
        exact hm.pte (of_goal_leaf hy).1.1 v)
    rw [hm.goal, hf]
    exact hg.count_congr (fun P _ => by simp only [refs, hc])
  · intro r hr v hv
    rw [hm.pte hr]
    exact h.flags r hr v hv

theorem Inv.write_held (h : Inv n₀ L s T H) (hp : p ∈ H) (hm : OnPage p s.mem s'.mem)
    (hc : s'.count = s.count) (hf : s'.freelist = s.freelist)
    (hsw : s'.stats.swap_outs = s.stats.swap_outs) : Inv n₀ L s' T H :=
  h.write (h.off_page (h.page_held hp) (fun _ hr _ => h.held_not_table hp hr) hm) hc hf hsw

end Xv6
