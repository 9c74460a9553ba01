import Mathlib.Data.BitVec
import Mathlib.Tactic.IntervalCases

/-!
# Pages, addresses and page-table entries

The constants and macros of `riscv.h`, `memlayout.h` and `param.h` that the memory code
uses. Addresses and sizes are numbers below `2 ^ 64`, entries are 64-bit words.
-/

namespace Xv6

/-! ## Sizes and the memory map -/

abbrev PGSIZE : Nat := 4096
abbrev BSIZE : Nat := 1024
abbrev NPROC : Nat := 64
abbrev MAXARG : Nat := 32
abbrev FSSIZE : Nat := 2000
abbrev ROOTDEV : Nat := 1
abbrev USERSTACK : Nat := 1

abbrev KERNBASE : Nat := 0x80000000
abbrev PHYSTOP : Nat := KERNBASE + 128 * 1024 * 1024

abbrev MAXVA : Nat := 2 ^ (9 + 9 + 9 + 12 - 1)
abbrev TRAMPOLINE : Nat := MAXVA - PGSIZE
abbrev TRAPFRAME : Nat := TRAMPOLINE - PGSIZE

-- `uint64` arithmetic: the sum wraps before it is rounded.
def PGROUNDUP (sz : Nat) : Nat := (sz + PGSIZE - 1) % 2 ^ 64 / PGSIZE * PGSIZE

def PGROUNDDOWN (a : Nat) : Nat := a / PGSIZE * PGSIZE

def PX (level va : Nat) : Nat := (va >>> (12 + 9 * level)) &&& 0x1FF

theorem PX_eq (level va : Nat) : PX level va = va / 2 ^ (12 + 9 * level) % 512 := by
  rw [PX, Nat.shiftRight_eq_div_pow, show 0x1FF = 2 ^ 9 - 1 from rfl,
    Nat.and_two_pow_sub_one_eq_mod]

theorem PGROUNDUP_eq {sz : Nat} (h : sz ≤ MAXVA) : PGROUNDUP sz = (sz + 4095) / 4096 * 4096 := by
  simp only [PGROUNDUP, PGSIZE, MAXVA] at *
  omega

/-! ## Entries -/

abbrev Pte := BitVec 64

def PTE_V : Pte := 1#64 <<< 0
def PTE_R : Pte := 1#64 <<< 1
def PTE_W : Pte := 1#64 <<< 2
def PTE_X : Pte := 1#64 <<< 3
def PTE_U : Pte := 1#64 <<< 4
def PTE_COW : Pte := 1#64 <<< 8
def PTE_SWAPPED : Pte := 1#64 <<< 9

def has (pte flag : Pte) : Bool := pte &&& flag != 0#64

def PA2PTE (pa : Nat) : Pte := (BitVec.ofNat 64 pa >>> 12) <<< 10

def PTE2PA (pte : Pte) : Nat := ((pte >>> 10) <<< 12).toNat

def PTE_FLAGS (pte : Pte) : Pte := pte &&& 0x3FF#64

/-! ## Addresses in entries -/

/-- Flag bits only: nothing above bit 9. -/
def Small (f : Pte) : Prop := f >>> 10 = 0#64

instance (f : Pte) : Decidable (Small f) := inferInstanceAs (Decidable (f >>> 10 = 0#64))

theorem Small.bit {f : Pte} (hf : Small f) {i : Nat} (hi : 10 ≤ i) : f.getLsbD i = false := by
  have := congrArg (fun z : Pte => z.getLsbD (i - 10)) hf
  simpa [Nat.add_sub_cancel' hi] using this

theorem Small.or {f g : Pte} (hf : Small f) (hg : Small g) : Small (f ||| g) := by
  unfold Small at *
  rw [BitVec.ushiftRight_or_distrib, hf, hg]
  rfl

theorem Small.and {f g : Pte} (hf : Small f) : Small (f &&& g) := by
  unfold Small at *
  rw [BitVec.ushiftRight_and_distrib, hf]
  simp

theorem small_flags (pte : Pte) : Small (PTE_FLAGS pte) := by
  unfold Small PTE_FLAGS
  rw [BitVec.ushiftRight_and_distrib, show (0x3FF#64 >>> 10) = 0#64 from by decide]
  simp

theorem small_V : Small PTE_V := by decide
theorem small_R : Small PTE_R := by decide
theorem small_W : Small PTE_W := by decide
theorem small_X : Small PTE_X := by decide
theorem small_U : Small PTE_U := by decide
theorem small_COW : Small PTE_COW := by decide
theorem small_SWAPPED : Small PTE_SWAPPED := by decide

theorem PTE2PA_or {pte f : Pte} (hf : Small f) : PTE2PA (pte ||| f) = PTE2PA pte := by
  unfold PTE2PA
  rw [BitVec.ushiftRight_or_distrib, hf]
  simp

theorem PTE2PA_and_not {pte f : Pte} (hf : Small f) : PTE2PA (pte &&& ~~~f) = PTE2PA pte := by
  unfold PTE2PA
  congr 2
  apply BitVec.eq_of_getLsbD_eq
  intro i hi
  have hbit : f.getLsbD (10 + i) = false := hf.bit (by omega)
  simp only [BitVec.getLsbD_ushiftRight, BitVec.getLsbD_and, BitVec.getLsbD_not, hbit]
  by_cases hlt : 10 + i < 64
  · simp [hlt]
  · simp [BitVec.getLsbD_of_ge pte (10 + i) (by omega)]

theorem PTE2PA_PA2PTE {pa : Nat} (ha : pa % PGSIZE = 0) (hlt : pa < 2 ^ 56) :
    PTE2PA (PA2PTE pa) = pa := by
  simp only [PTE2PA, PA2PTE, BitVec.toNat_shiftLeft, BitVec.toNat_ushiftRight, BitVec.toNat_ofNat,
    Nat.shiftLeft_eq, Nat.shiftRight_eq_div_pow, PGSIZE] at *
  omega

/-! ## Flags of the entries that the code builds -/

@[simp] theorem has_zero (f : Pte) : has 0#64 f = false := by simp [has]

@[simp] theorem has_or (x y f : Pte) : has (x ||| y) f = (has x f || has y f) := by
  have hdist : (x ||| y) &&& f = x &&& f ||| y &&& f := by
    apply BitVec.eq_of_getLsbD_eq
    intro i _
    simp [Bool.and_or_distrib_right]
  rw [Bool.eq_iff_iff]
  simp only [has, hdist, bne_iff_ne, ne_eq, Bool.or_eq_true, BitVec.or_eq_zero_iff]
  tauto

theorem has_and_not {x f g : Pte} (h : f &&& g = 0#64) : has (x &&& ~~~g) f = has x f := by
  have hf : ~~~g &&& f = f := by
    apply BitVec.eq_of_getLsbD_eq
    intro i hi
    have hbit := congrArg (fun z : Pte => z.getLsbD i) h
    simp only [BitVec.getLsbD_and, BitVec.getLsbD_zero] at hbit
    rw [BitVec.getLsbD_and, BitVec.getLsbD_not]
    cases hfi : f.getLsbD i <;> simp_all
  unfold has
  rw [BitVec.and_assoc, hf]

@[simp] theorem has_and_not_self (x f : Pte) : has (x &&& ~~~f) f = false := by
  unfold has
  rw [BitVec.and_assoc, BitVec.and_comm (~~~f)]
  simp

theorem has_PA2PTE {f : Pte} (pa : Nat) (hf : Small f) : has (PA2PTE pa) f = false := by
  have h0 : PA2PTE pa &&& f = 0#64 := by
    apply BitVec.eq_of_getLsbD_eq
    intro i hi
    rw [PA2PTE, BitVec.getLsbD_and, BitVec.getLsbD_shiftLeft]
    by_cases h10 : i < 10
    · simp [h10]
    · have hbit : f.getLsbD i = false := hf.bit (by omega)
      simp [hbit]
  simp [has, h0]

theorem has_FLAGS {f : Pte} (pte : Pte) (hf : Small f) : has (PTE_FLAGS pte) f = has pte f := by
  have hmask : 0x3FF#64 &&& f = f := by
    apply BitVec.eq_of_getLsbD_eq
    intro i hi
    rw [BitVec.getLsbD_and]
    by_cases h10 : i < 10
    · have : (0x3FF#64).getLsbD i = true := by
        interval_cases i <;> rfl
      simp [this]
    · have hbit : f.getLsbD i = false := hf.bit (by omega)
      simp [hbit]
  unfold has PTE_FLAGS
  rw [BitVec.and_assoc, hmask]

end Xv6
