import Mathlib.Data.Nat.Digits.Lemmas
import Mathlib.Algebra.Order.Ring.Int

/-!
# Printing integers

`printint` of the kernel's `printf.c` and of the user library's. The two differ in the case of their letters.
-/

namespace Xv6.Printint

-- `char buf[20];`
def bufsize : Nat := 20

def charOf (digits : List Char) (d : Nat) : Char := digits.getD d '\x00'

/-- The digit loop: each turn stores the lowest digit, and `none` is a store past the room that `buf` has left. -/
def storeDigits (digits : List Char) (base : Nat) : (room x : Nat) → (buf : List Char) → Option (List Char)
  | 0, _, _ => none
  | room + 1, x, buf =>
    let buf := buf ++ [charOf digits (x % base)]
    if x / base ≠ 0 then storeDigits digits base room (x / base) buf else some buf

def store (c : Char) (buf : List Char) : Option (List Char) :=
  if buf.length < bufsize then some (buf ++ [c]) else none

/-- What is written for `x` and its sign, the last stored character first. -/
def write (digits : List Char) (base : Nat) (neg : Bool) (x : Nat) : Option (List Char) := do
  let buf ← storeDigits digits base bufsize x []
  let buf ← if neg then store '-' buf else some buf
  return buf.reverse

def printint (digits : List Char) (xx : BitVec 64) (base : Nat) (sign : Bool) : Option (List Char) :=
  let neg := sign && decide (xx.toInt < 0)
  let x := if neg then -xx else xx
  write digits base neg x.toNat

def Kernel.digits : List Char := "0123456789abcdef".toList

def Kernel.printint : BitVec 64 → Nat → Bool → Option (List Char) := Printint.printint Kernel.digits

def Ulib.digits : List Char := "0123456789ABCDEF".toList

def Ulib.printint : BitVec 64 → Nat → Bool → Option (List Char) := Printint.printint Ulib.digits

/-! ## Reading a numeral -/

def digitOf (base : Nat) (c : Char) : Option Nat :=
  let v := if '0' ≤ c ∧ c ≤ '9' then c.toNat - '0'.toNat
    else if 'a' ≤ c ∧ c ≤ 'f' then c.toNat - 'a'.toNat + 10
    else if 'A' ≤ c ∧ c ≤ 'F' then c.toNat - 'A'.toNat + 10 else base
  if v < base then some v else none

def natOf (base : Nat) (cs : List Char) : Option Nat :=
  cs.foldlM (fun v c => (digitOf base c).map (v * base + ·)) 0

def intOf (base : Nat) : List Char → Option Int
  | '-' :: cs => (natOf base cs).map fun v : Nat => -(v : Int)
  | cs => (natOf base cs).map fun v : Nat => (v : Int)

def value (xx : BitVec 64) (sign : Bool) : Int := if sign then xx.toInt else xx.toNat

/-- The one way to write `v`: a sign where it is negative, and digits without a leading zero that it is read from. -/
structure Canonical (base : Nat) (v : Int) (cs : List Char) : Prop where
  reads : intOf base cs = some v
  digits : ∃ ds, cs = (if v < 0 then '-' :: ds else ds) ∧ ds ≠ [] ∧ (ds.head? = some '0' → ds = ['0'])

/-! ## The digit loop -/

variable {base x room : Nat} {digits buf : List Char}

/-- The digits of `x`, the lowest first, with one for zero. -/
def lowFirst (base x : Nat) : List Nat := if x = 0 then [0] else Nat.digits base x

theorem lowFirst_eq (hb : 1 < base) (x : Nat) :
    lowFirst base x = x % base :: if x / base ≠ 0 then lowFirst base (x / base) else [] := by
  unfold lowFirst
  by_cases hx : x = 0
  · simp [hx]
  · rw [if_neg hx, Nat.digits_def' hb (Nat.pos_of_ne_zero hx)]
    by_cases hq : x / base = 0
    · simp [hq]
    · simp [hq]

theorem storeDigits_eq (hb : 1 < base) (hx : x < base ^ room) (hroom : room ≠ 0) : storeDigits digits base room x buf =
    some (buf ++ (lowFirst base x).map (charOf digits)) := by
  induction room generalizing x buf with
  | zero => exact absurd rfl hroom
  | succ room ih =>
    rw [lowFirst_eq hb, storeDigits]
    by_cases hq : x / base = 0
    · simp [hq]
    · have hlt : x / base < base ^ room := Nat.div_lt_of_lt_mul (by rwa [← Nat.pow_succ'])
      have hne : room ≠ 0 := by
        rintro rfl
        rw [Nat.pow_zero] at hlt
        exact hq (Nat.lt_one_iff.mp hlt)
      simp [hq, ih hlt hne]

theorem length_lowFirst_le (hb : 1 < base) (hx : x < base ^ room) (hroom : room ≠ 0) :
    (lowFirst base x).length ≤ room := by
  unfold lowFirst
  split
  · exact Nat.one_le_iff_ne_zero.mpr hroom
  · exact (Nat.digits_length_le_iff hb x).mpr hx

theorem lt_of_mem_lowFirst (hb : 1 < base) {d : Nat} (hd : d ∈ lowFirst base x) : d < base := by
  unfold lowFirst at hd
  split at hd
  · rw [List.mem_singleton.mp hd]
    omega
  · exact Nat.digits_lt_base hb hd

theorem ofDigits_lowFirst (base x : Nat) : Nat.ofDigits base (lowFirst base x) = x := by
  unfold lowFirst
  split
  · simp_all
  · exact Nat.ofDigits_digits base x

/-- The digits that stand for the numbers below `base`. -/
structure Numerals (base : Nat) (digits : List Char) : Prop where
  digitOf : ∀ d < base, digitOf base (charOf digits d) = some d
  zero : ∀ d < base, charOf digits d = '0' → d = 0

theorem natOf_reverse (hn : Numerals base digits) {l : List Nat} (hl : ∀ d ∈ l, d < base) :
    natOf base (l.map (charOf digits)).reverse = some (Nat.ofDigits base l) := by
  induction l with
  | nil => rfl
  | cons d l ih =>
    have hd := hn.digitOf d (hl d List.mem_cons_self)
    have ih := ih fun d hd => hl d (List.mem_cons_of_mem _ hd)
    unfold natOf at ih ⊢
    rw [List.map_cons, List.reverse_cons, List.foldlM_append, ih, Nat.ofDigits_cons]
    simp [hd, Nat.mul_comm, Nat.add_comm]

def numeral (digits : List Char) (base x : Nat) : List Char := ((lowFirst base x).map (charOf digits)).reverse

theorem natOf_numeral (hb : 1 < base) (hn : Numerals base digits) (x : Nat) :
    natOf base (numeral digits base x) = some x := by
  unfold numeral
  rw [natOf_reverse hn fun d hd => lt_of_mem_lowFirst hb hd, ofDigits_lowFirst]

theorem numeral_ne_nil (hb : 1 < base) (x : Nat) : numeral digits base x ≠ [] := by
  unfold numeral
  rw [lowFirst_eq hb]
  simp

theorem numeral_head (hb : 1 < base) (hn : Numerals base digits) (h : (numeral digits base x).head? = some '0') :
    numeral digits base x = ['0'] := by
  unfold numeral at h ⊢
  rw [List.head?_reverse, List.getLast?_map, Option.map_eq_some_iff] at h
  obtain ⟨d, hd, hc⟩ := h
  have h0 := hn.zero d (lt_of_mem_lowFirst hb (List.mem_of_getLast? hd)) hc
  subst h0
  by_cases hx : x = 0
  · rw [lowFirst, if_pos hx]
    simpa using hc
  · -- The digit stored last of a positive number is not zero.
    rw [lowFirst, if_neg hx, List.getLast?_eq_some_getLast (Nat.digits_ne_nil_iff_ne_zero.mpr hx)] at hd
    exact absurd (Option.some.inj hd) (Nat.getLast_digit_ne_zero base hx)

theorem write_eq (hb : 1 < base) {neg : Bool} (hx : x < base ^ bufsize) (hneg : neg = true → x < base ^ 19) :
    write digits base neg x = some (if neg then '-' :: numeral digits base x else numeral digits base x) := by
  unfold write numeral
  rw [storeDigits_eq hb hx (by decide)]
  cases neg
  · simp
  · have hroom := length_lowFirst_le hb (hneg rfl) (by decide)
    have hlt : (lowFirst base x).length < bufsize := Nat.lt_succ_of_le hroom
    simp [store, hlt]

/-! ## The two functions -/

theorem toNat_neg_lt {xx : BitVec 64} (h : xx.toInt < 0) : (-xx).toNat < 10 ^ 19 ∧ -((-xx).toNat : Int) = xx.toInt := by
  rw [BitVec.toNat_neg, BitVec.toInt_eq_toNat_cond] at *
  have := xx.isLt
  split at h
  · omega
  · rw [if_neg (by assumption)]
    omega

theorem intOf_of_natOf {ds : List Char} (h : natOf base ds = some x) : intOf base ds = some (x : Int) := by
  unfold intOf
  split
  · rename_i cs
    simp [natOf, digitOf] at h
  · simp [h]

theorem printint_eq (hb : base = 10 ∨ base = 16) (xx : BitVec 64) (sign : Bool) : printint digits xx base sign =
    some (if value xx sign < 0 then '-' :: numeral digits base (value xx sign).natAbs
      else numeral digits base (value xx sign).natAbs) := by
  have hpow : ∀ k, 10 ^ k ≤ base ^ k := fun k => Nat.pow_le_pow_left (by omega) k
  unfold printint value
  by_cases hneg : sign = true ∧ xx.toInt < 0
  · obtain ⟨rfl, hlt⟩ := hneg
    obtain ⟨hsmall, hval⟩ := toNat_neg_lt hlt
    have habs : xx.toInt.natAbs = (-xx).toNat := by omega
    have hlt20 : (-xx).toNat < base ^ bufsize := (hsmall.trans (by decide)).trans_le (hpow 20)
    simp only [hlt, decide_true, Bool.and_true, if_true, habs]
    rw [write_eq (by omega) hlt20 fun _ => hsmall.trans_le (hpow 19), if_pos rfl]
  · have hoff : (sign && decide (xx.toInt < 0)) = false := by simpa using hneg
    have hlt20 : xx.toNat < base ^ bufsize := (xx.isLt.trans (by decide)).trans_le (hpow 20)
    have hval : (if sign = true then xx.toInt else (xx.toNat : Int)) = xx.toNat := by
      cases sign
      · rfl
      · rw [if_pos rfl]
        exact BitVec.toInt_eq_toNat_of_msb (by simpa [BitVec.msb_eq_toInt] using hneg)
    rw [hval, if_neg (by omega), Int.natAbs_natCast]
    simp only [hoff, Bool.false_eq_true, if_false]
    exact write_eq (by omega) hlt20 (by simp)

theorem canonical_numeral (hb : 1 < base) (hn : Numerals base digits) (v : Int) :
    Canonical base v (if v < 0 then '-' :: numeral digits base v.natAbs else numeral digits base v.natAbs) := by
  have hread := natOf_numeral hb hn v.natAbs
  refine ⟨?_, _, rfl, numeral_ne_nil hb _, numeral_head hb hn⟩
  split
  · rw [intOf, hread, Option.map_some, Option.some.injEq]
    omega
  · rw [intOf_of_natOf hread, Option.some.injEq]
    omega

theorem numerals_kernel (hb : base = 10 ∨ base = 16) : Numerals base Kernel.digits := by
  rcases hb with rfl | rfl
  · exact ⟨by decide, by decide⟩
  · exact ⟨by decide, by decide⟩

theorem numerals_ulib (hb : base = 10 ∨ base = 16) : Numerals base Ulib.digits := by
  rcases hb with rfl | rfl
  · exact ⟨by decide, by decide⟩
  · exact ⟨by decide, by decide⟩

theorem map_toUpper_numeral (hb : base = 10 ∨ base = 16) (x : Nat) :
    (numeral Kernel.digits base x).map Char.toUpper = numeral Ulib.digits base x := by
  have hchar : ∀ d < 16, (charOf Kernel.digits d).toUpper = charOf Ulib.digits d := by decide
  unfold numeral
  rw [List.map_reverse, List.map_map, List.reverse_inj, List.map_inj_left]
  intro d hd
  have hlt : d < base := lt_of_mem_lowFirst (by omega) hd
  exact hchar d (by omega)

/-- Both write the canonical numeral within their buffers, in letters of their case. -/
theorem printint_faithful (xx : BitVec 64) (base : Nat) (sign : Bool) (hb : base = 10 ∨ base = 16) : ∃ cs cs',
    Kernel.printint xx base sign = some cs ∧ Canonical base (value xx sign) cs ∧
      Ulib.printint xx base sign = some cs' ∧ Canonical base (value xx sign) cs' ∧ cs.map Char.toUpper = cs' := by
  have hb1 : 1 < base := by omega
  refine ⟨_, _, printint_eq hb xx sign, canonical_numeral hb1 (numerals_kernel hb) _, printint_eq hb xx sign,
    canonical_numeral hb1 (numerals_ulib hb) _, ?_⟩
  split
  · rw [List.map_cons, map_toUpper_numeral hb]
    rfl
  · exact map_toUpper_numeral hb _

theorem printint_faithful_min : Kernel.printint (BitVec.intMin 64) 10 true = some "-9223372036854775808".toList ∧
    ∃ cs cs', Kernel.printint (BitVec.intMin 64) 10 true = some cs ∧
      Ulib.printint (BitVec.intMin 64) 10 true = some cs' ∧ cs.map Char.toUpper = cs' := by
  obtain ⟨cs, cs', hk, -, hu, -, heq⟩ := printint_faithful (BitVec.intMin 64) 10 true (.inl rfl)
  exact ⟨by decide +kernel, cs, cs', hk, hu, heq⟩

/-! ## Reading it back -/

/-- The loop of `atoi`, on the characters before the NUL. `n` is an `int`. -/
def atoiLoop : BitVec 32 → List Char → BitVec 32
  | n, [] => n
  | n, c :: s => if '0' ≤ c ∧ c ≤ '9' then atoiLoop (n * 10 + BitVec.ofNat 32 (c.toNat - '0'.toNat)) s else n

def Ulib.atoi (s : List Char) : BitVec 32 := atoiLoop 0 s

theorem digitOf_ten {c : Char} {d : Nat} (h : digitOf 10 c = some d) :
    ('0' ≤ c ∧ c ≤ '9') ∧ d = c.toNat - '0'.toNat := by
  unfold digitOf at h
  split_ifs at h <;> simp_all

theorem atoiLoop_eq {cs rest : List Char} {v w : Nat} (hrest : ∀ c ∈ rest.head?, ¬ ('0' ≤ c ∧ c ≤ '9'))
    (h : cs.foldlM (fun v c => (digitOf 10 c).map (v * 10 + ·)) v = some w) :
    atoiLoop (BitVec.ofNat 32 v) (cs ++ rest) = BitVec.ofNat 32 w := by
  induction cs generalizing v with
  | nil =>
    cases Option.some.inj h
    cases rest with
    | nil => rfl
    | cons c rest => rw [List.nil_append, atoiLoop, if_neg (hrest c rfl)]
  | cons c cs ih =>
    rw [List.foldlM_cons, Option.bind_eq_bind, Option.bind_eq_some_iff] at h
    obtain ⟨v', hv, h⟩ := h
    obtain ⟨d, hd, rfl⟩ := Option.map_eq_some_iff.mp hv
    obtain ⟨hc, rfl⟩ := digitOf_ten hd
    rw [List.cons_append, atoiLoop, if_pos hc, ← ih h, BitVec.ofNat_add, BitVec.ofNat_mul]
    rfl

/-- `atoi` reads the low 32 bits of a number that was printed without a sign, and 0 where there is one. -/
theorem atoi_printint (xx : BitVec 64) (sign : Bool) (rest : List Char)
    (hrest : ∀ c ∈ rest.head?, ¬ ('0' ≤ c ∧ c ≤ '9')) : ∃ cs, Ulib.printint xx 10 sign = some cs ∧
      Ulib.atoi (cs ++ rest) = if value xx sign < 0 then 0 else BitVec.ofNat 32 (value xx sign).toNat := by
  refine ⟨_, printint_eq (.inl rfl) xx sign, ?_⟩
  split_ifs with hneg
  · rfl
  · rw [Ulib.atoi, show (0 : BitVec 32) = BitVec.ofNat 32 0 from rfl,
      atoiLoop_eq hrest (natOf_numeral (by decide) (numerals_ulib (.inl rfl)) (value xx sign).natAbs)]
    congr 1
    omega

theorem atoi_printint_line : ∃ cs, Ulib.printint 4294967298 10 true = some cs ∧ Ulib.atoi (cs ++ ['\n']) = 2 := by
  have hrest : ∀ c ∈ ['\n'].head?, ¬ ('0' ≤ c ∧ c ≤ '9') := by
    intro c hc
    cases hc
    decide
  obtain ⟨cs, hcs, h⟩ := atoi_printint 4294967298 true ['\n'] hrest
  exact ⟨cs, hcs, h.trans (by decide)⟩

end Xv6.Printint
