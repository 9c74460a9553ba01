import Mathlib.Data.BitVec
import Mathlib.Tactic.IntervalCases

/-!
# Blocks of bytes

A block has a fixed number of bytes. Words are four bytes, the lowest byte first.
-/

namespace Xv6.Lib

abbrev Block (n : Nat) := Fin n → BitVec 8

namespace Block

variable {n : Nat} {b : Block n} {i j k : Nat} {w : BitVec 32}

def byte (b : Block n) (k : Nat) : BitVec 8 := if h : k < n then b ⟨k, h⟩ else 0

def word (b : Block n) (i : Nat) : BitVec 32 :=
  byte b (4 * i + 3) ++ byte b (4 * i + 2) ++ byte b (4 * i + 1) ++ byte b (4 * i)

def setWord (b : Block n) (i : Nat) (w : BitVec 32) : Block n := fun k =>
  if k.val / 4 = i then w.extractLsb' (8 * (k.val % 4)) 8 else b k

theorem word_bit (b : Block n) (i k : Nat) (hk : k < 32) :
    (word b i).getLsbD k = (byte b (4 * i + k / 8)).getLsbD (k % 8) := by
  simp only [word, BitVec.getLsbD_append]
  interval_cases k <;> simp

theorem byte_setWord (h : k < n) :
    byte (setWord b i w) k = if k / 4 = i then w.extractLsb' (8 * (k % 4)) 8 else byte b k := by
  simp only [byte, setWord, dif_pos h]

theorem word_setWord (h : 4 * i + 4 ≤ n) : word (setWord b i w) i = w := by
  apply BitVec.eq_of_getLsbD_eq
  intro k hk
  have hbyte : k / 8 < 4 := by omega
  rw [word_bit _ _ _ hk, byte_setWord (by omega), if_pos (by omega), BitVec.getLsbD_extractLsb']
  have hbit : 8 * ((4 * i + k / 8) % 4) + k % 8 = k := by omega
  rw [hbit]
  simp [Nat.mod_lt]

theorem word_setWord_of_ne (h : 4 * j + 4 ≤ n) (hne : j ≠ i) : word (setWord b i w) j = word b j := by
  apply BitVec.eq_of_getLsbD_eq
  intro k hk
  have hbyte : k / 8 < 4 := by omega
  rw [word_bit _ _ _ hk, word_bit _ _ _ hk, byte_setWord (by omega), if_neg (by omega)]

def setWords (b : Block n) (i : Nat) : List (BitVec 32) → Block n
  | [] => b
  | w :: ws => setWords (setWord b i w) (i + 1) ws

def words (b : Block n) (i m : Nat) : List (BitVec 32) := (List.range m).map fun j => word b (i + j)

theorem word_setWords_of_lt {ws : List (BitVec 32)} (h : 4 * j + 4 ≤ n) (hlt : j < i) :
    word (setWords b i ws) j = word b j := by
  induction ws generalizing b i with
  | nil => rfl
  | cons w ws ih => rw [setWords, ih (by omega), word_setWord_of_ne h (by omega)]

theorem word_setWords {ws : List (BitVec 32)} (h : 4 * (i + ws.length) ≤ n) (hj : j < ws.length) :
    word (setWords b i ws) (i + j) = ws[j] := by
  induction ws generalizing b i j with
  | nil => simp at hj
  | cons w ws ih =>
    rw [List.length_cons] at h hj
    cases j with
    | zero =>
      rw [setWords, word_setWords_of_lt (by omega) (by omega), Nat.add_zero, word_setWord (by omega)]
      rfl
    | succ j =>
      rw [setWords, show i + (j + 1) = i + 1 + j by omega, ih (by omega) (by omega)]
      rfl

theorem words_setWords {ws : List (BitVec 32)} (h : 4 * (i + ws.length) ≤ n) :
    words (setWords b i ws) i ws.length = ws := by
  apply List.ext_getElem
  · simp [words]
  · intro j hj hj'
    simp only [words, List.getElem_map, List.getElem_range]
    exact word_setWords h hj'

end Block

end Xv6.Lib
