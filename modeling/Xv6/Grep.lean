import Xv6.Match

/-!
# `grep` of `grep.c`

The input is cut into pieces by `read`, and the lines are looked for in a buffer of fixed size. Calls of `write` become
the characters written. The input has no NUL, so `strchr` sees all that is in the buffer.
-/

namespace Xv6.Grep

def BUFSIZE : Nat := 1024

def strchr (c : Char) : List Char → Option (List Char × List Char)
  | [] => none
  | x :: s => if x = c then some ([], s) else (strchr c s).map fun r => (x :: r.1, r.2)

variable {re l s p input buf : List Char} {c : Char}

theorem strchr_line (h : c ∉ l) : strchr c (l ++ c :: s) = some (l, s) := by
  induction l with
  | nil => simp [strchr]
  | cons x l ih =>
    rw [List.mem_cons, not_or] at h
    simp [strchr, Ne.symm h.1, ih h.2]

theorem strchr_last (h : c ∉ s) : strchr c s = none := by
  induction s with
  | nil => rfl
  | cons x s ih =>
    rw [List.mem_cons, not_or] at h
    simp [strchr, Ne.symm h.1, ih h.2]

theorem strchr_length {r : List Char × List Char} (h : strchr c p = some r) : r.2.length < p.length := by
  by_cases hc : c ∈ p
  · obtain ⟨l, s, rfl, hl⟩ := List.eq_append_cons_of_mem hc
    rw [strchr_line hl] at h
    cases h
    simp only [List.length_append, List.length_cons]
    omega
  · rw [strchr_last hc] at h
    cases h

/-- The inner loop: what it writes, and what it leaves in the buffer. -/
def scan (re p : List Char) : List Char × List Char :=
  match _ : strchr '\n' p with
  | none => ([], p)
  | some r => ((if matchre re r.1 then r.1 ++ ['\n'] else []) ++ (scan re r.2).1, (scan re r.2).2)
termination_by p.length
decreasing_by all_goals exact strchr_length ‹_›

/-- How much the call number `k` of `read` gives: what `cut` says, but something if there is room, and no more than
there is room for. -/
def amount (cut : Nat → Nat) (k room : Nat) : Nat := min (max 1 (cut k)) room

def loop (re : List Char) (cut : Nat → Nat) (k : Nat) (buf input : List Char) : List Char :=
  if _ : input.take (amount cut k (BUFSIZE - buf.length - 1)) = [] then []
  else
    let r := scan re (buf ++ input.take (amount cut k (BUFSIZE - buf.length - 1)))
    r.1 ++ loop re cut (k + 1) r.2 (input.drop (amount cut k (BUFSIZE - buf.length - 1)))
termination_by input.length
decreasing_by
  rename_i h
  rw [List.length_drop]
  rw [List.take_eq_nil_iff, not_or] at h
  have := List.length_pos_iff.mpr h.2
  omega

def grep (re : List Char) (cut : Nat → Nat) (input : List Char) : List Char := loop re cut 0 [] input

/-! ## The lines of the input -/

def lines (s : List Char) : List (List Char) := (s.splitOn '\n').dropLast

def last (s : List Char) : List Char := (s.splitOn '\n').getLast?.getD []

def written (re : List Char) (ls : List (List Char)) : List Char := (ls.filter (matchre re)).flatMap (· ++ ['\n'])

def wanted (re input : List Char) : List Char :=
  written re (lines input) ++ if last input ≠ [] ∧ matchre re (last input) then last input else []

theorem lines_line (h : '\n' ∉ l) : lines (l ++ '\n' :: s) = l :: lines s := by
  rw [lines, List.splitOn_append_cons_self_of_not_mem h, List.dropLast_cons_of_ne_nil (List.splitOn_ne_nil _ _), lines]

theorem lines_last (h : '\n' ∉ s) : lines s = [] := by
  rw [lines, List.splitOn_eq_singleton h]
  rfl

theorem last_line (h : '\n' ∉ l) : last (l ++ '\n' :: s) = last s := by
  rw [last, List.splitOn_append_cons_self_of_not_mem h, List.getLast?_cons_of_ne_nil (List.splitOn_ne_nil _ _), last]

theorem last_last (h : '\n' ∉ s) : last s = s := by
  rw [last, List.splitOn_eq_singleton h]
  rfl

theorem lines_induction {P : List Char → Prop} (hlast : ∀ s, '\n' ∉ s → P s)
    (hline : ∀ l s, '\n' ∉ l → P s → P (l ++ '\n' :: s)) (s : List Char) : P s := by
  induction hn : s.length using Nat.strong_induction_on generalizing s with
  | _ n ih =>
    subst hn
    by_cases hs : '\n' ∈ s
    · obtain ⟨l, s, rfl, hl⟩ := List.eq_append_cons_of_mem hs
      apply hline l s hl
      exact ih _ (by simp only [List.length_append, List.length_cons]; omega) s rfl
    · exact hlast s hs

theorem lines_append (s t : List Char) : lines (s ++ t) = lines s ++ lines (last s ++ t) := by
  induction s using lines_induction with
  | hlast s h => rw [lines_last h, last_last h, List.nil_append]
  | hline l s h ih => rw [List.append_assoc, List.cons_append, lines_line h, lines_line h, last_line h, ih, List.cons_append]

theorem last_clean (s : List Char) : '\n' ∉ last s := by
  induction s using lines_induction with
  | hlast s h => rwa [last_last h]
  | hline l s h ih => rwa [last_line h]

theorem length_last_le (s : List Char) : (last s).length ≤ s.length := by
  induction s using lines_induction with
  | hlast s h => rw [last_last h]
  | hline l s h ih =>
    rw [last_line h, List.length_append, List.length_cons]
    omega

theorem length_lt_of_mem_lines (h : l ∈ lines s) : l.length < s.length := by
  induction s using lines_induction with
  | hlast s hs =>
    rw [lines_last hs] at h
    cases h
  | hline l' s hl ih =>
    rw [List.length_append, List.length_cons]
    rw [lines_line hl, List.mem_cons] at h
    rcases h with rfl | h
    · omega
    · have := ih h
      omega

theorem scan_eq (re s : List Char) : scan re s = (written re (lines s), last s) := by
  induction s using lines_induction with
  | hlast s h =>
    rw [lines_last h, last_last h]
    unfold scan
    split
    · rfl
    · rename_i r hr
      rw [strchr_last h] at hr
      cases hr
  | hline l s h ih =>
    rw [lines_line h, last_line h]
    unfold scan
    split
    · rename_i hr
      rw [strchr_line h] at hr
      cases hr
    · rename_i r hr
      rw [strchr_line h] at hr
      cases hr
      rw [ih]
      simp only [written, List.filter_cons]
      split <;> simp

/-! ## What the loop writes -/

/-- The lines before the first one that does not fit in the buffer. -/
def fitting (s : List Char) : List (List Char) := (lines s).takeWhile fun l => l.length + 2 ≤ BUFSIZE

/-- A full buffer without a newline holds the start of a line that does not fit. -/
theorem fitting_full (h : '\n' ∉ buf) (hlen : BUFSIZE - buf.length - 1 = 0) : fitting (buf ++ input) = [] := by
  unfold fitting
  by_cases hin : '\n' ∈ input
  · obtain ⟨l, s, rfl, hl⟩ := List.eq_append_cons_of_mem hin
    rw [← List.append_assoc, lines_line (by simp [h, hl]), List.takeWhile_cons_of_neg]
    simp only [List.length_append, decide_eq_true_eq]
    omega
  · rw [lines_last (by simp [h, hin]), List.takeWhile_nil]

theorem fitting_append (hlen : s.length < BUFSIZE) (t : List Char) :
    fitting (s ++ t) = lines s ++ fitting (last s ++ t) := by
  unfold fitting
  rw [lines_append, List.takeWhile_append_of_pos]
  intro l hl
  have := length_lt_of_mem_lines hl
  simp only [decide_eq_true_eq]
  omega

theorem written_append (re : List Char) (ls ls' : List (List Char)) :
    written re (ls ++ ls') = written re ls ++ written re ls' := by
  simp [written]

theorem loop_eq (cut : Nat → Nat) (k : Nat) (h : '\n' ∉ buf) (hlen : buf.length < BUFSIZE) :
    loop re cut k buf input = written re (fitting (buf ++ input)) := by
  induction hn : input.length using Nat.strong_induction_on generalizing input buf k with
  | _ n ih =>
    subst hn
    unfold loop
    split
    · rename_i hnil
      have hfit : fitting (buf ++ input) = [] := by
        rcases List.take_eq_nil_iff.mp hnil with h0 | rfl
        · apply fitting_full h
          unfold amount at h0
          omega
        · rw [List.append_nil, fitting, lines_last h, List.takeWhile_nil]
      rw [hfit]
      rfl
    · rename_i hsome
      generalize hm : amount cut k (BUFSIZE - buf.length - 1) = m at hsome ⊢
      have hroom : (buf ++ input.take m).length < BUFSIZE := by
        have : m ≤ BUFSIZE - buf.length - 1 := hm ▸ Nat.min_le_right ..
        rw [List.length_append, List.length_take]
        omega
      have hshort := length_last_le (buf ++ input.take m)
      have hless : (input.drop m).length < input.length := by
        rw [List.take_eq_nil_iff, not_or] at hsome
        have := List.length_pos_iff.mpr hsome.2
        rw [List.length_drop]
        omega
      have hrest := ih _ hless (k + 1) (last_clean _) (hshort.trans_lt hroom) rfl
      rw [scan_eq]
      dsimp only
      rw [hrest, ← written_append, ← fitting_append hroom, List.append_assoc, List.take_append_drop]

theorem grep_eq (re : List Char) (cut : Nat → Nat) (input : List Char) :
    grep re cut input = written re (fitting input) := loop_eq cut 0 (by simp) (by decide)

/-! ## When that is what is wanted -/

theorem written_eq_nil {ls : List (List Char)} : written re ls = [] ↔ ∀ l ∈ ls, matchre re l = false := by
  unfold written
  rw [List.flatMap_eq_nil_iff]
  simp

/-- Whatever the reads give, `grep` writes the lines that match if and only if none of them is, or comes after, a line
of more than 1022 characters, and a last line without a newline does not match. -/
theorem grep_exact_iff (re : List Char) (cut : Nat → Nat) (input : List Char) : grep re cut input = wanted re input ↔
    (∀ l ∈ (lines input).dropWhile fun l => l.length ≤ 1022, matchre re l = false) ∧
      (last input = [] ∨ matchre re (last input) = false) := by
  have hfit : fitting input = (lines input).takeWhile fun l => l.length ≤ 1022 := by
    unfold fitting BUFSIZE
    congr
    funext l
    simp
  have hsplit : written re (lines input) = written re (fitting input) ++
      written re ((lines input).dropWhile fun l => l.length ≤ 1022) := by
    rw [hfit, ← written_append, List.takeWhile_append_dropWhile]
  rw [grep_eq, wanted, hsplit, List.append_assoc, List.self_eq_append_right, List.append_eq_nil_iff, written_eq_nil]
  by_cases hl : last input = []
  · simp [hl]
  · simp [hl]

/-- A last line without a newline is not written, and neither is anything from a line of 1023 characters on. -/
theorem grep_loses_lines : grep ['a'] (fun _ => 1) ['a'] ≠ wanted ['a'] ['a'] ∧
    grep ['a'] (fun _ => 512) (List.replicate 1023 'b' ++ ['\n', 'a', '\n']) ≠
      wanted ['a'] (List.replicate 1023 'b' ++ ['\n', 'a', '\n']) := by
  have hmatch : matchre ['a'] ['a'] = true := by
    simp [matchre, matchfrom, matchhere]
  have hlong : '\n' ∉ List.replicate 1023 'b' := fun h => absurd (List.eq_of_mem_replicate h) (by decide)
  have hlen : (List.replicate 1023 'b').length = 1023 := List.length_replicate
  generalize List.replicate 1023 'b' = b at hlong hlen ⊢
  have hlast : last (['a', '\n'] : List Char) = [] := last_line (l := ['a']) (s := []) (by simp)
  have hlines : lines (['a', '\n'] : List Char) = [['a']] := lines_line (l := ['a']) (s := []) (by simp)
  constructor
  · rw [grep_eq, wanted, fitting, lines_last (by simp), last_last (by simp)]
    simp [written, hmatch]
  · rw [grep_eq, wanted, fitting, lines_line hlong, last_line hlong, hlines, hlast,
      List.takeWhile_cons_of_neg (by simp [BUFSIZE, hlen])]
    cases hb : matchre ['a'] b <;> simp [written, hmatch, hb]

end Xv6.Grep
