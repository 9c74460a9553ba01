import Mathlib.Computability.Language

/-!
# Regular expressions: `match` of `grep.c`

A string is the list of its characters before the NUL, so the end of the list is where the code reads `'\0'`. What a
pattern means is said on the side: it is read from left to right as a list of items, each with a language.
-/

open Computability

namespace Xv6.Grep

/-! ## The code -/

mutual

def matchhere : List Char → List Char → Bool
  | [], _ => true
  | c :: '*' :: re, text => matchstar c re text
  | ['$'], text => text.isEmpty
  | c :: re, t :: text => (c == '.' || c == t) && matchhere re text
  | _ :: _, [] => false
termination_by re text => (re.length, text.length, 0)

def matchstar (c : Char) (re : List Char) : List Char → Bool
  | [] => matchhere re []
  | t :: text => matchhere re (t :: text) || ((t == c || c == '.') && matchstar c re text)
termination_by text => (re.length, text.length, 1)

end

def matchfrom (re : List Char) : List Char → Bool
  | [] => matchhere re []
  | t :: text => matchhere re (t :: text) || matchfrom re text

def matchre (re text : List Char) : Bool := if re.head? = some '^' then matchhere re.tail text else matchfrom re text

/-! ## What a pattern means -/

inductive Item where
  | one (c : Char)
  | star (c : Char)
  deriving DecidableEq

def items : List Char → List Item
  | [] => []
  | c :: '*' :: re => .star c :: items re
  | c :: re => .one c :: items re

/-- The characters that `c` stands for, as strings. -/
def chars (c : Char) : Language Char := { w | ∃ x, (c = '.' ∨ c = x) ∧ w = [x] }

def Item.lang : Item → Language Char
  | .one c => chars c
  | .star c => (chars c)∗

/-- The pattern ends with a `'$'` that has no star. -/
def Ends (p : List Item) : Prop := p.getLast? = some (.one '$')

instance (p : List Item) : Decidable (Ends p) := inferInstanceAs (Decidable (_ = _))

def body (p : List Item) : List Item := if Ends p then p.dropLast else p

def lang (p : List Item) : Language Char := ((body p).map Item.lang).prod

/-- The text starts with a string of the language, which is all of it if the pattern ends with `'$'`. -/
def Fits (p : List Item) (text : List Char) : Prop := ∃ mid post, text = mid ++ post ∧ mid ∈ lang p ∧ (Ends p → post = [])

variable {c t : Char} {re text : List Char} {i : Item} {p : List Item}

/-! ## The items of a pattern -/

theorem items_one (h : ∀ r, re ≠ '*' :: r) : items (c :: re) = .one c :: items re := by
  rw [items]
  exact h

theorem items_ne_nil : items (c :: re) ≠ [] := by
  cases re with
  | nil => simp [items]
  | cons d re =>
    by_cases hd : d = '*'
    · simp [hd, items]
    · rw [items_one (by simp [hd])]
      simp

theorem ends_cons (hp : p ≠ []) : Ends (i :: p) ↔ Ends p := by
  unfold Ends
  rw [List.getLast?_cons_of_ne_nil hp]

theorem body_cons (h : Ends (i :: p) ↔ Ends p) : body (i :: p) = i :: body p := by
  unfold body
  by_cases hp : Ends p
  · rw [if_pos (h.mpr hp), if_pos hp, List.dropLast_cons_of_ne_nil]
    rintro rfl
    simp [Ends] at hp
  · rw [if_neg (h.not.mpr hp), if_neg hp]

theorem fits_cons (h : Ends (i :: p) ↔ Ends p) :
    Fits (i :: p) text ↔ ∃ u v, text = u ++ v ∧ u ∈ i.lang ∧ Fits p v := by
  unfold Fits lang
  rw [body_cons h, List.map_cons, List.prod_cons, h]
  constructor
  · rintro ⟨mid, post, rfl, hmid, hend⟩
    obtain ⟨u, hu, v, hv, rfl⟩ := Language.mem_mul.mp hmid
    exact ⟨u, v ++ post, List.append_assoc .., hu, v, post, rfl, hv, hend⟩
  · rintro ⟨u, _, rfl, hu, v, post, rfl, hv, hend⟩
    exact ⟨u ++ v, post, (List.append_assoc ..).symm, Language.mem_mul.mpr ⟨u, hu, v, hv, rfl⟩, hend⟩

theorem fits_nil : Fits [] text := ⟨[], text, rfl, by simp [lang, body, Ends], by simp [Ends]⟩

theorem fits_end : Fits [.one '$'] text ↔ text = [] := by
  simp [Fits, lang, body, Ends]

theorem ends_star : Ends (.star c :: p) ↔ Ends p := by
  cases p with
  | nil => simp [Ends]
  | cons j p => exact ends_cons (by simp)

theorem mem_star {w : List Char} : w ∈ (chars c)∗ ↔ ∀ x ∈ w, c = '.' ∨ c = x := by
  rw [Language.mem_kstar]
  constructor
  · rintro ⟨ws, rfl, hws⟩ x hx
    obtain ⟨w, hw, hxw⟩ := List.mem_flatten.mp hx
    obtain ⟨y, hy, rfl⟩ := hws w hw
    rwa [List.mem_singleton.mp hxw]
  · intro h
    refine ⟨w.map fun x => [x], (List.flatMap_singleton' w).symm, ?_⟩
    intro u hu
    obtain ⟨x, hx, rfl⟩ := List.mem_map.mp hu
    exact ⟨x, h x hx, rfl⟩

theorem fits_star : Fits (.star c :: p) text ↔ ∃ u v, text = u ++ v ∧ (∀ x ∈ u, c = '.' ∨ c = x) ∧ Fits p v := by
  simp only [fits_cons ends_star, Item.lang, mem_star]

theorem fits_one (h : p = [] → c ≠ '$') :
    Fits (.one c :: p) text ↔ ∃ x rest, text = x :: rest ∧ (c = '.' ∨ c = x) ∧ Fits p rest := by
  have hends : Ends (.one c :: p) ↔ Ends p := by
    cases p with
    | nil => simpa [Ends] using h rfl
    | cons j p => exact ends_cons (by simp)
  rw [fits_cons hends]
  constructor
  · rintro ⟨_, v, rfl, ⟨x, hx, rfl⟩, hv⟩
    exact ⟨x, v, rfl, hx, hv⟩
  · rintro ⟨x, v, rfl, hx, hv⟩
    exact ⟨[x], v, rfl, ⟨x, hx, rfl⟩, hv⟩

/-! ## The matcher finds what the pattern means -/

theorem takes_iff : (t == c || c == '.') = true ↔ c = '.' ∨ c = t := by
  rw [Bool.or_eq_true, beq_iff_eq, beq_iff_eq, or_comm, eq_comm (a := t)]

theorem matchstar_iff (ih : ∀ text, matchhere re text = true ↔ Fits (items re) text) :
    matchstar c re text = true ↔ ∃ u v, text = u ++ v ∧ (∀ x ∈ u, c = '.' ∨ c = x) ∧ Fits (items re) v := by
  induction text with
  | nil =>
    rw [matchstar, ih]
    constructor
    · intro h
      exact ⟨[], [], rfl, by simp, h⟩
    · rintro ⟨u, v, huv, -, h⟩
      rwa [(List.append_eq_nil_iff.mp huv.symm).2] at h
  | cons t text iht =>
    rw [matchstar, Bool.or_eq_true, Bool.and_eq_true, takes_iff, ih, iht]
    constructor
    · rintro (h | ⟨ht, u, v, rfl, hu, h⟩)
      · exact ⟨[], _, rfl, by simp, h⟩
      · exact ⟨t :: u, v, rfl, List.forall_mem_cons.mpr ⟨ht, hu⟩, h⟩
    · rintro ⟨u, v, huv, hu, h⟩
      cases u with
      | nil => exact .inl (huv ▸ h)
      | cons x u =>
        obtain ⟨rfl, rfl⟩ := List.cons_eq_cons.mp huv
        rw [List.forall_mem_cons] at hu
        exact .inr ⟨hu.1, u, v, rfl, hu.2, h⟩

theorem matchhere_iff (re text : List Char) : matchhere re text = true ↔ Fits (items re) text := by
  induction hn : re.length using Nat.strong_induction_on generalizing re text with
  | _ n ih =>
    subst hn
    unfold matchhere
    split
    · simp [items, fits_nil]
    · rename_i c re
      rw [items, fits_star]
      apply matchstar_iff
      intro text
      exact ih _ (by rw [List.length_cons, List.length_cons]; omega) re text rfl
    · rw [items_one (by simp), items, fits_end, List.isEmpty_iff]
    · rename_i c re t text hstar hdollar
      rw [items_one fun r hr => hstar r hr, fits_one, Bool.and_eq_true, ih _ (by simp) re text rfl]
      · simp
      · intro hnil hc
        cases re with
        | nil => exact hdollar hc rfl
        | cons d re => exact items_ne_nil hnil
    · rename_i c re hstar hdollar
      rw [items_one fun r hr => hstar r hr, fits_one]
      · simp
      · intro hnil hc
        cases re with
        | nil => exact hdollar hc rfl
        | cons d re => exact items_ne_nil hnil

theorem matchfrom_iff : matchfrom re text = true ↔ ∃ u v, text = u ++ v ∧ Fits (items re) v := by
  induction text with
  | nil => simp [matchfrom, matchhere_iff, and_assoc]
  | cons t text ih =>
    rw [matchfrom, Bool.or_eq_true, matchhere_iff, ih]
    constructor
    · rintro (h | ⟨u, v, rfl, h⟩)
      · exact ⟨[], _, rfl, h⟩
      · exact ⟨t :: u, v, rfl, h⟩
    · rintro ⟨u, v, huv, h⟩
      cases u with
      | nil => exact .inl (huv ▸ h)
      | cons x u =>
        obtain ⟨rfl, rfl⟩ := List.cons_eq_cons.mp huv
        exact .inr ⟨u, v, rfl, h⟩

def unhatted (re : List Char) : List Char := if re.head? = some '^' then re.tail else re

/-- A text matches if one of its substrings is in the language of the pattern, at the start of the text if the pattern
starts with `'^'`, and at its end if the pattern ends with a `'$'` that has no star. -/
theorem match_iff (re text : List Char) : matchre re text = true ↔ ∃ pre mid post, text = pre ++ mid ++ post ∧
    mid ∈ lang (items (unhatted re)) ∧ (re.head? = some '^' → pre = []) ∧ (Ends (items (unhatted re)) → post = []) := by
  unfold matchre unhatted
  by_cases hhat : re.head? = some '^'
  · simp only [hhat, if_true, matchhere_iff, Fits]
    constructor
    · rintro ⟨mid, post, rfl, h, hend⟩
      exact ⟨[], mid, post, rfl, h, fun _ => rfl, hend⟩
    · rintro ⟨pre, mid, post, rfl, h, hpre, hend⟩
      rw [hpre trivial]
      exact ⟨mid, post, rfl, h, hend⟩
  · simp only [hhat, if_false, matchfrom_iff, Fits]
    constructor
    · rintro ⟨pre, _, rfl, mid, post, rfl, h, hend⟩
      exact ⟨pre, mid, post, (List.append_assoc ..).symm, h, False.elim, hend⟩
    · rintro ⟨pre, mid, post, rfl, h, -, hend⟩
      exact ⟨pre, mid ++ post, List.append_assoc .., mid, post, rfl, h, hend⟩

end Xv6.Grep
