import Xv6.Files.Entries

/-!
# Names in a list of entries

A string is the bytes before its NUL; a name of `DIRSIZ` bytes has none. `strncmp` and `strncpy` both stop at
`DIRSIZ` bytes, so that entries with different names are found apart.
-/

open Xv6.Lib

namespace Xv6.Files

/-! ## `string.c` -/

def strncmp : List Byte → List Byte → Nat → Int
  | _, _, 0 => 0
  | p, q, n + 1 =>
    if p.headD 0 ≠ 0 ∧ p.headD 0 = q.headD 0 then strncmp p.tail q.tail n
    else (p.headD 0).toNat - (q.headD 0).toNat

def strncpy : List Byte → Nat → List Byte
  | _, 0 => []
  | t, n + 1 => t.headD 0 :: if t.headD 0 ≠ 0 then strncpy t.tail n else List.replicate n 0

section strings

variable {n : Nat}

def field (n : Nat) (bs : List Byte) : List Byte := (bs.take n).takeWhile (· ≠ 0)

theorem field_succ (bs : List Byte) :
    field (n + 1) bs = if bs.headD 0 ≠ 0 then bs.headD 0 :: field n bs.tail else [] := by
  cases bs with
  | nil => rfl
  | cons b bs =>
    unfold field
    rw [List.take_succ_cons, List.takeWhile_cons, List.headD_cons, List.tail_cons]
    simp only [decide_eq_true_eq]

theorem strncmp_eq_zero (p q : List Byte) : strncmp p q n = 0 ↔ field n p = field n q := by
  induction n generalizing p q with
  | zero => simp [strncmp, field]
  | succ n ih =>
    rw [strncmp, field_succ, field_succ]
    generalize p.headD 0 = a
    generalize q.headD 0 = b
    by_cases hab : a = b
    · subst hab
      split_ifs with h1 h2 h2
      · rw [ih, List.cons_inj_right]
      · exact absurd h1.1 h2
      · exact absurd ⟨h2, rfl⟩ h1
      · simp
    · rw [if_neg fun h => hab h.2]
      have hne : (a.toNat : Int) - b.toNat ≠ 0 := by
        intro h
        exact hab (BitVec.eq_of_toNat_eq (by omega))
      refine iff_of_false hne ?_
      split_ifs with h1 h2 h2
      · simp [hab]
      · simp
      · simp
      · exact absurd ((not_not.mp h1).trans (not_not.mp h2).symm) hab

theorem strncpy_eq (t : List Byte) : strncpy t n = (field n t ++ List.replicate n 0).take n := by
  induction n generalizing t with
  | zero => simp [strncpy]
  | succ n ih =>
    rw [strncpy, field_succ]
    split_ifs with h
    · rw [List.cons_append, List.take_succ_cons, ih]
      congr 1
      rw [List.take_append, List.take_append, List.take_replicate, List.take_replicate]
      congr 2
      omega
    · rw [List.nil_append, List.take_of_length_le (by simp), List.replicate_succ, not_not.mp h]

theorem namecmp_eq (s t : Name) : namecmp s t = decide (strncmp s t DIRSIZ = 0) := by
  rw [namecmp, decide_eq_decide, strncmp_eq_zero]
  rfl

theorem namecmp_decode (name : Name) (bs : List Byte) :
    namecmp name (Dirent.decode bs).name = decide (strncmp name (bs.drop 2) DIRSIZ = 0) := by
  rw [← namecmp_eq, namecmp, namecmp, Dirent.decode, cstring_cstring]

theorem encode_eq (inum : Nat) (name : Name) : Dirent.encode ⟨inum, name⟩ =
    [BitVec.ofNat 8 inum, BitVec.ofNat 8 (inum / 256)] ++ strncpy name DIRSIZ := by
  rw [strncpy_eq]
  rfl

/-- The entry that `dirlink` writes is found under the names that `strncmp` cannot tell from the one it was made with. -/
theorem entry_found_by_name {inum : Nat} (h : inum < 2 ^ 16) (name key : Name) :
    Dirent.encode ⟨inum, name⟩ = [BitVec.ofNat 8 inum, BitVec.ofNat 8 (inum / 256)] ++ strncpy name DIRSIZ ∧
    (Dirent.decode (Dirent.encode ⟨inum, name⟩)).inum = inum ∧
    (strncmp key ((Dirent.encode ⟨inum, name⟩).drop 2) DIRSIZ = 0 ↔ strncmp key name DIRSIZ = 0) ∧
    namecmp key (Dirent.decode (Dirent.encode ⟨inum, name⟩)).name = decide (strncmp key name DIRSIZ = 0) := by
  have hfound : namecmp key (Dirent.decode (Dirent.encode ⟨inum, name⟩)).name = namecmp key name := by
    rw [decode_encode h, namecmp, namecmp, cstring_cstring]
  refine ⟨encode_eq inum name, by rw [decode_encode h], ?_, by rw [hfound, namecmp_eq]⟩
  rwa [namecmp_decode, namecmp_eq, decide_eq_decide] at hfound

theorem entry_found_by_name_long : strncmp (List.replicate 15 97#8)
    ((Dirent.encode ⟨3, List.replicate 14 97#8 ++ [98#8]⟩).drop 2) DIRSIZ = 0 :=
  (entry_found_by_name (by decide) _ _).2.2.1.mpr (by decide)

end strings

/-! ## A list of entries is a map -/

variable {name : Name} {l : List Dirent} {e : Dirent} {k inum : Nat} {x : Nat × Nat}

def Distinct (l : List Dirent) : Prop := ∀ (j k : Nat) (e e' : Dirent), l[j]? = some e → l[k]? = some e' →
  e.inum ≠ 0 → e'.inum ≠ 0 → cstring e.name = cstring e'.name → j = k

theorem namecmp_iff {s t : Name} : namecmp s t = true ↔ cstring s = cstring t := by simp [namecmp]

theorem Distinct.lookup_eq (h : Distinct l) : lookup name l 0 = some x ↔ ∃ (k : Nat) (e : Dirent), l[k]? = some e ∧ e.inum ≠ 0 ∧
    cstring name = cstring e.name ∧ x = (e.inum, DIRENT_SIZE * k) := by
  constructor
  · intro hx
    obtain ⟨k, hk, hoff, hi, h0, hn⟩ := lookup_some hx
    refine ⟨k, l[k], List.getElem?_eq_getElem hk, by rwa [hi], namecmp_iff.mp hn, ?_⟩
    rw [hi, ← Nat.zero_add (DIRENT_SIZE * k), ← hoff]
  · rintro ⟨k, e, he, h0, hn, rfl⟩
    cases hl : lookup name l 0 with
    | none =>
      have := lookup_none.mp hl e (List.mem_of_getElem? he) h0
      rw [namecmp_iff.mpr hn] at this
      cases this
    | some y =>
      obtain ⟨j, hj, hoff, hi, h0', hn'⟩ := lookup_some hl
      have hself := List.getElem?_eq_getElem hj
      have hjk := h j k _ _ hself he (by rwa [hi]) h0 (by rw [← namecmp_iff.mp hn', hn])
      subst hjk
      rw [hself] at he
      cases he
      refine congrArg some (Prod.ext hi.symm ?_)
      rw [hoff, Nat.zero_add]

theorem lookup_eq_none : lookup name l 0 = none ↔
    ∀ (k : Nat) (e : Dirent), l[k]? = some e → e.inum ≠ 0 → cstring name ≠ cstring e.name := by
  rw [lookup_none]
  constructor
  · intro h k e he h0 hn
    have := h e (List.mem_of_getElem? he) h0
    rw [namecmp_iff.mpr hn] at this
    cases this
  · intro h e he h0
    obtain ⟨k, hk⟩ := List.mem_iff_getElem?.mp he
    rw [Bool.eq_false_iff]
    exact fun hn => h k e hk h0 (namecmp_iff.mp hn)

theorem Distinct.put (h : Distinct l) (hk : k ≤ l.length) (hnew : lookup name l 0 = none) : Distinct (putAt l k ⟨inum, cstring name⟩) := by
  rw [lookup_eq_none] at hnew
  intro j j' e e' he he' h0 h0' hn
  rw [getElem?_putAt hk] at he he'
  split_ifs at he he' with hj hj' hj'
  · rw [hj, hj']
  · cases he
    rw [cstring_cstring] at hn
    exact absurd hn (hnew _ _ he' h0')
  · cases he'
    rw [cstring_cstring] at hn
    exact absurd hn.symm (hnew _ _ he h0)
  · exact h _ _ _ _ he he' h0 h0' hn

theorem Distinct.lookup_put (h : Distinct l) (hk : k ≤ l.length) (hfree : ∀ e, l[k]? = some e → e.inum = 0)
    (hnew : lookup name l 0 = none) (h0 : inum ≠ 0) (other : Name) :
    lookup other (putAt l k ⟨inum, cstring name⟩) 0 =
      if cstring other = cstring name then some (inum, DIRENT_SIZE * k) else lookup other l 0 := by
  apply Option.ext
  intro x
  rw [(h.put hk hnew).lookup_eq]
  split_ifs with hc
  · constructor
    · rintro ⟨j, e, he, he0, hn, rfl⟩
      rw [getElem?_putAt hk] at he
      split_ifs at he with hj
      · cases he
        rw [hj]
      · exact absurd (hc.symm.trans hn) (lookup_eq_none.mp hnew _ _ he he0)
    · intro hx
      cases hx
      exact ⟨k, _, by rw [getElem?_putAt hk, if_pos rfl], h0, by rw [hc, cstring_cstring], rfl⟩
  · rw [h.lookup_eq]
    refine exists_congr fun j => exists_congr fun e => ?_
    rw [getElem?_putAt hk]
    split_ifs with hj
    · subst hj
      constructor
      · rintro ⟨he, -, hn, -⟩
        cases he
        exact absurd (hn.trans (cstring_cstring _)) hc
      · rintro ⟨he, he0, -⟩
        exact absurd (hfree e he) he0
    · rfl

theorem Distinct.clear (h : Distinct l) (hk : k ≤ l.length) : Distinct (putAt l k ⟨0, []⟩) := by
  intro j j' e e' he he' h0 h0' hn
  rw [getElem?_putAt hk] at he he'
  split_ifs at he he' with hj hj' hj'
  · rw [hj, hj']
  · cases he
    exact absurd rfl h0
  · cases he'
    exact absurd rfl h0'
  · exact h _ _ _ _ he he' h0 h0' hn

theorem Distinct.lookup_clear (h : Distinct l) (he : l[k]? = some e) (h0 : e.inum ≠ 0) (other : Name) :
    lookup other (putAt l k ⟨0, []⟩) 0 = if cstring other = cstring e.name then none else lookup other l 0 := by
  have hk := (List.getElem?_eq_some_iff.mp he).1.le
  apply Option.ext
  intro x
  rw [(h.clear hk).lookup_eq]
  split_ifs with hc
  · refine iff_of_false ?_ (by simp)
    rintro ⟨j, e', he', h0', hn, -⟩
    rw [getElem?_putAt hk] at he'
    split_ifs at he' with hj
    · cases he'
      exact h0' rfl
    · exact hj (h _ _ _ _ he' he h0' h0 (hn.symm.trans hc))
  · rw [h.lookup_eq]
    refine exists_congr fun j => exists_congr fun e' => ?_
    rw [getElem?_putAt hk]
    split_ifs with hj
    · subst hj
      constructor
      · rintro ⟨he', h0', -⟩
        cases he'
        exact absurd rfl h0'
      · rintro ⟨he', -, hn, -⟩
        rw [he] at he'
        cases he'
        exact absurd hn hc
    · rfl

end Xv6.Files
