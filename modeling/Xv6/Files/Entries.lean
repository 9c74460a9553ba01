import Mathlib.Data.List.GetD
import Mathlib.Data.List.TakeWhile
import Xv6.Files.Contents
import Xv6.Files.Sysfile
import Xv6.Lib.Slots

/-!
# Directory entries

The bytes of a directory are a list of entries, and the loops over a directory run over the list.
-/

open Xv6.Lib Op

namespace Xv6.Files

open State

variable {s t u : State} {ip dp i k j off n inum : Nat} {name : Name} {de : Dirent}
  {bs : List Byte} {l : List Dirent} {E : String → Prop}

/-! ## The bytes of an entry -/

theorem cstring_length (bs : List Byte) : (cstring bs).length ≤ DIRSIZ := by
  unfold cstring
  exact (List.takeWhile_sublist _).length_le.trans (by simp)

theorem cstring_ne_zero {b : Byte} (h : b ∈ cstring bs) : b ≠ 0 := by
  have := List.mem_takeWhile_imp h
  simpa using this

theorem cstring_padded (h : bs.length ≤ DIRSIZ) (h0 : ∀ b ∈ bs, b ≠ 0) (n : Nat) :
    cstring ((bs ++ List.replicate n 0).take DIRSIZ) = bs := by
  unfold cstring
  rw [List.take_take, Nat.min_self, List.take_append, List.take_of_length_le h,
    List.takeWhile_append_of_pos (by simpa using h0), List.take_replicate]
  cases min (DIRSIZ - bs.length) n with
  | zero => simp
  | succ n => simp [List.replicate_succ]

theorem cstring_cstring (bs : List Byte) : cstring (cstring bs) = cstring bs := by
  have := cstring_padded (cstring_length bs) (fun _ h => cstring_ne_zero h) 0
  rwa [List.replicate_zero, List.append_nil, List.take_of_length_le (cstring_length bs)] at this

theorem cstring_DOT : cstring DOT = DOT := by decide

theorem cstring_DOTDOT : cstring DOTDOT = DOTDOT := by decide

theorem encode_length (de : Dirent) : de.encode.length = DIRENT_SIZE := by
  simp [Dirent.encode]

theorem decode_encode (h : inum < 2 ^ 16) :
    Dirent.decode (Dirent.encode ⟨inum, name⟩) = ⟨inum, cstring name⟩ := by
  unfold Dirent.decode Dirent.encode
  have hname : cstring ((cstring name ++ List.replicate DIRSIZ 0).take DIRSIZ) = cstring name :=
    cstring_padded (cstring_length _) (fun _ h => cstring_ne_zero h) _
  simp only [List.cons_append, List.nil_append, List.getD_cons_zero, List.getD_cons_succ, BitVec.toNat_ofNat,
    List.drop_succ_cons, List.drop_zero, hname, Dirent.mk.injEq, and_true]
  omega

/-! ## The list of entries -/

def State.dirent (s : State) (d k : Nat) : Dirent := Dirent.decode (s.slice d (DIRENT_SIZE * k) DIRENT_SIZE)

def State.ents (s : State) (d : Nat) : List Dirent :=
  (List.range ((s.node d).size / DIRENT_SIZE)).map (s.dirent d)

theorem ents_length (s : State) (d : Nat) : (s.ents d).length = (s.node d).size / DIRENT_SIZE := by
  simp [State.ents]

theorem ents_getElem (h : k < (s.ents dp).length) : (s.ents dp)[k] = s.dirent dp k := by
  simp [State.ents]

theorem ents_congr (hsize : (t.node i).size = (s.node i).size) (hb : ∀ o, t.byteAt i o = s.byteAt i o) :
    t.ents i = s.ents i := by
  unfold State.ents State.dirent
  rw [hsize]
  apply List.map_congr_left
  intro k _
  rw [slice_congr fun o _ _ => hb o]

theorem byteAt_congr (ho : ∀ sl, t.owner (i, sl) = s.owner (i, sl)) (hd : t.data = s.data) (o : Nat) :
    t.byteAt i o = s.byteAt i o := by
  rw [State.byteAt, State.byteAt, ho, hd]

theorem slice_written (i off : Nat) (bs : List Byte)
    (h : ∀ o, off ≤ o → o < off + bs.length → s.byteAt i o = bs.getD (o - off) 0) :
    s.slice i off bs.length = bs := by
  apply List.ext_getElem
  · simp [State.slice]
  · intro k h1 h2
    simp only [State.slice, List.getElem_map, List.getElem_range]
    rw [h _ (by omega) (by omega), Nat.add_sub_cancel_left, List.getD_eq_getElem _ _ h2]

/-- A directory is a whole number of entries. -/
structure IsDir (s : State) (d : Nat) : Prop where
  valid : (s.itable d).valid = true
  type : (s.node d).type = .dir
  aligned : (s.node d).size % DIRENT_SIZE = 0
  full : Full s d

theorem IsDir.size (h : IsDir s dp) : (s.node dp).size = DIRENT_SIZE * (s.ents dp).length := by
  have := h.aligned
  rw [ents_length]
  simp only [DIRENT_SIZE] at *
  omega

theorem IsDir.length_le (h : IsDir s dp) : DIRENT_SIZE * (s.ents dp).length ≤ MAXFILE * BSIZE := by
  rw [← h.size]
  exact h.full.size

variable [Super]

theorem IsDir.read_dirent {msg : String} (h : IsDir s dp) (hk : k < (s.ents dp).length) :
    read_dirent msg dp (DIRENT_SIZE * k) s = .ok ((s.ents dp)[k], s) := by
  have hsz := h.size
  have hle := h.length_le
  have hres : readResult s dp (DIRENT_SIZE * k) DIRENT_SIZE = s.slice dp (DIRENT_SIZE * k) DIRENT_SIZE := by
    unfold readResult
    simp only [MAXFILE, NINDIRECT, NDIRECT, BSIZE, DIRENT_SIZE] at *
    rw [if_neg (by omega), if_neg (by omega)]
  unfold Files.read_dirent
  rw [run_bind (readi_run h.valid h.full), hres, if_neg (by simp [State.slice]), ents_getElem]
  rfl

def lookup (name : Name) : List Dirent → Nat → Option (Nat × Nat)
  | [], _ => none
  | e :: l, off => if e.inum ≠ 0 ∧ namecmp name e.name then some (e.inum, off) else lookup name l (off + DIRENT_SIZE)

omit [Super] in
theorem lookup_none : lookup name l off = none ↔ ∀ e ∈ l, e.inum ≠ 0 → namecmp name e.name = false := by
  induction l generalizing off with
  | nil => simp [lookup]
  | cons e l ih =>
    rw [lookup]
    split_ifs with h
    · simp only [List.mem_cons, forall_eq_or_imp, false_iff, not_and]
      intro he
      rw [he h.1] at h
      cases h.2
    · rw [ih]
      simp only [List.mem_cons, forall_eq_or_imp]
      refine (and_iff_right fun h0 => ?_).symm
      by_contra hc
      exact h ⟨h0, by simpa using hc⟩

omit [Super] in
theorem lookup_some {r : Nat × Nat} (h : lookup name l off = some r) : ∃ k, ∃ hk : k < l.length,
    r.2 = off + DIRENT_SIZE * k ∧ l[k].inum = r.1 ∧ r.1 ≠ 0 ∧ namecmp name l[k].name = true := by
  induction l generalizing off with
  | nil => cases h
  | cons e l ih =>
    rw [lookup] at h
    split_ifs at h with hc
    · cases h
      exact ⟨0, by simp, by simp, rfl, hc.1, hc.2⟩
    · obtain ⟨k, hk, h1, h2, h3, h4⟩ := ih h
      exact ⟨k + 1, by simpa using hk, by rw [h1]; simp only [DIRENT_SIZE]; omega, h2, h3, h4⟩

theorem IsDir.dirlookup_loop {Q : Option (Nat × Nat) → State → Prop} (h : IsDir s dp) (hk : (s.ents dp).length ≤ j + k)
    (hnone : lookup name ((s.ents dp).drop j) (DIRENT_SIZE * j) = none → Q none s)
    (hsome : ∀ r, lookup name ((s.ents dp).drop j) (DIRENT_SIZE * j) = some r →
      Ends (iget r.1) s (fun _ t => Q (some r) t) E) :
    Ends (dirlookup_loop dp name (k + 1) (DIRENT_SIZE * j)) s Q E := by
  have hsz := h.size
  induction k generalizing j with
  | zero =>
    rw [List.drop_eq_nil_of_le (by omega)] at hnone
    unfold Files.dirlookup_loop
    simp only [ends_bind, inode, ends_gets, ends_ite, ends_pure]
    rw [← node_valid h.valid, hsz]
    exact ⟨fun hlt => absurd hlt (by simp only [DIRENT_SIZE]; omega), fun _ => hnone rfl⟩
  | succ k ih =>
    unfold Files.dirlookup_loop
    simp only [ends_bind, inode, ends_gets, ends_ite, ends_pure]
    rw [← node_valid h.valid, hsz]
    refine ⟨fun hlt => ?_, fun hlt => ?_⟩
    · have hj : j < (s.ents dp).length := by
        simp only [DIRENT_SIZE] at hlt
        omega
      rw [ends_of_run (h.read_dirent hj)]
      rw [List.drop_eq_getElem_cons hj, lookup] at hnone hsome
      refine ⟨fun hc => ?_, fun hc => ?_⟩
      · exact hsome _ (if_pos hc)
      · rw [if_neg hc] at hnone hsome
        exact ih (by omega) hnone hsome
    · rw [List.drop_eq_nil_of_le (by simp only [DIRENT_SIZE] at hlt; omega)] at hnone
      exact hnone rfl

theorem IsDir.dirlookup {Q : Option (Nat × Nat) → State → Prop} (h : IsDir s dp)
    (hnone : lookup name (s.ents dp) 0 = none → Q none s)
    (hsome : ∀ r, lookup name (s.ents dp) 0 = some r → Ends (iget r.1) s (fun _ t => Q (some r) t) E) :
    Ends (dirlookup dp name) s Q E := by
  unfold Files.dirlookup
  simp only [ends_bind, inode, ends_gets, ends_ite, panic, ends_stop]
  rw [← node_valid h.valid]
  refine ⟨fun hc => absurd h.type hc, fun _ => ?_⟩
  have hsz := h.size
  exact h.dirlookup_loop (j := 0) (by simp only [DIRENT_SIZE] at hsz; omega) hnone hsome

/-! ## A new entry -/

def emptySlot (l : List Dirent) : Nat := l.findIdx fun e => e.inum = 0

omit [Super] in
theorem emptySlot_le (l : List Dirent) : emptySlot l ≤ l.length := List.findIdx_le_length

theorem IsDir.dirlink_loop (h : IsDir s dp) (hk : (s.ents dp).length ≤ j + k) :
    dirlink_loop dp (k + 1) (DIRENT_SIZE * j) s =
      .ok (DIRENT_SIZE * (j + emptySlot ((s.ents dp).drop j)), s) := by
  have hsz := h.size
  induction k generalizing j with
  | zero =>
    unfold Files.dirlink_loop
    rw [inode, run_bind (run_gets _), ← node_valid h.valid, hsz,
      if_neg (by simp only [DIRENT_SIZE]; omega), List.drop_eq_nil_of_le (by omega)]
    rfl
  | succ k ih =>
    unfold Files.dirlink_loop
    rw [inode, run_bind (run_gets _), ← node_valid h.valid, hsz]
    by_cases hj : j < (s.ents dp).length
    · rw [if_pos (by simp only [DIRENT_SIZE]; omega), run_bind (h.read_dirent hj), List.drop_eq_getElem_cons hj,
        emptySlot, List.findIdx_cons]
      split_ifs with h0
      · simp only [h0, decide_true, cond_true]
        rfl
      · rw [show DIRENT_SIZE * j + DIRENT_SIZE = DIRENT_SIZE * (j + 1) by simp only [DIRENT_SIZE]; omega,
          ih (by omega)]
        simp only [h0, decide_false, cond_false]
        rw [show j + 1 + emptySlot ((s.ents dp).drop (j + 1)) = j + (emptySlot ((s.ents dp).drop (j + 1)) + 1) by omega]
        rfl
    · rw [if_neg (by simp only [DIRENT_SIZE]; omega), List.drop_eq_nil_of_le (by omega)]
      rfl

theorem IsDir.isdirempty_loop (h : IsDir s dp) (hk : (s.ents dp).length ≤ j + k) :
    isdirempty_loop dp (k + 1) (DIRENT_SIZE * j) s = .ok (((s.ents dp).drop j).all fun e => e.inum = 0, s) := by
  have hsz := h.size
  have hstop : ∀ {j}, (s.ents dp).length ≤ j → ¬ DIRENT_SIZE * j < DIRENT_SIZE * (s.ents dp).length := by
    intro j hj
    simp only [DIRENT_SIZE]
    omega
  induction k generalizing j with
  | zero =>
    unfold Files.isdirempty_loop
    rw [inode, run_bind (run_gets _), ← node_valid h.valid, hsz, if_neg (hstop (by omega)),
      List.drop_eq_nil_of_le (by omega)]
    rfl
  | succ k ih =>
    unfold Files.isdirempty_loop
    rw [inode, run_bind (run_gets _), ← node_valid h.valid, hsz]
    by_cases hj : j < (s.ents dp).length
    · rw [if_pos (by simp only [DIRENT_SIZE]; omega), run_bind (h.read_dirent hj), List.drop_eq_getElem_cons hj,
        List.all_cons]
      split_ifs with h0
      · simp only [h0, decide_false, Bool.false_and]
        rfl
      · rw [show DIRENT_SIZE * j + DIRENT_SIZE = DIRENT_SIZE * (j + 1) by simp only [DIRENT_SIZE]; omega,
          ih (by omega)]
        simp only [not_not.mp h0, decide_true, Bool.true_and]
    · rw [if_neg (hstop (by omega)), List.drop_eq_nil_of_le (by omega)]
      rfl

omit [Super] in
theorem entry_block (k tot : Nat) (h : tot < DIRENT_SIZE) :
    (DIRENT_SIZE * k + tot) / BSIZE = DIRENT_SIZE * k / BSIZE ∧ (tot ≠ 0 → (DIRENT_SIZE * k + tot) % BSIZE ≠ 0) := by
  simp only [DIRENT_SIZE, BSIZE] at *
  omega

section written

variable {tot : Nat} (hd : IsDir s dp) (hk : k ≤ (s.ents dp).length)
  (h : Put dp (.kernel de.encode) (DIRENT_SIZE * k) DIRENT_SIZE tot s t)

include hd h

theorem IsDir.put_short (hlt : tot < DIRENT_SIZE) : tot = 0 ∧ (s.ents dp).length ≤ k := by
  obtain ⟨hblock, hmod⟩ := entry_block k tot hlt
  have h0 : tot = 0 := by
    by_contra h0
    rcases h.step with h1 | h1 | h1
    · exact h0 h1
    · omega
    · exact hmod h0 h1
  refine ⟨h0, ?_⟩
  by_contra hk
  have hnone : s.owner (dp, slotOf (DIRENT_SIZE * k / BSIZE)) = none := by
    rcases h.short hlt with ⟨hnone, -⟩ | hspill
    · rwa [hblock] at hnone
    · have hlen := hspill.len
      have hall : (Source.kernel de.encode).len = DIRENT_SIZE := encode_length de
      omega
  refine hd.full.blocks _ ?_ hnone
  have hsz := hd.size
  have := Nat.div_mul_le_self (DIRENT_SIZE * k) BSIZE
  simp only [DIRENT_SIZE] at *
  omega

omit hd in
theorem put_none_ents (h0 : tot = 0) (hle : DIRENT_SIZE * k ≤ (s.node dp).size)
    (hk : (s.node dp).size ≤ DIRENT_SIZE * k) : t.ents dp = s.ents dp := by
  subst h0
  obtain ⟨f, hnode⟩ := h.node
  have hsz : (t.node dp).size = (s.node dp).size := by
    rw [hnode]
    exact Nat.max_eq_left hle
  unfold State.ents
  rw [hsz]
  apply List.map_congr_left
  intro j hj
  have hj := List.mem_range.mp hj
  unfold State.dirent
  rw [slice_congr fun o h1 h2 => h.kept o ?_ ?_]
  · simp only [DIRENT_SIZE] at *
    omega
  · simp only [DIRENT_SIZE] at *
    omega

include hk in
theorem IsDir.put_ents (hall : tot = DIRENT_SIZE) : t.ents dp = putAt (s.ents dp) k (Dirent.decode de.encode) := by
  subst hall
  have hsz := hd.size
  obtain ⟨f, hnode⟩ := h.node
  have hlen : (t.ents dp).length = max (s.ents dp).length (k + 1) := by
    rw [ents_length, hnode]
    simp only [hsz, DIRENT_SIZE]
    omega
  have hget : ∀ j, j < (t.ents dp).length → (t.ents dp)[j]? = some (t.dirent dp j) := fun j hj => by
    rw [List.getElem?_eq_getElem hj, ents_getElem]
  refine eq_putAt hk hlen ?_ ?_
  · rw [hget k (by omega), State.dirent]
    have hslice := slice_written (s := t) dp (DIRENT_SIZE * k) de.encode
      fun o h1 h2 => h.written o h1 (by rwa [encode_length] at h2)
    rw [encode_length] at hslice
    rw [hslice]
  · intro j hj hne
    rw [hget j (by omega), List.getElem?_eq_getElem hj, ents_getElem, State.dirent, State.dirent]
    rw [slice_congr fun o h1 h2 => h.kept o ?_ ?_]
    · simp only [DIRENT_SIZE] at *
      omega
    · simp only [DIRENT_SIZE] at *
      omega

end written

end Xv6.Files
