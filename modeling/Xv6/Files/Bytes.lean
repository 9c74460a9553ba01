import Xv6.Files.Holding

/-!
# A file as a string of bytes

`readi` and `writei` cut a range of bytes into pieces of blocks. Put together, the pieces read and
replace a part of the string.
-/

open Xv6.Lib

namespace Xv6.Files

open State

variable [Super] {s t : State} {ip i o off n tot : Nat} {src : Source}

section strings
omit [Super]

def State.contents (s : State) (i : Nat) : List Byte := s.slice i 0 (s.node i).size

def Source.data (src : Source) (n : Nat) : List Byte := (List.range n).map src.byte

theorem slice_length : (s.slice i off n).length = n := by simp [State.slice]

theorem contents_length : (s.contents i).length = (s.node i).size := slice_length

theorem contents_take (h : off ≤ (s.node i).size) : (s.contents i).take off = s.slice i 0 off := by
  have hsplit : s.slice i 0 (off + ((s.node i).size - off)) = _ := slice_add off
  rw [Nat.add_sub_cancel' h] at hsplit
  rw [State.contents, hsplit, List.take_left' slice_length]

theorem contents_drop : (s.contents i).drop off = s.slice i off ((s.node i).size - off) := by
  by_cases h : off ≤ (s.node i).size
  · have hsplit : s.slice i 0 (off + ((s.node i).size - off)) = _ := slice_add off
    rw [Nat.add_sub_cancel' h] at hsplit
    rw [State.contents, hsplit, List.drop_left' slice_length, Nat.zero_add]
  · rw [List.drop_eq_nil_of_le (by rw [contents_length]; omega), show (s.node i).size - off = 0 by omega]
    rfl

theorem contents_range {hi : Nat} (h : hi ≤ (s.node i).size) :
    ((s.contents i).take hi).drop off = s.slice i off (hi - off) := by
  rw [contents_take h]
  by_cases hoff : off ≤ hi
  · have hsplit : s.slice i 0 (off + (hi - off)) = _ := slice_add off
    rw [Nat.add_sub_cancel' hoff] at hsplit
    rw [hsplit, List.drop_left' slice_length, Nat.zero_add]
  · rw [List.drop_eq_nil_of_le (by rw [slice_length]; omega), show hi - off = 0 by omega]
    rfl

theorem contents_congr (hsize : (t.node i).size = (s.node i).size) (hb : ∀ o, t.byteAt i o = s.byteAt i o) :
    t.contents i = s.contents i := by
  rw [State.contents, State.contents, hsize]
  exact List.map_congr_left fun k _ => hb _

end strings

omit [Super] in
theorem readResult_contents (hoff : off < 2 ^ 32) (hn : n < 2 ^ 32) : readResult s ip off n =
    if off + n < 2 ^ 32 then ((s.contents ip).take (min (off + n) (s.contents ip).length)).drop off else [] := by
  rw [contents_range (by rw [contents_length]; omega), contents_length, readResult]
  split_ifs with h1 h2 h3 h4
  · rw [show min (off + n) (s.node ip).size - off = 0 by omega]
    rfl
  · rfl
  · rw [Nat.min_eq_right (by omega)]
  · omega
  · rw [Nat.min_eq_left (by omega), Nat.add_sub_cancel_left]
  · omega

omit [Super] in
theorem Full.size_le (hf : Full s ip) (hnone : s.owner (ip, slotOf (o / BSIZE)) = none) : (s.node ip).size ≤ o := by
  by_contra hlt
  exact hf.blocks (o / BSIZE) (by have := Nat.div_mul_le_self o BSIZE; omega) hnone

theorem Put.size_le (h : Put ip src off n tot s t) (hf : Full s ip) (hlt : tot < n) (hsrc : n ≤ src.len) :
    (s.node ip).size ≤ off + tot ∧ Exhausted t := by
  rcases h.short hlt with ⟨hnone, hall⟩ | hspill
  · exact ⟨hf.size_le hnone, hall⟩
  · have := hspill.len
    omega

theorem Put.contents (h : Put ip src off n tot s t) (hf : Full s ip) (hsrc : n ≤ src.len) : t.contents ip =
      (s.contents ip).take off ++ src.data tot ++ (s.contents ip).drop (off + tot) := by
  obtain ⟨f, hnode⟩ := h.node
  have hoff := h.start
  have hsize : (t.node ip).size = off + tot + ((s.node ip).size - (off + tot)) := by
    rw [hnode]
    dsimp only
    omega
  have hfirst : t.slice ip 0 off = s.slice ip 0 off := by
    apply List.map_congr_left
    intro k hk
    have := List.mem_range.mp hk
    exact h.kept _ (by omega) (by omega)
  have hmid : t.slice ip off tot = src.data tot := by
    apply List.map_congr_left
    intro k hk
    have := List.mem_range.mp hk
    rw [h.written _ (by omega) (by omega), Nat.add_sub_cancel_left]
  have hlast : t.slice ip (off + tot) ((s.node ip).size - (off + tot)) =
      s.slice ip (off + tot) ((s.node ip).size - (off + tot)) := by
    apply List.map_congr_left
    intro k hk
    have := List.mem_range.mp hk
    refine h.kept _ (by omega) fun hin => ?_
    have hlt : tot < n := by omega
    have := (h.size_le hf hlt hsrc).1
    omega
  rw [State.contents, hsize, slice_add, slice_add, Nat.zero_add, Nat.zero_add, hfirst, hmid, hlast,
    contents_take hoff, contents_drop]

def Fits (s : State) (ip off n : Nat) : Prop :=
  off ≤ (s.contents ip).length ∧ off + n < 2 ^ 32 ∧ off + n ≤ MAXFILE * BSIZE

/-- On the contents as a string, `writei` fails and changes nothing if the range does not fit; else it replaces the first
`tot` bytes of the range, all of them unless no block is left. `readi` returns the part of the range that lies in the
file, but nothing if the end of the range is not a `uint`. -/
theorem file_contents (h : Sane none s) (hv : (s.itable ip).valid = true) (hoff : off < 2 ^ 32) (hn : n < 2 ^ 32) :
    (n ≤ src.len → Op.Ends (writei ip src off n) s (fun r t =>
      (¬ Fits s ip off n → r = -1 ∧ t = s) ∧
      (Fits s ip off n → ∃ tot : Nat, r = tot ∧ tot ≤ n ∧ (tot < n → Exhausted t) ∧
        t.contents ip = (s.contents ip).take off ++ src.data tot ++ (s.contents ip).drop (off + tot) ∧
        (∀ i, i ≠ ip → t.contents i = s.contents i) ∧ Full t ip ∧ Sane none t)) fun _ => False) ∧
    readi ip off n s = .ok (if off + n < 2 ^ 32 then
      ((s.contents ip).take (min (off + n) (s.contents ip).length)).drop off else [], s) := by
  have hf := h.full ip (by simp) (h.node_type hv)
  refine ⟨fun hsrc => ?_, ?_⟩
  · refine (writei_ends h hv).mono ?_
    rintro r t (⟨rfl, rfl, hbad⟩ | ⟨tot, rfl, hput⟩)
    · refine ⟨fun _ => ⟨rfl, rfl⟩, fun hfits => ?_⟩
      obtain ⟨h1, h2, h3⟩ := hfits
      rw [contents_length] at h1
      omega
    · have hfits : Fits s ip off n := by
        refine ⟨by rw [contents_length]; exact hput.start, ?_, hput.bound⟩
        exact hput.bound.trans_lt (by decide)
      refine ⟨fun hno => absurd hfits hno, fun _ => ⟨tot, rfl, hput.le, fun hlt => (hput.size_le hf hlt hsrc).2,
        hput.contents hf hsrc, fun i hi => ?_, ?_, hput.sane⟩⟩
      · exact contents_congr (by rw [hput.nodes i hi]) fun o => hput.others i o hi
      · exact hput.sane.full ip (by simp) (hput.sane.node_type (by rw [hput.valid, hv]))
  · rw [readi_run hv hf, readResult_contents hoff hn]

section twoBytes
omit [Super]

def twoBytes : List InodeOp := [.ialloc .file, .writei 1 ⟨fun k => BitVec.ofNat 8 (k + 7), 2⟩ 0 2]

/-- The range of `2 ^ 32 - 1` bytes from the second byte on holds one byte of the file. -/
theorem readi_wraps : ∃ s, @Sane smallDisk none s ∧ (s.itable 1).valid = true ∧
    ((s.contents 1).take (min (1 + (2 ^ 32 - 1)) (s.contents 1).length)).drop 1 = [8] ∧
    (@readi smallDisk 1 1 (2 ^ 32 - 1) s).toOption.map Prod.fst = some [] := by
  obtain ⟨s, hsane, hs⟩ := exists_sane twoBytes (fun s => decide ((s.itable 1).valid = true ∧
    ((s.contents 1).take (min (1 + (2 ^ 32 - 1)) (s.contents 1).length)).drop 1 = [8] ∧
    (@readi smallDisk 1 1 (2 ^ 32 - 1) s).toOption.map Prod.fst = some [])) (by decide +kernel)
  exact ⟨s, hsane, of_decide_eq_true hs⟩

/-- A read past the end of two bytes, and a write of 1500 bytes over the second of them, into a second block. -/
theorem file_contents_blocks : ∃ s t, @Sane smallDisk none s ∧ (s.itable 1).valid = true ∧
    @readi smallDisk 1 1 5 s = .ok ([8], s) ∧
    @writei smallDisk 1 ⟨fun _ => 9, 1500⟩ 1 1500 s = .ok (1500, t) ∧ t.contents 1 = 7 :: List.replicate 1500 9 := by
  obtain ⟨s, hsane, hs⟩ := exists_sane twoBytes (fun s => decide ((s.itable 1).valid = true ∧ s.contents 1 = [7, 8]) &&
    (@writei smallDisk 1 ⟨fun _ => 9, 1500⟩ 1 1500 s).toOption.any fun (r : Int × State) => decide (r.1 = 1500))
    (by decide +kernel)
  rw [Bool.and_eq_true, Option.any_eq_true] at hs
  obtain ⟨hfacts, ⟨r, t⟩, hrun, hr⟩ := hs
  obtain ⟨hv, hdata⟩ := of_decide_eq_true hfacts
  obtain rfl : r = 1500 := of_decide_eq_true hr
  rw [toOption_eq_some] at hrun
  have hread := (@file_contents smallDisk s 1 1 5 (.kernel []) hsane hv (by decide) (by decide)).2
  have hwrite := ((@file_contents smallDisk s 1 1 1500 ⟨fun _ => 9, 1500⟩ hsane hv (by decide) (by decide)).1 le_rfl).of_ok hrun
  obtain ⟨tot, htot, -, -, hnew, -⟩ := hwrite.2 ⟨by rw [hdata]; decide, by decide, by decide⟩
  obtain rfl : tot = 1500 := by omega
  rw [if_pos (by decide), hdata] at hread
  refine ⟨s, t, hsane, hv, hread, hrun, ?_⟩
  rw [hnew, hdata, Source.data, List.map_const', List.length_range, List.drop_eq_nil_of_le (by decide), List.append_nil]
  rfl

end twoBytes

end Xv6.Files
