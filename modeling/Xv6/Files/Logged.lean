import Xv6.Files.Bytes
import Xv6.Lib.Parts

/-!
# What a write logs: `fs.c`, `log.c`

The functions that `writei` calls, with their calls of `log_write`. A block that changes and is not
passed to `log_write` is lost when its buffer is used for another block.
-/

open Xv6.Lib Op

namespace Xv6.Files

open State

abbrev BPB : Nat := BSIZE * 8
abbrev IPB : Nat := BSIZE / 64
abbrev MAXOPBLOCKS : Nat := 10

class Layout extends Super where
  inodestart : Nat
  bmapstart : Nat
  inodes_lt : ∀ i < ninodes, i / IPB + inodestart < nmeta
  bitmap_lt : ∀ b < size, b / BPB + bmapstart < nmeta

export Layout (inodestart bmapstart)

/-- The blocks logged since `begin_op`, the last one first, and those of the operations before. -/
structure Trace where
  cur : List Nat := []
  done : List (List Nat) := []

def Trace.log (l : Trace) (new : List Nat) : Trace := { l with cur := new ++ l.cur }

abbrev T (α : Type) := Op (State × Trace) α

variable [Layout]

def BBLOCK (b : Nat) : Nat := b / BPB + bmapstart

def IBLOCK (i : Nat) : Nat := i / IPB + inodestart

def log_write (b : Nat) : T Unit := Op.right (Op.update fun l => l.log [b])

namespace Logged

def balloc : T Nat := do
  let b ← Op.left (Op.gets fun s => (List.range size).find? fun b => !s.used b)
  match b with
  | none => pure 0
  | some b => do
    Op.left (Op.update fun s => s.setUsed b true)
    log_write (BBLOCK b)
    Op.left (Op.update fun s => s.setData b fun _ => 0)
    log_write b
    pure b

def bmap_addr (ip k : Nat) : T Nat := do
  let n ← Op.left (inode ip)
  if n.addrs k = 0 then do
    let addr ← balloc
    if addr = 0 then pure 0
    else do
      Op.left (setAddr ip k addr)
      pure addr
  else pure (n.addrs k)

def bmap_entry (b j : Nat) : T Nat := do
  let addr ← Op.left (indirect b j)
  if addr = 0 then do
    let addr ← balloc
    if addr = 0 then pure 0
    else do
      Op.left (setIndirect b j addr)
      log_write b
      pure addr
  else pure addr

def bmap (ip bn : Nat) : T Nat :=
  if bn < NDIRECT then bmap_addr ip bn
  else if bn - NDIRECT < NINDIRECT then do
    let b ← bmap_addr ip NDIRECT
    if b = 0 then pure 0 else bmap_entry b (bn - NDIRECT)
  else Op.left (panic "bmap: out of range")

def writei_loop (ip : Nat) (src : Source) : Nat → Nat → Nat → Nat → T (Nat × Nat)
  | 0, tot, off, _ => pure (tot, off)
  | k + 1, tot, off, left =>
    if left = 0 then pure (tot, off)
    else do
      let addr ← bmap ip (off / BSIZE)
      if addr = 0 then pure (tot, off)
      else do
        let m := min left (BSIZE - off % BSIZE)
        Op.left (copyin_block addr (off % BSIZE) src tot m)
        if tot + m ≤ src.len then do
          log_write addr
          writei_loop ip src k (tot + m) (off + m) (left - m)
        else pure (tot, off)

def iupdate (ip : Nat) : T Unit := do
  Op.left (Files.iupdate ip)
  log_write (IBLOCK ip)

def writei (ip : Nat) (src : Source) (off n : Nat) : T Int := do
  let node ← Op.left (inode ip)
  if off > node.size ∨ (off + n) % 2 ^ 32 < off then pure (-1)
  else if off + n > MAXFILE * BSIZE then pure (-1)
  else do
    let (tot, off) ← writei_loop ip src n 0 off n
    Op.left (modifyInode ip fun node => if off > node.size then { node with size := off } else node)
    iupdate ip
    pure tot

end Logged

/-! ## Why a block is logged -/

variable {s t u : State} {l : Trace} {ip b bn k j c tot off left n : Nat} {src : Source} {W A X : Nat → Prop}
  {new new' : List Nat} {E : String → Prop}

/-- The file has the block for one of `W`, which were written; or it got it for one of `A`; or it is
the indirect block; or it holds the bit of a block that the file got. -/
inductive Reason (ip : Nat) (W A : Nat → Prop) (s t : State) : Nat → Prop
  | written (bn b : Nat) : W bn → t.owner (ip, slotOf bn) = some b → Reason ip W A s t b
  | zeroed (bn b : Nat) : A bn → s.owner (ip, slotOf bn) = none → t.owner (ip, slotOf bn) = some b →
      Reason ip W A s t b
  | bit (bn b : Nat) : A bn → s.owner (ip, slotOf bn) = none → t.owner (ip, slotOf bn) = some b →
      Reason ip W A s t (BBLOCK b)
  | indirect (b : Nat) : t.owner (ip, .addr NDIRECT) = some b → Reason ip W A s t b
  | indirectBit (b : Nat) : t.owner (ip, .addr NDIRECT) = some b → Reason ip W A s t (BBLOCK b)

namespace Reason

theorem mono {W' A' : Nat → Prop} (h : Reason ip W A s t c) (hW : ∀ bn, W bn → W' bn) (hA : ∀ bn, A bn → A' bn) :
    Reason ip W' A' s t c := by
  cases h with
  | written bn _ hw hb => exact .written bn _ (hW bn hw) hb
  | zeroed bn _ ha h0 hb => exact .zeroed bn _ (hA bn ha) h0 hb
  | bit bn _ ha h0 hb => exact .bit bn _ (hA bn ha) h0 hb
  | indirect _ hb => exact .indirect _ hb
  | indirectBit _ hb => exact .indirectBit _ hb

theorem later (h : Reason ip W A s t c) (hk : ∀ r b, t.owner r = some b → u.owner r = some b) :
    Reason ip W A s u c := by
  cases h with
  | written bn _ hw hb => exact .written bn _ hw (hk _ _ hb)
  | zeroed bn _ ha h0 hb => exact .zeroed bn _ ha h0 (hk _ _ hb)
  | bit bn _ ha h0 hb => exact .bit bn _ ha h0 (hk _ _ hb)
  | indirect _ hb => exact .indirect _ (hk _ _ hb)
  | indirectBit _ hb => exact .indirectBit _ (hk _ _ hb)

theorem earlier (h : Reason ip W A t u c) (hk : ∀ r b, s.owner r = some b → t.owner r = some b) :
    Reason ip W A s u c := by
  have hnone : ∀ {r}, t.owner r = none → s.owner r = none := by
    intro r h0
    by_contra hno
    obtain ⟨b, hb⟩ := Option.ne_none_iff_exists'.mp hno
    rw [hk r b hb] at h0
    cases h0
  cases h with
  | written bn _ hw hb => exact .written bn _ hw hb
  | zeroed bn _ ha h0 hb => exact .zeroed bn _ ha (hnone h0) hb
  | bit bn _ ha h0 hb => exact .bit bn _ ha (hnone h0) hb
  | indirect _ hb => exact .indirect _ hb
  | indirectBit _ hb => exact .indirectBit _ hb

end Reason

/-- From `s` to `t` the blocks of `new` were logged, each for a reason, and nothing changed that was
not logged, except in the blocks of `X`. -/
structure Recorded (ip : Nat) (W A X : Nat → Prop) (s t : State) (new : List Nat) : Prop where
  reason : ∀ c ∈ new, Reason ip W A s t c
  keeps : ∀ r b, s.owner r = some b → t.owner r = some b
  data : ∀ b, t.data b ≠ s.data b → b ∈ new ∨ X b
  taken : ∀ r b, s.owner r = none → t.owner r = some b → b ∈ new
  bits : ∀ b, t.used b ≠ s.used b → BBLOCK b ∈ new

namespace Recorded

theorem refl : Recorded ip W A X s s [] :=
  ⟨(by simp), fun _ _ h => h, fun _ h => absurd rfl h, fun r b h0 hb => (by rw [h0] at hb; cases hb), fun _ h =>
    absurd rfl h⟩

theorem mono {W' A' X' : Nat → Prop} (h : Recorded ip W A X s t new) (hW : ∀ bn, W bn → W' bn)
    (hA : ∀ bn, A bn → A' bn) (hX : ∀ b, X b → X' b) : Recorded ip W' A' X' s t new :=
  { h with
    reason := fun c hc => (h.reason c hc).mono hW hA
    data := fun b hb => (h.data b hb).imp id (hX b) }

theorem trans (h : Recorded ip W A X s t new) (h' : Recorded ip W A X t u new') :
    Recorded ip W A X s u (new' ++ new) where
  reason := fun c hc => by
    rcases List.mem_append.mp hc with hc | hc
    · exact (h'.reason c hc).earlier h.keeps
    · exact (h.reason c hc).later h'.keeps
  keeps := fun r b hb => h'.keeps r b (h.keeps r b hb)
  data := fun b hb => by
    by_cases hu : u.data b = t.data b
    · exact (h.data b (by rwa [← hu])).imp (List.mem_append_right _) id
    · exact (h'.data b hu).imp (List.mem_append_left _) id
  taken := fun r b h0 hb => by
    cases ht : t.owner r with
    | none => exact List.mem_append_left _ (h'.taken r b ht hb)
    | some b' =>
      have := h'.keeps r b' ht
      rw [hb] at this
      cases this
      exact List.mem_append_right _ (h.taken r b h0 ht)
  bits := fun b hb => by
    by_cases hu : u.used b = t.used b
    · exact List.mem_append_right _ (h.bits b (by rwa [← hu]))
    · exact List.mem_append_left _ (h'.bits b hu)

end Recorded

theorem Recorded.of_take {sl : Slot} (hkeeps : ∀ r b, s.owner r = some b → t.owner r = some b)
    (hused : t.used = Function.update s.used b true) (ho : t.owner = Function.update s.owner (ip, sl) (some b))
    (hreason : ∀ c ∈ new, Reason ip W A s t c) (hb : b ∈ new) (hbit : BBLOCK b ∈ new)
    (hdata : ∀ b', b' ∉ new → t.data b' = s.data b') : Recorded ip W A X s t new where
  reason := hreason
  keeps := hkeeps
  data := fun b' hb' => .inl (by_contra fun hno => hb' (hdata b' hno))
  taken := fun r b' h0 hb' => by
    rw [ho] at hb'
    by_cases hr : r = (ip, sl)
    · rw [hr, Function.update_self] at hb'
      cases hb'
      exact hb
    · rw [Function.update_of_ne hr, h0] at hb'
      cases hb'
  bits := fun b' hb' => by
    by_cases hbb : b' = b
    · rw [hbb]
      exact hbit
    · rw [hused, Function.update_of_ne hbb] at hb'
      exact absurd rfl hb'

theorem Recorded.of_data (ho : t.owner = s.owner) (hused : t.used = s.used)
    (hdata : ∀ b, t.data b ≠ s.data b → b ∈ new ∨ X b) (hreason : ∀ c ∈ new, Reason ip W A s t c) :
    Recorded ip W A X s t new where
  reason := hreason
  keeps := fun r b' hr => by rw [ho, hr]
  data := hdata
  taken := fun r b' h0 hr => by
    rw [ho, h0] at hr
    cases hr
  bits := fun b' hb' => absurd (congrFun hused b') hb'

namespace Logged

theorem balloc_ends {x : Option Nat} (h : Sane x s) : Ends balloc (s, l) (fun a p => Files.balloc s = .ok (a, p.1) ∧
    ((a = 0 ∧ p = (s, l)) ∨
      (Fresh s a ∧ p = ((s.setUsed a true).setData a fun _ => 0, l.log [a, BBLOCK a])))) E := by
  unfold balloc Files.balloc
  rw [run_bind (run_gets _)]
  simp only [ends_bind, ends_left, ends_gets]
  cases hf : (List.range size).find? fun b => !s.used b with
  | none => exact ⟨rfl, .inl ⟨rfl, rfl⟩⟩
  | some b =>
    have hlt : b < size := List.mem_range.mp (List.mem_of_find?_eq_some hf)
    have hu : s.used b = false := by simpa using List.find?_some hf
    have hlo := h.owned.not_fixed hlt hu
    exact ⟨rfl, .inr ⟨⟨by omega, hlt, hu⟩, rfl⟩⟩

def Wanted (ip : Nat) (W A : Nat → Prop) (s : State) (sl : Slot) : Prop :=
  ∀ t b, s.owner (ip, sl) = none → t.owner (ip, sl) = some b → Reason ip W A s t b ∧ Reason ip W A s t (BBLOCK b)

theorem bmap_addr_ends (h : Sane (some ip) s) (hv : (s.itable ip).valid = true) (hk : k ≤ NDIRECT)
    (hr : Wanted ip W A s (.addr k)) : Ends (bmap_addr ip k) (s, l) (fun a p =>
      Files.bmap_addr ip k s = .ok (a, p.1) ∧ ∃ new, p.2 = l.log new ∧ Recorded ip W A X s p.1 new) E := by
  unfold bmap_addr Files.bmap_addr
  rw [inode, run_bind (run_gets _)]
  simp only [ends_bind, ends_left, ends_gets, ends_ite, ends_pure]
  refine ⟨fun h0 => ?_, fun h0 => ⟨by rw [if_neg h0]; rfl, [], rfl, .refl⟩⟩
  rw [if_pos h0]
  refine (balloc_ends h).mono ?_
  rintro a p ⟨hrun, ⟨rfl, rfl⟩ | ⟨ha, rfl⟩⟩
  · rw [run_bind hrun]
    exact ⟨fun _ => ⟨rfl, [], rfl, .refl⟩, fun hne => absurd rfl hne⟩
  · rw [run_bind hrun, if_neg ha.ne_zero]
    refine ⟨fun ha0 => absurd ha0 ha.ne_zero, fun _ => ⟨rfl, [a, BBLOCK a], rfl, ?_⟩⟩
    obtain ⟨hw, ho⟩ := Wrote.of_addr 0 0 h hv hk (by rw [node_valid hv]; exact h0) ha rfl
    have hnone : s.owner (ip, .addr k) = none := by
      rw [State.owner, node_valid hv]
      simp [Dinode.slot, h0, nonzero]
    obtain ⟨h1, h2⟩ := hr _ a hnone ((congrFun ho _).trans (Function.update_self ..))
    refine .of_take hw.keeps rfl ho ?_ (by simp) (by simp) fun b' hb' => ?_
    · intro c hc
      rcases List.mem_pair.mp hc with rfl | rfl
      · exact h1
      · exact h2
    · exact Function.update_of_ne (fun he => hb' (by simp [he])) ..

theorem bmap_entry_ends (h : Sane (some ip) s) (hv : (s.itable ip).valid = true)
    (hb : s.owner (ip, .addr NDIRECT) = some b) (hj : j < NINDIRECT) (hr : Wanted ip W A s (.entry j)) :
    Ends (bmap_entry b j) (s, l) (fun a p =>
      Files.bmap_entry b j s = .ok (a, p.1) ∧ ∃ new, p.2 = l.log new ∧ Recorded ip W A X s p.1 new) E := by
  unfold bmap_entry Files.bmap_entry
  rw [indirect, run_bind (run_gets _)]
  simp only [ends_bind, ends_left, ends_gets, ends_ite, ends_pure]
  refine ⟨fun h0 => ?_, fun h0 => ⟨by rw [if_neg h0]; rfl, [], rfl, .refl⟩⟩
  rw [if_pos h0]
  refine (balloc_ends h).mono ?_
  rintro a p ⟨hrun, ⟨rfl, rfl⟩ | ⟨ha, rfl⟩⟩
  · rw [run_bind hrun]
    exact ⟨fun _ => ⟨rfl, [], rfl, .refl⟩, fun hne => absurd rfl hne⟩
  · rw [run_bind hrun, if_neg ha.ne_zero]
    refine ⟨fun ha0 => absurd ha0 ha.ne_zero, fun _ => ⟨rfl, [b, a, BBLOCK a], rfl, ?_⟩⟩
    obtain ⟨hw, ho⟩ := Wrote.of_entry 0 0 h hv hb hj h0 ha rfl rfl
    have hnone : s.owner (ip, .entry j) = none := by
      rw [owner_entry hb hj, h0]
      rfl
    obtain ⟨h1, h2⟩ := hr _ a hnone ((congrFun ho _).trans (Function.update_self ..))
    refine .of_take hw.keeps rfl ho ?_ (by simp) (by simp) fun b' hb' => ?_
    · intro c hc
      simp only [List.mem_cons, List.not_mem_nil, or_false] at hc
      rcases hc with rfl | rfl | rfl
      · exact .indirect _ (hw.keeps _ _ hb)
      · exact h1
      · exact h2
    · simp only [List.mem_cons, List.not_mem_nil, or_false, not_or] at hb'
      exact (Function.update_of_ne hb'.1 ..).trans (Function.update_of_ne hb'.2.1 ..)

theorem bmap_ends (h : Sane (some ip) s) (hv : (s.itable ip).valid = true) (hbn : bn < MAXFILE) (hA : A bn) :
    Ends (bmap ip bn) (s, l) (fun a p =>
      Files.bmap ip bn s = .ok (a, p.1) ∧ ∃ new, p.2 = l.log new ∧ Recorded ip W A X s p.1 new) E := by
  have hslot : ∀ s, Wanted ip W A s (slotOf bn) := fun s t b h0 hb => ⟨.zeroed bn b hA h0 hb, .bit bn b hA h0 hb⟩
  unfold bmap Files.bmap
  unfold slotOf at hslot
  simp only [ends_ite]
  refine ⟨fun hd => ?_, fun hd => ⟨fun hj => ?_, fun hj => absurd hbn (by simp only [MAXFILE]; omega)⟩⟩
  · rw [if_pos hd]
    simp only [if_pos hd] at hslot
    exact bmap_addr_ends h hv hd.le (hslot s)
  · rw [if_neg hd, if_pos hj, ends_bind]
    simp only [if_neg hd] at hslot
    have hind : Wanted ip W A s (.addr NDIRECT) := fun t b _ hb => ⟨.indirect b hb, .indirectBit b hb⟩
    refine (bmap_addr_ends (X := X) h hv (Nat.le_refl _) hind).mono ?_
    rintro b ⟨t, l'⟩ ⟨hrun, new, rfl, hrec⟩
    obtain ⟨hw, hb, -⟩ := (Files.bmap_addr_ends (E := fun _ => True) 0 0 h hv (Nat.le_refl _)).of_ok hrun
    rw [run_bind hrun, ends_ite]
    refine ⟨fun h0 => ⟨by rw [if_pos h0]; rfl, new, rfl, hrec⟩, fun h0 => ?_⟩
    rw [if_neg h0]
    refine (bmap_entry_ends (X := X) hw.sane (by rw [hw.valid, hv]) (hb h0) hj (hslot t)).mono ?_
    rintro a p ⟨hrun', new', hl, hrec'⟩
    exact ⟨hrun', new' ++ new, by rw [hl]; simp [Trace.log], hrec.trans hrec'⟩

def Meets (lo hi bn : Nat) : Prop := ∃ o, lo ≤ o ∧ o < hi ∧ o / BSIZE = bn

omit [Layout] in
theorem Meets.mono {lo hi lo' hi' : Nat} (h : Meets lo hi bn) (hlo : lo' ≤ lo) (hhi : hi ≤ hi') : Meets lo' hi' bn := by
  obtain ⟨o, h1, h2, h3⟩ := h
  exact ⟨o, by omega, by omega, h3⟩

def Excused (ip : Nat) (src : Source) (tot off left : Nat) (t : State) (b : Nat) : Prop :=
  Spilled ip src tot off left t ∧ t.owner (ip, slotOf (off / BSIZE)) = some b

theorem writei_loop_ends (h : Sane (some ip) s) (hv : (s.itable ip).valid = true) (hk : left ≤ k)
    (hoff : off + left ≤ MAXFILE * BSIZE) : Ends (writei_loop ip src k tot off left) (s, l) (fun r p =>
      Files.writei_loop ip src k tot off left s = .ok (r, p.1) ∧ ∃ new, p.2 = l.log new ∧
        Recorded ip (Meets off r.2) (Meets off (off + left)) (Excused ip src r.1 r.2 (tot + left - r.1) p.1)
          s p.1 new) E := by
  induction k generalizing s l tot off left with
  | zero => exact ⟨rfl, [], rfl, .refl⟩
  | succ k ih =>
    unfold writei_loop Files.writei_loop
    simp only [ends_ite, ends_pure, ends_bind]
    refine ⟨fun h0 => ⟨by rw [if_pos h0]; rfl, [], rfl, .refl⟩, fun h0 => ?_⟩
    rw [if_neg h0]
    have hbn : off / BSIZE < MAXFILE := block_index_lt (by omega)
    have hA : Meets off (off + left) (off / BSIZE) := ⟨off, Nat.le_refl _, by omega, rfl⟩
    refine (bmap_ends (W := fun _ => False) (X := fun _ => False) h hv hbn hA).mono ?_
    rintro a ⟨t, l'⟩ ⟨hrun, new, rfl, hrec⟩
    obtain ⟨hw, hzero, ha⟩ := (bmap_block_ends (E := fun _ => True) off off h hv hbn).of_ok hrun
    rw [run_bind hrun]
    refine ⟨fun ha0 => ⟨by rw [if_pos ha0]; rfl, new, rfl, hrec.mono (fun _ => False.elim) (fun _ h => h)
      fun _ => False.elim⟩, fun ha0 => ?_⟩
    rw [if_neg ha0]
    have hmod : off % BSIZE < BSIZE := Nat.mod_lt _ (by decide)
    generalize hm : min left (BSIZE - off % BSIZE) = m
    rw [ends_left, copyin_block, ends_update, run_bind (run_update _)]
    obtain ⟨t', ht'⟩ : ∃ t' : State, t' = t.setData a fun k =>
        if off % BSIZE ≤ k.val ∧ k.val < off % BSIZE + min m (src.len - tot) then
          src.byte (tot + (k.val - off % BSIZE)) else t.data a k := ⟨_, rfl⟩
    dsimp only
    rw [← ht']
    obtain ⟨hw', ho'⟩ := Wrote.of_copyin (m := m) hw.sane (ha ha0) (Nat.min_le_left ..) ht'
    have hdata : ∀ b, t'.data b ≠ t.data b → b = a := fun b hb => by
      by_contra hne
      rw [ht'] at hb
      exact hb (Function.update_of_ne hne ..)
    have hused : t'.used = t.used := by
      rw [ht']
      rfl
    refine ⟨fun hlen => ?_, fun hlen => ?_⟩
    · rw [if_pos hlen, log_write, ends_right, ends_update]
      refine (ih hw'.sane (by rw [hw'.valid, hw.valid, hv]) (by omega) (by omega)).mono ?_
      rintro ⟨tot', off'⟩ ⟨u, l''⟩ ⟨hrun', new', hl, hrec'⟩
      have hc := (Files.writei_loop_ends (E := fun _ => True) hw'.sane (by rw [hw'.valid, hw.valid, hv]) (by omega)
        (by omega)).of_ok hrun'
      have hle := hc.le
      have hend := hc.end_eq
      dsimp only at hl hle hend hrec' ⊢
      refine ⟨hrun', new' ++ ([a] ++ new), by rw [hl]; simp [Trace.log], ?_⟩
      refine (Recorded.trans (hrec.mono (fun _ => False.elim) (fun _ h => h) fun _ => False.elim)
        (.of_data ho' hused (fun b hb => .inl (List.mem_singleton.mpr (hdata b hb))) ?_)).trans (hrec'.mono ?_ ?_ ?_)
      · intro c hc
        rw [List.mem_singleton.mp hc]
        exact .written (off / BSIZE) a ⟨off, Nat.le_refl _, by omega, rfl⟩ (by rw [ho']; exact ha ha0)
      · exact fun bn hbn => hbn.mono (by omega) (Nat.le_refl _)
      · exact fun bn hbn => hbn.mono (by omega) (by omega)
      · rw [show tot + m + (left - m) - tot' = tot + left - tot' by omega]
        exact fun _ hb => hb
    · rw [if_neg hlen]
      refine ⟨rfl, [] ++ new, rfl, ?_⟩
      refine Recorded.trans (hrec.mono (fun _ => False.elim) (fun _ h => h) fun _ => False.elim)
        (.of_data ho' hused (fun b hb => .inr ⟨?_, by rw [ho', hdata b hb]; exact ha ha0⟩) (by simp))
      rw [Nat.add_sub_cancel_left]
      exact .of_copyin (ha ha0) hm.symm hlen ho' ht'

omit [Layout] in
theorem edit_run {α : Type} {f : Dinode → Dinode} {x : Unit → F α} :
    (do modifyInode ip f; let r ← Files.iupdate ip; x r) s = x () (s.edit ip f) := by
  have hedit : (s.setInode ip fun e => { e with copy := f e.copy }).setDinode ip
      ((s.setInode ip fun e => { e with copy := f e.copy }).itable ip).copy = s.edit ip f := by
    rw [setInode_self]
    rfl
  rw [modifyInode, run_bind (run_update _), Files.iupdate, run_bind (run_update _), hedit]

theorem ends_edit {f : Dinode → Dinode} {Q : Unit → State × Trace → Prop} :
    Ends (modifyInode ip f) s (fun _ t => Ends (iupdate ip) (t, l) Q E) E ↔
      Q () (s.edit ip f, l.log [IBLOCK ip]) := by
  unfold iupdate
  simp only [ends_bind, ends_left, log_write, ends_right, ends_update]
  exact Files.ends_edit

theorem writei_ends (h : Sane none s) (hv : (s.itable ip).valid = true) : Ends (writei ip src off n) (s, l) (fun r p =>
    Files.writei ip src off n s = .ok (r, p.1) ∧ ((r = -1 ∧ p = (s, l)) ∨ ∃ (tot : Nat) (new : List Nat), r = tot ∧
      p.2 = l.log (IBLOCK ip :: new) ∧ (∀ i, i ≠ ip → p.1.dinode i = s.dinode i) ∧
      Recorded ip (Meets off (off + tot)) (Meets off (off + n)) (Excused ip src tot (off + tot) (n - tot) p.1)
        s p.1 new)) E := by
  unfold writei Files.writei
  rw [inode, run_bind (run_gets _)]
  simp only [ends_bind, ends_left, ends_gets, ends_ite, ends_pure]
  refine ⟨fun h1 => ⟨by rw [if_pos h1]; rfl, .inl ⟨trivial, trivial⟩⟩, fun h1 =>
    ⟨fun h2 => ⟨by rw [if_neg h1, if_pos h2]; rfl, .inl ⟨trivial, trivial⟩⟩, fun h2 => ?_⟩⟩
  rw [if_neg h1, if_neg h2]
  refine (writei_loop_ends (h.weaken _) hv (Nat.le_refl _) (by omega)).mono ?_
  rintro ⟨tot, off'⟩ ⟨t, l'⟩ ⟨hrun, new, rfl, hrec⟩
  have hc := (Files.writei_loop_ends (E := fun _ => True) (h.weaken _) hv (Nat.le_refl _) (by omega)).of_ok hrun
  have hend : off' = off + tot := by simpa using hc.end_eq
  have hvt : (t.itable ip).valid = true := by rw [hc.wrote.valid, hv]
  rw [run_bind hrun]
  have ho := owner_edit (f := grow off') hvt (by rw [grow_eq]) (by rw [grow_eq])
  refine ends_edit.mpr ⟨edit_run, .inr ⟨tot, new, rfl, by simp [Trace.log], fun i hi => ?_, ?_⟩⟩
  · exact (edit_disk_of_ne _ hi).trans (congrFun hc.wrote.dinode i)
  · have hX : ∀ b, Excused ip src tot off' (0 + n - tot) t b →
        Excused ip src tot (off + tot) (n - tot) (t.edit ip (grow off')) b := by
      rintro b ⟨hspill, hb⟩
      rw [Nat.zero_add] at hspill
      rw [← hend]
      exact ⟨hspill.congr ho rfl, by rw [ho, hb]⟩
    dsimp only at hrec
    rw [← hend] at hX ⊢
    exact (hrec.mono (fun _ h => h) (fun _ h => h) hX).trans
      (.of_data ho rfl (fun _ hb => absurd rfl hb) (by simp) : Recorded _ _ _ _ _ _ [])

end Logged

abbrev smallLayout : Layout :=
  { toSuper := smallDisk, inodestart := 2, bmapstart := 3, inodes_lt := by decide, bitmap_lt := by decide }

end Xv6.Files
