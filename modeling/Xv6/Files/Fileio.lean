import Mathlib.Data.Finset.Card
import Mathlib.Order.Interval.Finset.Nat
import Xv6.Files.Logged

/-!
# Reading and writing an open file: `file.c`

A write is cut into operations that fit into the log.
-/

open Xv6.Lib Op

namespace Xv6.Files

open State

abbrev MAXWRITE : Nat := (MAXOPBLOCKS - 1 - 1 - 2) / 2 * BSIZE

def begin_op : T Unit := Op.right (Op.update fun l => { l with cur := [] })

def end_op : T Unit := Op.right (Op.update fun l => { cur := [], done := l.done ++ [l.cur] })

def Source.from (src : Source) (i : Nat) : Source := ⟨fun k => src.byte (i + k), src.len - i⟩

def advance (f : Nat) (r : Int) : F Unit :=
  Op.when (0 < r) (Op.update fun s => s.setFile f fun e => { e with off := (e.off + r.toNat) % 2 ^ 32 })

section reading
variable [Super]

def readi_user_loop (ip cap : Nat) : Nat → Nat → Nat → Nat → F (Int × List Byte)
  | 0, tot, _, _ => pure (tot, [])
  | k + 1, tot, off, left =>
    if left = 0 then pure (tot, [])
    else do
      let addr ← bmap ip (off / BSIZE)
      if addr = 0 then pure (tot, [])
      else do
        let m := min left (BSIZE - off % BSIZE)
        let bs ← bytes addr (off % BSIZE) m
        if tot + m ≤ cap then do
          let (r, rest) ← readi_user_loop ip cap k (tot + m) (off + m) (left - m)
          pure (r, bs ++ rest)
        else pure (-1, bs.take (cap - tot))

def readi_user (ip off n cap : Nat) : F (Int × List Byte) := do
  let node ← inode ip
  if off > node.size ∨ (off + n) % 2 ^ 32 < off then pure (0, [])
  else
    let n := if off + n > node.size then node.size - off else n
    readi_user_loop ip cap n 0 off n

def fileread_locked (f : Nat) (n : Int) (cap : Nat) : F (Int × List Byte) := do
  let e ← Op.gets fun s => s.ftable f
  ilock e.ip
  let off ← Op.gets fun s => (s.ftable f).off
  let r ← readi_user e.ip off (n % 2 ^ 32).toNat cap
  advance f r.1
  iunlock e.ip
  pure r

-- `other` is what a pipe or a device does.
def fileread (f : Nat) (n : Int) (cap : Nat) (other : F (Int × List Byte)) : F (Int × List Byte) := do
  let e ← Op.gets fun s => s.ftable f
  if e.readable = false then pure (-1, [])
  else
    match e.type with
    | .pipe | .device => other
    | .inode => fileread_locked f n cap
    | .none => panic "fileread"

end reading

variable [Layout]

-- One round of `filewrite`, from `begin_op` to `end_op`.
def filewrite_op (f : Nat) (src : Source) (i n1 : Nat) : T Int := do
  let e ← Op.left (Op.gets fun s => s.ftable f)
  begin_op
  Op.left (ilock e.ip)
  let off ← Op.left (Op.gets fun s => (s.ftable f).off)
  let r ← Logged.writei e.ip (src.from i) off n1
  Op.left (advance f r)
  Op.left (iunlock e.ip)
  end_op
  pure r

def filewrite_loop (f : Nat) (src : Source) (n : Nat) (others : Nat → State → State) : Nat → Nat → T Nat
  | 0, i => pure i
  | k + 1, i =>
    if i < n then do
      Op.left (Op.update (others i))
      let n1 := min (n - i) MAXWRITE
      let r ← filewrite_op f src i n1
      if r ≠ n1 then pure i else filewrite_loop f src n others k (i + n1)
    else pure i

def filewrite (f : Nat) (src : Source) (n : Int) (others : Nat → State → State) (other : T Int) : T Int := do
  let e ← Op.left (Op.gets fun s => s.ftable f)
  if e.writable = false then pure (-1)
  else
    match e.type with
    | .pipe | .device => other
    | .inode => do
      let i ← filewrite_loop f src n.toNat others n.toNat 0
      pure (if (i : Int) = n then n else -1)
    | .none => Op.left (panic "filewrite")

/-! ## The inode is locked -/

section locked
omit [Layout]
variable [Super] {s t : State} {ip f : Nat} {E : String → Prop}

/-- `f` is an open file for the inode `ip`. -/
structure Ready (f ip : Nat) (s : State) : Prop where
  sane : Sane none s
  type : (s.ftable f).type = .inode
  inum : (s.ftable f).ip = ip
  ref : 0 < (s.itable ip).ref
  live : (s.node ip).type ≠ .free

theorem Sane.setFile {x : Option Nat} {g : File → File} (h : Sane x s) : Sane x (s.setFile f g) :=
  ⟨h.typed, h.synced, h.range, h.owned, fun i hi hty => ⟨(h.full i hi hty).size, (h.full i hi hty).blocks⟩⟩

structure Locked (ip : Nat) (s t : State) : Prop where
  sane : Sane none t
  valid : (t.itable ip).valid = true
  ref : ∀ i, (t.itable i).ref = (s.itable i).ref
  node : t.node = s.node
  owner : t.owner = s.owner
  data : t.data = s.data
  ftable : t.ftable = s.ftable

theorem ilock_ends (h : Sane none s) (href : 0 < (s.itable ip).ref) (hty : (s.node ip).type ≠ .free) :
    Ends (ilock ip) s (fun _ t => Locked ip s t) E := by
  unfold ilock
  simp only [ends_bind, ends_gets, ends_ite, ends_update, ends_pure, panic, ends_stop, inode]
  refine ⟨fun h0 => absurd href (by omega), fun _ => ⟨fun hv => ?_, fun hv => ?_⟩⟩
  · exact ⟨h, hv, fun _ => rfl, rfl, rfl, rfl, rfl⟩
  · have hv : (s.itable ip).valid = false := by simpa using hv
    rw [node_invalid hv] at hty
    rw [setInode_self]
    refine ⟨fun h0 => absurd h0 hty, fun _ => ?_⟩
    have hentry : ∀ i, ((s.setInode ip fun e => { e with valid := true, copy := s.dinode ip }).itable i).valid = true →
        ((s.setInode ip fun e => { e with valid := true, copy := s.dinode ip }).itable i).copy = s.dinode i ∧
          (s.dinode i).type ≠ .free := by
      intro i hvi
      by_cases hi : i = ip
      · subst hi
        rw [setInode_self]
        exact ⟨rfl, hty⟩
      · rw [setInode_of_ne _ hi] at hvi ⊢
        exact h.valid_disk hvi
    obtain ⟨hs, hn, ho⟩ := h.of_disk (t := s.setInode ip fun e => { e with valid := true, copy := s.dinode ip })
      rfl rfl rfl hentry
    refine ⟨hs, by rw [setInode_self], fun i => ?_, hn, ho, rfl, rfl⟩
    by_cases hi : i = ip
    · subst hi
      rw [setInode_self]
    · rw [setInode_of_ne _ hi]

omit [Super] in
theorem iunlock_ends {Q : Unit → State → Prop} (href : 0 < (s.itable ip).ref) (hQ : Q () s) :
    Ends (iunlock ip) s Q E := by
  unfold iunlock
  simp only [ends_bind, ends_gets, ends_ite, ends_pure, panic, ends_stop]
  exact ⟨fun h0 => absurd href (by omega), fun _ => hQ⟩

end locked

/-! ## The size of an operation -/

open Logged

variable {s t : State} {l : Trace} {ip f off n tot i n1 : Nat} {src : Source} {X : Nat → Prop} {new : List Nat}

omit [Layout] in
theorem Logged.Meets.mem_Ico {lo hi bn : Nat} (h : Meets lo hi bn) (hhi : hi ≤ off + n) (hlo : off ≤ lo) :
    bn ∈ Finset.Ico (off / BSIZE) ((off + n + (BSIZE - 1)) / BSIZE) := by
  obtain ⟨o, h1, h2, rfl⟩ := h
  rw [Finset.mem_Ico]
  simp only [BSIZE]
  omega

omit [Layout] in
theorem fresh_card_le [Super] (hf : Full s ip) (hoff : off ≤ (s.node ip).size) (hn : n ≤ MAXWRITE) :
    (Finset.Ico (off / BSIZE) ((off + n + (BSIZE - 1)) / BSIZE)).card +
      ((Finset.Ico (off / BSIZE) ((off + n + (BSIZE - 1)) / BSIZE)).filter
        fun bn => (s.owner (ip, slotOf bn)).isNone).card ≤ 7 := by
  generalize hR : Finset.Ico (off / BSIZE) ((off + n + (BSIZE - 1)) / BSIZE) = R
  have hcard : R.card = (off + n + (BSIZE - 1)) / BSIZE - off / BSIZE := by rw [← hR, Nat.card_Ico]
  have hfilter := Finset.card_filter_le R fun bn => (s.owner (ip, slotOf bn)).isNone
  by_cases hal : off % BSIZE = 0
  · simp only [MAXWRITE, MAXOPBLOCKS, BSIZE] at *
    omega
  · have hfirst : off / BSIZE ∉ R.filter fun bn => (s.owner (ip, slotOf bn)).isNone := by
      rw [Finset.mem_filter, not_and, Option.isNone_iff_eq_none]
      intro _
      exact hf.blocks _ (by have := Nat.div_add_mod' off BSIZE; omega)
    by_cases hmem : off / BSIZE ∈ R
    · have hlt : (R.filter fun bn => (s.owner (ip, slotOf bn)).isNone).card < R.card :=
        Finset.card_lt_card ⟨Finset.filter_subset .., fun hsub => hfirst (hsub hmem)⟩
      simp only [MAXWRITE, MAXOPBLOCKS, BSIZE] at *
      omega
    · rw [← hR, Finset.mem_Ico] at hmem
      simp only [MAXWRITE, MAXOPBLOCKS, BSIZE] at *
      omega

theorem Recorded.card_le (h : Recorded ip (Meets off (off + tot)) (Meets off (off + n)) X s t new) (htot : tot ≤ n)
    (hf : Full s ip) (hoff : off ≤ (s.node ip).size) (hn : n ≤ MAXWRITE) :
    (IBLOCK ip :: new).toFinset.card ≤ MAXOPBLOCKS := by
  let block (bn : Nat) : Nat := (t.owner (ip, slotOf bn)).getD 0
  let ind : Nat := (t.owner (ip, .addr NDIRECT)).getD 0
  let R := Finset.Ico (off / BSIZE) ((off + n + (BSIZE - 1)) / BSIZE)
  let fresh := R.filter fun bn => (s.owner (ip, slotOf bn)).isNone
  have hblock : ∀ {bn b}, t.owner (ip, slotOf bn) = some b → block bn = b := fun hb => by simp [block, hb]
  have hind : ∀ {b}, t.owner (ip, .addr NDIRECT) = some b → ind = b := fun hb => by simp [ind, hb]
  have hfresh : ∀ {bn}, Meets off (off + n) bn → s.owner (ip, slotOf bn) = none → bn ∈ fresh := fun hm h0 => by
    rw [Finset.mem_filter, h0]
    exact ⟨hm.mem_Ico (Nat.le_refl _) (Nat.le_refl _), rfl⟩
  have hsub : (IBLOCK ip :: new).toFinset ⊆ insert (IBLOCK ip) (insert ind (insert (BBLOCK ind)
      (R.image block ∪ fresh.image fun bn => BBLOCK (block bn)))) := by
    intro c hc
    rw [List.mem_toFinset, List.mem_cons] at hc
    simp only [Finset.mem_insert, Finset.mem_union, Finset.mem_image]
    rcases hc with rfl | hc
    · exact .inl rfl
    · cases h.reason c hc with
      | written bn b hW hb =>
        exact .inr (.inr (.inr (.inl ⟨bn, hW.mem_Ico (by omega) (Nat.le_refl _), hblock hb⟩)))
      | zeroed bn b hA h0 hb =>
        exact .inr (.inr (.inr (.inl ⟨bn, hA.mem_Ico (Nat.le_refl _) (Nat.le_refl _), hblock hb⟩)))
      | bit bn b hA h0 hb => exact .inr (.inr (.inr (.inr ⟨bn, hfresh hA h0, by rw [hblock hb]⟩)))
      | indirect b hb => exact .inr (.inl (hind hb).symm)
      | indirectBit b hb => exact .inr (.inr (.inl (by rw [hind hb])))
  calc (IBLOCK ip :: new).toFinset.card
      ≤ _ := Finset.card_le_card hsub
    _ ≤ (R.image block ∪ fresh.image fun bn => BBLOCK (block bn)).card + 1 + 1 + 1 := by
        refine (Finset.card_insert_le ..).trans (Nat.succ_le_succ ?_)
        exact (Finset.card_insert_le ..).trans (Nat.succ_le_succ (Finset.card_insert_le ..))
    _ ≤ R.card + fresh.card + 1 + 1 + 1 := by
        have := Finset.card_union_le (R.image block) (fresh.image fun bn => BBLOCK (block bn))
        have := Finset.card_image_le (s := R) (f := block)
        have := Finset.card_image_le (s := fresh) (f := fun bn => BBLOCK (block bn))
        omega
    _ ≤ MAXOPBLOCKS := by
        have : R.card + fresh.card ≤ 7 := fresh_card_le hf hoff hn
        simp only [MAXOPBLOCKS]
        omega

def State.advanced (s : State) (f : Nat) (r : Int) : State :=
  if 0 < r then s.setFile f fun e => { e with off := (e.off + r.toNat) % 2 ^ 32 } else s

omit [Layout] in
theorem ends_advance {r : Int} {Q : Unit → State → Prop} {E : String → Prop} :
    Ends (advance f r) s Q E ↔ Q () (s.advanced f r) := by
  unfold advance State.advanced
  rw [ends_when]
  split_ifs with h0
  · exact ⟨fun h => h.1 h0, fun h => ⟨fun _ => h, fun hno => absurd h0 hno⟩⟩
  · exact ⟨fun h => h.2 h0, fun h => ⟨fun h1 => absurd h1 h0, fun _ => h⟩⟩

def Round (f ip : Nat) (src : Source) (i n1 : Nat) (r : Int) (s t : State) : Prop :=
  ∃ u v, Locked ip s u ∧ t = v.advanced f r ∧
    ((r = -1 ∧ v = u) ∨ ∃ tot : Nat, r = tot ∧ Put ip (src.from i) (s.ftable f).off n1 tot u v)

theorem filewrite_op_ends {E : String → Prop} (h : Ready f ip s) (hn1 : n1 ≤ MAXWRITE) :
    Ends (filewrite_op f src i n1) (s, l) (fun r p => Round f ip src i n1 r s p.1 ∧
      ∃ op, p.2 = ⟨[], l.done ++ [op]⟩ ∧ op.toFinset.card ≤ MAXOPBLOCKS) E := by
  unfold filewrite_op
  simp only [ends_bind, ends_left, ends_gets, begin_op, end_op, ends_right, ends_update, ends_pure, h.inum]
  refine (ilock_ends h.sane h.ref h.live).mono fun _ u hu => ?_
  rw [hu.ftable]
  refine (Logged.writei_ends hu.sane hu.valid).mono ?_
  rintro r ⟨v, l'⟩ ⟨hrun, hlog⟩
  have hput := (writei_ends (E := fun _ => True) hu.sane hu.valid).of_ok hrun
  have hf := hu.sane.full ip (by simp) (hu.sane.node_type hu.valid)
  rw [ends_advance]
  have href : ((v.advanced f r).itable ip).ref = (v.itable ip).ref := by
    unfold State.advanced
    split_ifs <;> rfl
  rcases hput with ⟨rfl, rfl, -⟩ | ⟨tot, rfl, hput⟩
  · refine iunlock_ends (by rw [href, hu.ref]; exact h.ref) ⟨⟨v, v, hu, rfl, .inl ⟨rfl, rfl⟩⟩, l'.cur, ?_⟩
    rcases hlog with ⟨-, hp⟩ | ⟨tot, new, htot, -⟩
    · cases hp
      exact ⟨rfl, by simp⟩
    · omega
  · refine iunlock_ends (by rw [href, hput.ref, hu.ref]; exact h.ref) ⟨⟨u, v, hu, rfl, .inr ⟨tot, rfl, hput⟩⟩, l'.cur, ?_⟩
    rcases hlog with ⟨h0, -⟩ | ⟨tot', new, htot, hl, -, hrec⟩
    · omega
    obtain rfl : tot = tot' := by omega
    dsimp only at hl hrec ⊢
    have hcur : l'.cur = IBLOCK ip :: new := by simp [hl, Trace.log]
    have hdone : l'.done = l.done := by simp [hl, Trace.log]
    rw [hdone, hcur]
    exact ⟨rfl, hrec.card_le hput.le hf hput.start hn1⟩

namespace Ready

omit [Layout]
variable [Super]

theorem locked (h : Ready f ip s) (ht : Locked ip s t) : Ready f ip t where
  sane := ht.sane
  type := by rw [ht.ftable, h.type]
  inum := by rw [ht.ftable, h.inum]
  ref := by rw [ht.ref]; exact h.ref
  live := by rw [ht.node]; exact h.live

theorem put (h : Ready f ip s) (ht : Put ip src off n tot s t) : Ready f ip t where
  sane := ht.sane
  type := by rw [ht.ftable, h.type]
  inum := by rw [ht.ftable, h.inum]
  ref := by rw [ht.ref]; exact h.ref
  live := by
    obtain ⟨g, hnode⟩ := ht.node
    rw [hnode]
    exact h.live

theorem advanced {r : Int} (h : Ready f ip s) : Ready f ip (s.advanced f r) := by
  unfold State.advanced
  split_ifs
  · refine ⟨h.sane.setFile, ?_, ?_, h.ref, h.live⟩
    · simp [State.setFile, h.type]
    · simp [State.setFile, h.inum]
  · exact h

end Ready

theorem Ready.round {r : Int} (h : Ready f ip s) (hr : Round f ip src i n1 r s t) : Ready f ip t := by
  obtain ⟨u, v, hu, rfl, ⟨-, rfl⟩ | ⟨tot, -, hput⟩⟩ := hr
  · exact (h.locked hu).advanced
  · exact ((h.locked hu).put hput).advanced

theorem filewrite_loop_ends {k : Nat} {E : String → Prop} {others : Nat → State → State}
    (hothers : ∀ i s, Ready f ip s → Ready f ip (others i s)) (h : Ready f ip s) :
    Ends (filewrite_loop f src n others k i) (s, l) (fun _ p => Ready f ip p.1 ∧
      ∃ ops, p.2.done = l.done ++ ops ∧ ∀ op ∈ ops, op.toFinset.card ≤ MAXOPBLOCKS) E := by
  induction k generalizing s l i with
  | zero => exact ⟨h, [], by simp, (by simp)⟩
  | succ k ih =>
    unfold filewrite_loop
    simp only [ends_ite, ends_bind, ends_left, ends_update, ends_pure]
    refine ⟨fun _ => ?_, fun _ => ⟨h, [], by simp, (by simp)⟩⟩
    refine (filewrite_op_ends (hothers i s h) (Nat.min_le_right ..)).mono ?_
    rintro r ⟨t, l'⟩ ⟨hround, op, rfl, hop⟩
    have ht := (hothers i s h).round hround
    refine ⟨fun _ => ⟨ht, [op], rfl, by simpa using hop⟩, fun _ => ?_⟩
    refine (ih ht).mono ?_
    rintro _ p ⟨hp, ops, hdone, hops⟩
    refine ⟨hp, op :: ops, by rw [hdone]; simp, fun op' hmem => ?_⟩
    rcases List.mem_cons.mp hmem with rfl | hmem
    · exact hop
    · exact hops op' hmem

/-- Each operation of a write logs at most `MAXOPBLOCKS` blocks, whatever other processes do in between. -/
theorem filewrite_fits_log {m : Int} {others : Nat → State → State} {other : T Int}
    (hothers : ∀ i s, Ready f ip s → Ready f ip (others i s)) (h : Ready f ip s) :
    Ends (filewrite f src m others other) (s, l) (fun _ p =>
      ∃ ops, p.2.done = l.done ++ ops ∧ ∀ op ∈ ops, op.toFinset.card ≤ MAXOPBLOCKS) fun _ => False := by
  unfold filewrite
  simp only [ends_bind, ends_left, ends_gets, ends_ite, ends_pure]
  refine ⟨fun _ => ⟨[], by simp, (by simp)⟩, fun _ => ?_⟩
  rw [h.type]
  dsimp only
  rw [ends_bind]
  exact (filewrite_loop_ends hothers h).mono fun _ p hp => hp.2

section twoBytes
omit [Layout]

def openFile (s : State) : State :=
  s.setFile 0 fun e => { e with type := .inode, ref := 1, readable := true, writable := true, ip := 1 }

/-- A write of 7000 bytes: its three operations all fit. -/
theorem filewrite_fits_log_rounds : ∃ s p, @Ready smallDisk 0 1 s ∧
    @filewrite smallLayout 0 ⟨fun _ => 9, 7000⟩ 7000 (fun _ s => s) (pure 0) (s, {}) = .ok (7000, p) ∧
    p.2.done.length = 3 ∧ ∀ op ∈ p.2.done, op.toFinset.card ≤ MAXOPBLOCKS := by
  obtain ⟨s, hsane, hs⟩ := exists_sane twoBytes (fun s => decide (0 < (s.itable 1).ref ∧ (s.node 1).type ≠ .free) &&
    (@filewrite smallLayout 0 ⟨fun _ => 9, 7000⟩ 7000 (fun _ s => s) (pure 0) (openFile s, {})).toOption.any
      fun (r : Int × State × Trace) => decide (r.1 = 7000 ∧ r.2.2.done.length = 3)) (by decide +kernel)
  rw [Bool.and_eq_true, Option.any_eq_true] at hs
  obtain ⟨hopen, ⟨r, p⟩, hrun, hval⟩ := hs
  obtain ⟨href, hty⟩ := of_decide_eq_true hopen
  obtain ⟨rfl, hlen⟩ := of_decide_eq_true hval
  rw [toOption_eq_some] at hrun
  have hready := @Ready.mk smallDisk 0 1 (openFile s) (@Sane.setFile smallDisk s 0 none _ hsane) rfl rfl href hty
  obtain ⟨ops, hdone, hops⟩ := (@filewrite_fits_log smallLayout _ {} 1 0 _ _ _ _ (fun _ _ h => h) hready).of_ok hrun
  refine ⟨_, p, hready, hrun, hlen, ?_⟩
  rw [hdone]
  exact hops

end twoBytes

end Xv6.Files
