import Xv6.Files.Holding
import Xv6.Files.Names
import Xv6.Lib.Parts

/-!
# A directory is a map

The directory is held and locked. Names come and go one after the other, and what is found is what
was linked last.
-/

open Xv6.Lib Op

namespace Xv6.Files

open State

variable {s t u : State} {dp d i k n inum bn a : Nat} {name : Name} {de : Dirent} {E : String → Prop} [Super]

/-! ## Room for an entry -/

def Scarce (s : State) : Prop := ∃ a, ∀ b < size, s.used b = false → b = a

/-- There is no block for slot `bn` of the inode: the indirect block takes one too. -/
def Lacks (s : State) (ip bn : Nat) : Prop := s.owner (ip, slotOf bn) = none ∧
  (Exhausted s ∨ NDIRECT ≤ bn ∧ s.owner (ip, .addr NDIRECT) = none ∧ Scarce s)

theorem Fresh.not_exhausted (h : Fresh s a) : ¬ Exhausted s := by
  intro hall
  have := hall a h.hi
  rw [h.unused] at this
  cases this

theorem Exhausted.scarce (h : Exhausted s) : Scarce s :=
  ⟨0, fun b hb hu => by rw [h b hb] at hu; cases hu⟩

theorem Fresh.exhausted_iff (h : Fresh s a) (hu : t.used = Function.update s.used a true) :
    Exhausted t ↔ Scarce s := by
  unfold Exhausted
  rw [hu]
  constructor
  · intro hall
    refine ⟨a, fun b hb hf => ?_⟩
    by_contra hne
    have := hall b hb
    rw [Function.update_of_ne hne, hf] at this
    cases this
  · rintro ⟨c, hc⟩ b hb
    by_cases hba : b = a
    · rw [hba, Function.update_self]
    · rw [Function.update_of_ne hba, ← Bool.not_eq_false]
      exact fun hf => hba ((hc b hb hf).trans (hc a h.hi h.unused).symm)

theorem Filled.zero_iff {sl : Slot} (h : Filled i sl s a t) : a = 0 ↔ Exhausted s := by
  obtain ⟨h0, -, hall⟩ | hg := h
  · exact iff_of_true h0 hall
  · exact iff_of_false hg.fresh.ne_zero hg.fresh.not_exhausted

theorem bmap_lacks (h : Sane (some i) s) (hv : (s.itable i).valid = true) (hbn : bn < MAXFILE) :
    Ends (bmap i bn) s (fun a _ => a = 0 ↔ Lacks s i bn) E := by
  cases hs : s.owner (i, slotOf bn) with
  | some b =>
    rw [ends_of_run (bmap_found hv hs hbn)]
    exact iff_of_false (owner_ne_zero hs) fun hl => by rw [hl.1] at hs; cases hs
  | none =>
    have hl : Lacks s i bn ↔ Exhausted s ∨ NDIRECT ≤ bn ∧ s.owner (i, .addr NDIRECT) = none ∧ Scarce s :=
      and_iff_right hs
    rw [hl]
    by_cases hind : NDIRECT ≤ bn ∧ s.owner (i, .addr NDIRECT) = none
    · -- The indirect block comes first.
      obtain ⟨hd, hb⟩ := hind
      have hj : bn - NDIRECT < NINDIRECT := by
        simp only [MAXFILE] at hbn
        omega
      rw [slotOf, if_neg (by omega)] at hs
      rw [bmap, if_neg (by omega), if_pos hj, ends_bind]
      refine (bmap_addr_filled h hv (Nat.le_refl _) hb).mono ?_
      rintro b t (⟨rfl, rfl, hall⟩ | hg)
      · exact iff_of_true rfl (.inl hall)
      · rw [if_neg hg.fresh.ne_zero]
        refine (bmap_entry_filled (hg.wrote 0 0).sane (by rw [(hg.wrote 0 0).valid, hv])
          (by rw [hg.owner, Function.update_self]) hj (by rw [hg.owner, Function.update_of_ne (by simp), hs])).mono ?_
        intro a _ ha
        rw [ha.zero_iff, hg.fresh.exhausted_iff hg.used]
        exact ⟨fun hc => .inr ⟨hd, hb, hc⟩, fun hc => hc.elim (·.scarce) (·.2.2)⟩
    · refine (bmap_filled h hv hbn hs fun hd hb => hind ⟨hd, hb⟩).mono ?_
      intro a _ ha
      rw [ha.zero_iff]
      exact ⟨.inl, fun hc => hc.elim id fun hc => absurd ⟨hc.1, hc.2.1⟩ hind⟩

theorem writei_lacks {src : Source} {off : Nat} (h : Sane none s) (hv : (s.itable i).valid = true)
    (hoff : off ≤ (s.node i).size) (hmax : off ≤ MAXFILE * BSIZE) (hblock : off % BSIZE + n ≤ BSIZE) (hn : 0 < n)
    (hsrc : n ≤ src.len) : Ends (writei i src off n) s
      (fun r _ => r = n ↔ ¬ (MAXFILE * BSIZE < off + n ∨ Lacks s i (off / BSIZE))) E := by
  have hsmall : (off + n) % 2 ^ 32 = off + n := Nat.mod_eq_of_lt (by
    simp only [MAXFILE, NDIRECT, NINDIRECT, BSIZE] at *
    omega)
  unfold writei
  simp only [ends_bind, inode, ends_gets, ends_ite, ends_pure, ends_edit]
  rw [← node_valid hv, hsmall]
  refine ⟨fun hc => by omega, fun _ => ⟨fun hbig => iff_of_false (by omega) (not_not.mpr (.inl hbig)), fun hfit => ?_⟩⟩
  obtain ⟨m, rfl⟩ : ∃ m, n = m + 1 := ⟨n - 1, by omega⟩
  have hbn : off / BSIZE < MAXFILE := by
    simp only [BSIZE] at *
    omega
  rw [writei_loop, if_neg (by omega)]
  simp only [ends_bind, ends_ite, ends_pure, copyin_block, ends_update]
  refine (bmap_lacks (h.weaken _) hv hbn).mono ?_
  intro a t ha
  refine ⟨fun h0 => iff_of_false (by omega) (not_not.mpr (.inr (ha.mp h0))), fun h0 => ?_⟩
  rw [Nat.min_eq_left (by omega)]
  refine ⟨fun _ => ?_, fun hc => absurd hsrc (by omega)⟩
  have hdone : ∀ (k tot off : Nat) (u : State), writei_loop i src k tot off 0 u = .ok ((tot, off), u) := by
    intro k tot off u
    cases k with
    | zero => rfl
    | succ k => rw [writei_loop, if_pos rfl]; rfl
  rw [Nat.sub_self, ends_of_run (hdone ..)]
  exact iff_of_true (by simp) fun hc => hc.elim hfit fun hl => h0 (ha.mpr hl)

/-- The last block is full, and the directory has its largest size or gets no other block. -/
def CannotGrow (s : State) (d : Nat) : Prop :=
  MAXFILE * BSIZE < (s.node d).size + DIRENT_SIZE ∨ Lacks s d ((s.node d).size / BSIZE)

/-! ## A directory that is held -/

structure Held (dp : Nat) (s : State) : Prop where
  sane : Sane none s
  dir : IsDir s dp
  ref : 0 < (s.itable dp).ref

def Spare (i : Nat) (s : State) : Prop := (s.itable i).valid = true → 2 ≤ (s.itable i).ref

abbrev Crowded (msg : String) : Prop := msg = "iget: no inodes"

theorem Held.setInode {f : Inode → Inode} (h : Held dp s)
    (hf : (f (s.itable i)).valid = true → (s.itable i).valid = true ∧ (f (s.itable i)).copy = (s.itable i).copy)
    (hself : i = dp → (f (s.itable i)).valid = true ∧ 0 < (f (s.itable i)).ref) :
    Held dp (s.setInode i f) ∧ (s.setInode i f).ents dp = s.ents dp := by
  have hdisk : ∀ j, ((s.setInode i f).itable j).valid = true →
      ((s.setInode i f).itable j).copy = s.dinode j ∧ (s.dinode j).type ≠ .free := by
    intro j hvj
    by_cases hj : j = i
    · subst hj
      rw [setInode_self] at hvj ⊢
      rw [(hf hvj).2]
      exact h.sane.valid_disk (hf hvj).1
    · rw [setInode_of_ne _ hj] at hvj ⊢
      exact h.sane.valid_disk hvj
  obtain ⟨hsane, hnode, howner⟩ := h.sane.of_disk (t := s.setInode i f) rfl rfl rfl hdisk
  have hdp : ((s.setInode i f).itable dp).valid = true ∧ 0 < ((s.setInode i f).itable dp).ref := by
    by_cases hi : i = dp
    · have := hself hi
      rw [← hi, setInode_self]
      exact this
    · rw [setInode_of_ne _ (Ne.symm hi)]
      exact ⟨h.dir.valid, h.ref⟩
  have hty : ((s.setInode i f).node dp).type = .dir := by
    rw [hnode]
    exact h.dir.type
  refine ⟨⟨hsane, ⟨hdp.1, hty, ?_, hsane.full dp (by simp) (by rw [hty]; simp)⟩, hdp.2⟩, ?_⟩
  · rw [hnode]
    exact h.dir.aligned
  · exact ents_congr (by rw [hnode]) (byteAt_congr (fun sl => by rw [howner]) rfl)

theorem Held.iget (h : Held dp s) :
    Ends (iget i) s (fun _ t => Held dp t ∧ t.ents dp = s.ents dp ∧ Spare i t) Crowded := by
  unfold Files.iget
  simp only [ends_bind, ends_gets, ends_ite, ends_update, id, panic, ends_stop]
  refine ⟨fun h0 => ?_, fun h0 => ⟨fun _ => trivial, fun _ => ?_⟩⟩
  · obtain ⟨hh, he⟩ := h.setInode (i := i) (f := fun e => { e with ref := e.ref + 1 }) (fun hv => ⟨hv, rfl⟩)
      fun hi => ⟨hi ▸ h.dir.valid, Nat.succ_pos _⟩
    refine ⟨hh, he, fun _ => ?_⟩
    rw [setInode_self]
    exact Nat.succ_le_succ h0
  · obtain ⟨hh, he⟩ := h.setInode (i := i) (f := fun e => { e with ref := 1, valid := false }) (by simp)
      fun hi => absurd (hi ▸ h.ref) h0
    refine ⟨hh, he, fun hv => ?_⟩
    rw [setInode_self] at hv
    cases hv

theorem Held.iput (h : Held dp s) (hi : Spare i s) :
    Ends (iput i) s (fun _ t => Held dp t ∧ t.ents dp = s.ents dp) E := by
  refine (iput_ends h.sane).mono ?_
  rintro _ t (⟨-, rfl⟩ | ⟨⟨hone, hv, -⟩, -⟩)
  · refine h.setInode (fun hv => ⟨hv, rfl⟩) ?_
    rintro rfl
    have := hi h.dir.valid
    exact ⟨h.dir.valid, by dsimp only; omega⟩
  · have := hi hv
    omega

theorem Held.dirlookup (h : Held dp s) : Ends (dirlookup dp name) s (fun r t =>
    r = lookup name (s.ents dp) 0 ∧ (r = none → t = s) ∧
      ∀ x, r = some x → Held dp t ∧ t.ents dp = s.ents dp ∧ Spare x.1 t) Crowded := by
  refine h.dir.dirlookup ?_ ?_
  · intro hnone
    exact ⟨hnone.symm, fun _ => rfl, (by simp)⟩
  · intro x hx
    refine h.iget.mono ?_
    intro _ t ht
    refine ⟨hx.symm, (by simp), fun y hy => ?_⟩
    cases hy
    exact ht

abbrev Packed (s : State) (d : Nat) : Prop := ∀ e ∈ s.ents d, e.inum ≠ 0

theorem Held.write (h : Held dp s) (hk : k ≤ (s.ents dp).length) :
    Ends (writei dp (.kernel de.encode) (DIRENT_SIZE * k) DIRENT_SIZE) s (fun r t =>
      Held dp t ∧ (∀ i, Spare i s → Spare i t) ∧
      ((r = DIRENT_SIZE ∧ ¬ ((s.ents dp).length ≤ k ∧ CannotGrow s dp) ∧
          t.ents dp = putAt (s.ents dp) k (Dirent.decode de.encode)) ∨
        (r ≠ DIRENT_SIZE ∧ (s.ents dp).length ≤ k ∧ CannotGrow s dp ∧ t.ents dp = s.ents dp))) E := by
  have hsz := h.dir.size
  have hle := h.dir.length_le
  have hoff : DIRENT_SIZE * k ≤ (s.node dp).size := by
    simp only [DIRENT_SIZE] at *
    omega
  have hblock : DIRENT_SIZE * k % BSIZE + DIRENT_SIZE ≤ BSIZE := by
    simp only [DIRENT_SIZE, BSIZE]
    omega
  have hfit : Ends (writei dp (.kernel de.encode) (DIRENT_SIZE * k) DIRENT_SIZE) s _ E :=
    writei_lacks h.sane h.dir.valid hoff (by omega) hblock (by decide) (encode_length de).ge
  -- The room counts only for the slot after the last.
  have hroom : (MAXFILE * BSIZE < DIRENT_SIZE * k + DIRENT_SIZE ∨ Lacks s dp (DIRENT_SIZE * k / BSIZE)) ↔
      (s.ents dp).length ≤ k ∧ CannotGrow s dp := by
    by_cases hlast : (s.ents dp).length ≤ k
    · rw [and_iff_right hlast, CannotGrow, hsz, Nat.le_antisymm hlast hk]
    · refine iff_of_false ?_ fun hc => hlast hc.1
      rintro (hbig | hl)
      · simp only [DIRENT_SIZE] at *
        omega
      · refine h.dir.full.blocks _ ?_ hl.1
        have := Nat.div_mul_le_self (DIRENT_SIZE * k) BSIZE
        simp only [DIRENT_SIZE] at *
        omega
  rw [hroom] at hfit
  refine ((writei_ends h.sane h.dir.valid).and hfit).mono ?_
  rintro r t ⟨⟨rfl, rfl, -⟩ | ⟨tot, rfl, hp⟩, hr⟩
  · have hc := not_not.mp (mt hr.mpr (by decide))
    exact ⟨h, fun _ hi => hi, .inr ⟨by decide, hc.1, hc.2, rfl⟩⟩
  · obtain ⟨f, hnode⟩ := hp.node
    have hty : (t.node dp).type = .dir := by
      rw [hnode]
      exact h.dir.type
    have hheld : (t.node dp).size % DIRENT_SIZE = 0 → Held dp t := fun hal =>
      ⟨hp.sane, ⟨by rw [hp.valid, h.dir.valid], hty, hal, hp.sane.full dp (by simp) (by rw [hty]; simp)⟩,
        by rw [hp.ref]; exact h.ref⟩
    have hspare : ∀ i, Spare i s → Spare i t := fun i hi => by rwa [Spare, hp.valid, hp.ref]
    by_cases hall : tot = DIRENT_SIZE
    · refine ⟨hheld ?_, hspare, .inl ⟨by rw [hall], hr.mp (by rw [hall]), h.dir.put_ents hk hp hall⟩⟩
      rw [hnode, hsz, hall]
      simp only [DIRENT_SIZE]
      omega
    · have hne : (tot : Int) ≠ DIRENT_SIZE := by omega
      obtain ⟨h0, hlast⟩ := h.dir.put_short hp (Nat.lt_of_le_of_ne hp.le hall)
      refine ⟨hheld ?_, hspare, .inr ⟨hne, hlast, (not_not.mp (mt hr.mpr hne)).2, ?_⟩⟩
      · rw [hnode, hsz, h0]
        simp only [DIRENT_SIZE]
        omega
      · refine put_none_ents hp h0 hoff ?_
        rw [hsz]
        exact Nat.mul_le_mul_left _ hlast

/-! ## One operation -/

omit [Super] in
theorem emptySlot_free (l : List Dirent) (e : Dirent) (h : l[emptySlot l]? = some e) : e.inum = 0 := by
  simpa using findIdx_free h

omit [Super] in
theorem length_le_emptySlot : (s.ents d).length ≤ emptySlot (s.ents d) ↔ Packed s d := by
  rw [(emptySlot_le _).ge_iff_eq, emptySlot, List.findIdx_eq_length]
  simp

theorem Held.dirlink (h : Held dp s) (hinum : inum < 2 ^ 16) : Ends (dirlink dp name inum) s (fun r t => Held dp t ∧
    ((r = -1 ∧ (lookup name (s.ents dp) 0 ≠ none ∨ Packed s dp ∧ CannotGrow s dp) ∧ t.ents dp = s.ents dp) ∨
      (r = 0 ∧ ¬ (lookup name (s.ents dp) 0 ≠ none ∨ Packed s dp ∧ CannotGrow s dp) ∧
        t.ents dp = putAt (s.ents dp) (emptySlot (s.ents dp)) ⟨inum, cstring name⟩))) Crowded := by
  unfold Files.dirlink
  rw [ends_bind]
  refine h.dirlookup.mono ?_
  rintro r t ⟨hr, hnone, hsome⟩
  rw [← hr]
  cases r with
  | some x =>
    obtain ⟨ht, hents, hspare⟩ := hsome x rfl
    dsimp only
    rw [ends_bind]
    refine (ht.iput hspare).mono ?_
    rintro _ u ⟨hu, hents'⟩
    exact ⟨hu, .inl ⟨rfl, .inl (by simp), hents'.trans hents⟩⟩
  | none =>
    rw [hnone rfl]
    have hsz := h.dir.size
    have hloop := h.dir.dirlink_loop (j := 0) (k := (s.node dp).size) (by simp only [DIRENT_SIZE] at hsz; omega)
    rw [Nat.mul_zero, Nat.zero_add, List.drop_zero] at hloop
    simp only [ends_bind, inode, ends_gets]
    rw [← node_valid h.dir.valid, ends_of_run hloop]
    refine (h.write (emptySlot_le _)).mono ?_
    rintro r u ⟨hu, -, hcases⟩
    rw [length_le_emptySlot, decode_encode hinum] at hcases
    simp only [ends_ite, ends_pure]
    rcases hcases with ⟨hall, hroom, hents⟩ | ⟨hall, hfull, hroom, hents⟩
    · exact ⟨fun hc => absurd hall hc, fun _ => ⟨hu, .inr ⟨trivial, fun hc => hc.elim (fun hn => hn rfl) hroom, hents⟩⟩⟩
    · exact ⟨fun _ => ⟨hu, .inl ⟨trivial, .inr ⟨hfull, hroom⟩, hents⟩⟩, fun hc => absurd hall hc⟩

def unlink_name (dp : Nat) (name : Name) : F Int := do
  if namecmp name DOT ∨ namecmp name DOTDOT then pure (-1)
  else do
    let r ← dirlookup dp name
    match r with
    | none => pure (-1)
    | some (ip, off) => do
      let r ← writei dp (.kernel (List.replicate DIRENT_SIZE 0)) off DIRENT_SIZE
      if r ≠ DIRENT_SIZE then panic "unlink: writei"
      else do
        iput ip
        pure 0

theorem Held.unlink_name (h : Held dp s) : Ends (unlink_name dp name) s (fun r t => Held dp t ∧
    ((r = -1 ∧ t.ents dp = s.ents dp) ∨ (r = 0 ∧ cstring name ≠ DOT ∧ cstring name ≠ DOTDOT ∧
      ∃ (k : Nat) (e : Dirent), (s.ents dp)[k]? = some e ∧ e.inum ≠ 0 ∧ cstring name = cstring e.name ∧
        t.ents dp = putAt (s.ents dp) k ⟨0, []⟩))) Crowded := by
  unfold Files.unlink_name
  simp only [ends_ite, ends_pure, ends_bind]
  refine ⟨fun _ => ⟨h, .inl ⟨trivial, trivial⟩⟩, fun hdots => h.dirlookup.mono ?_⟩
  rw [namecmp_iff, namecmp_iff, cstring_DOT, cstring_DOTDOT, not_or] at hdots
  rintro r t ⟨hr, hnone, hsome⟩
  cases r with
  | none =>
    rw [hnone rfl]
    exact ⟨h, .inl ⟨rfl, rfl⟩⟩
  | some x =>
    obtain ⟨ht, hents, hspare⟩ := hsome x rfl
    obtain ⟨k, hk, hoff, hi, h0, hn⟩ := lookup_some hr.symm
    have hzero : List.replicate DIRENT_SIZE (0 : Byte) = Dirent.encode ⟨0, []⟩ := by decide
    dsimp only
    rw [hoff, Nat.zero_add, hzero, ends_bind]
    refine (ht.write (hents ▸ hk.le)).mono ?_
    rintro r u ⟨hu, hkeep, hcases⟩
    rw [hents, decode_encode (by decide)] at hcases
    simp only [ends_ite, ends_bind, ends_pure, panic, ends_stop]
    rcases hcases with ⟨hall, -, hput⟩ | ⟨-, hlast, -⟩
    · refine ⟨fun hc => absurd hall hc, fun _ => (hu.iput (hkeep _ hspare)).mono ?_⟩
      rintro _ v ⟨hv, hents'⟩
      refine ⟨hv, .inr ⟨trivial, hdots.1, hdots.2, k, _, List.getElem?_eq_getElem hk, by rwa [hi], namecmp_iff.mp hn, ?_⟩⟩
      rw [hents', hput]
      rfl
    · omega

/-! ## One after the other -/

inductive DirOp
  | find (name : Name)
  | link (name : Name) (inum : Nat)
  | unlink (name : Name)

inductive Change
  | linked (name : Name) (inum off : Nat)
  | unlinked (name : Name)
  deriving DecidableEq

abbrev DirMap := Name → Option (Nat × Nat)

def Change.apply : Change → DirMap → DirMap
  | .linked name inum off, M => Function.update M name (some (inum, off))
  | .unlinked name, M => Function.update M name none

def replay (M : DirMap) (changes : List Change) : DirMap := changes.foldl (fun M c => c.apply M) M

omit [Super] in
theorem replay_concat (M : DirMap) (changes : List Change) (c : Change) :
    replay M (changes ++ [c]) = c.apply (replay M changes) := by
  simp [replay]

def note (c : Change) : Op (State × List Change) Unit := Op.right (Op.update (· ++ [c]))

def dirStep (dp : Nat) : DirOp → Op (State × List Change) Unit
  | .find name => do
    let r ← Op.left (dirlookup dp name)
    match r with
    | none => pure ()
    | some (ip, _) => Op.left (iput ip)
  | .link name inum => do
    let slot ← Op.gets fun p => emptySlot (p.1.ents dp)
    let r ← Op.left (dirlink dp name inum)
    Op.when (r = 0) (note (.linked (cstring name) inum (DIRENT_SIZE * slot)))
  | .unlink name => do
    let r ← Op.left (unlink_name dp name)
    Op.when (r = 0) (note (.unlinked (cstring name)))

def DirOp.Ok : DirOp → Prop
  | .link _ inum => 0 < inum ∧ inum < 2 ^ 16
  | _ => True

omit [Super] in
instance : (op : DirOp) → Decidable op.Ok
  | .find _ => inferInstanceAs (Decidable True)
  | .link _ inum => inferInstanceAs (Decidable (0 < inum ∧ inum < 2 ^ 16))
  | .unlink _ => inferInstanceAs (Decidable True)

inductive Turned (dp : Nat) (p q : State × List Change) : Prop
  | same (ents : q.1.ents dp = p.1.ents dp) (changes : q.2 = p.2)
  | linked (name : Name) (inum : Nat) (used : inum ≠ 0) (new : lookup name (p.1.ents dp) 0 = none)
      (ents : q.1.ents dp = putAt (p.1.ents dp) (emptySlot (p.1.ents dp)) ⟨inum, cstring name⟩)
      (changes : q.2 = p.2 ++ [.linked (cstring name) inum (DIRENT_SIZE * emptySlot (p.1.ents dp))])
  | unlinked (name : Name) (k : Nat) (e : Dirent) (dot : cstring name ≠ DOT) (dotdot : cstring name ≠ DOTDOT)
      (entry : (p.1.ents dp)[k]? = some e) (used : e.inum ≠ 0) (same : cstring name = cstring e.name)
      (ents : q.1.ents dp = putAt (p.1.ents dp) k ⟨0, []⟩) (changes : q.2 = p.2 ++ [.unlinked (cstring name)])

variable {M : DirMap} {p q : State × List Change} {op : DirOp}

theorem Held.dirStep (h : Held dp p.1) (hop : op.Ok) :
    Ends (dirStep dp op) p (fun _ q => Held dp q.1 ∧ Turned dp p q) Crowded := by
  unfold Files.dirStep
  cases op with
  | find name =>
    dsimp only
    rw [ends_bind, ends_left]
    refine h.dirlookup.mono ?_
    rintro r t ⟨-, hnone, hsome⟩
    cases r with
    | none =>
      rw [hnone rfl]
      exact ⟨h, .same rfl rfl⟩
    | some x =>
      obtain ⟨ht, hents, hspare⟩ := hsome x rfl
      dsimp only
      rw [ends_left]
      refine (ht.iput hspare).mono ?_
      rintro _ u ⟨hu, hents'⟩
      exact ⟨hu, .same (hents'.trans hents) rfl⟩
  | link name inum =>
    simp only [ends_bind, ends_gets, ends_left, ends_when, note, ends_right, ends_update]
    refine (h.dirlink hop.2).mono ?_
    rintro r t ⟨ht, ⟨rfl, -, hents⟩ | ⟨rfl, hc, hents⟩⟩
    · exact ⟨(by simp), fun _ => ⟨ht, .same hents rfl⟩⟩
    · have hnew := not_not.mp (not_or.mp hc).1
      refine ⟨fun _ => ⟨ht, .linked name inum (Nat.pos_iff_ne_zero.mp hop.1) hnew hents rfl⟩, fun hne => absurd rfl hne⟩
  | unlink name =>
    simp only [ends_bind, ends_left, ends_when, note, ends_right, ends_update]
    refine h.unlink_name.mono ?_
    rintro r t ⟨ht, ⟨rfl, hents⟩ | ⟨rfl, hdot, hdotdot, k, e, he, h0, hn, hents⟩⟩
    · exact ⟨(by simp), fun _ => ⟨ht, .same hents rfl⟩⟩
    · exact ⟨fun _ => ⟨ht, .unlinked name k e hdot hdotdot he h0 hn hents rfl⟩, fun hne => absurd rfl hne⟩

structure Known (dp : Nat) (M : DirMap) (p : State × List Change) : Prop where
  held : Held dp p.1
  distinct : Distinct (p.1.ents dp)
  found : ∀ name, lookup name (p.1.ents dp) 0 = replay M p.2 (cstring name)

theorem Known.step (h : Known dp M p) (hq : Held dp q.1) (ht : Turned dp p q) : Known dp M q := by
  cases ht with
  | same hents hc => exact ⟨hq, by rw [hents]; exact h.distinct, by rw [hents, hc]; exact h.found⟩
  | linked name inum h0 hnew hents hc =>
    refine ⟨hq, ?_, fun other => ?_⟩
    · rw [hents]
      exact h.distinct.put (emptySlot_le _) hnew
    · rw [hents, h.distinct.lookup_put (emptySlot_le _) (emptySlot_free _) hnew h0, hc, replay_concat, Change.apply,
        Function.update_apply, h.found]
  | unlinked name k e hdot hdotdot he h0 hn hents hc =>
    refine ⟨hq, ?_, fun other => ?_⟩
    · rw [hents]
      exact h.distinct.clear (List.getElem?_eq_some_iff.mp he).1.le
    · rw [hents, h.distinct.lookup_clear he h0, hc, replay_concat, Change.apply, Function.update_apply, h.found, hn]

/-! ## The first two names -/

def Dotted (l : List Dirent) (d parent : Nat) : Prop :=
  l[0]? = some ⟨d, DOT⟩ ∧ l[1]? = some ⟨parent, DOTDOT⟩ ∧ d ≠ 0 ∧ parent ≠ 0

section dots
omit [Super]

variable {l : List Dirent} {parent : Nat} {e : Dirent}

theorem Dotted.put (h : Dotted l d parent) (hk : k ≤ l.length) (h2 : 2 ≤ k) : Dotted (putAt l k e) d parent := by
  obtain ⟨h0, h1, hne⟩ := h
  refine ⟨?_, ?_, hne⟩
  · rw [getElem?_putAt hk, if_neg (by omega), h0]
  · rw [getElem?_putAt hk, if_neg (by omega), h1]

theorem Dotted.le_emptySlot (h : Dotted l d parent) : 2 ≤ emptySlot l := by
  obtain ⟨h0, h1, hd, hp⟩ := h
  refine le_findIdx fun j hj => ?_
  obtain rfl | rfl : j = 0 ∨ j = 1 := by omega
  · exact ⟨_, h0, by simpa using hd⟩
  · exact ⟨_, h1, by simpa using hp⟩

theorem Dotted.le_of_name (h : Dotted l d parent) (he : l[k]? = some e) (hdot : cstring e.name ≠ DOT)
    (hdotdot : cstring e.name ≠ DOTDOT) : 2 ≤ k := by
  obtain ⟨h0, h1, -⟩ := h
  by_contra hlt
  obtain rfl | rfl : k = 0 ∨ k = 1 := by omega
  · rw [h0] at he
    cases he
    exact hdot cstring_DOT
  · rw [h1] at he
    cases he
    exact hdotdot cstring_DOTDOT

theorem Dotted.rest_free (h : Dotted l d parent) (hl : Distinct l) : ((l.drop 2).all fun e => e.inum = 0) = true ↔
    ∀ name, lookup name l 0 ≠ none → cstring name = DOT ∨ cstring name = DOTDOT := by
  rw [List.all_eq_true]
  constructor
  · intro hall name hn
    obtain ⟨x, hx⟩ := Option.ne_none_iff_exists'.mp hn
    obtain ⟨k, e, he, h0, hc, -⟩ := hl.lookup_eq.mp hx
    by_contra hdots
    rw [hc, not_or] at hdots
    have hk := h.le_of_name he hdots.1 hdots.2
    refine h0 (of_decide_eq_true (hall e (List.mem_of_getElem? (i := k - 2) ?_)))
    rw [List.getElem?_drop, Nat.add_sub_cancel' hk, he]
  · intro hnames e he
    obtain ⟨k, hk⟩ := List.mem_iff_getElem?.mp he
    rw [List.getElem?_drop] at hk
    by_contra h0
    have h0 : e.inum ≠ 0 := by simpa using h0
    have hfound := hl.lookup_eq.mpr ⟨_, _, hk, h0, rfl, rfl⟩
    rcases hnames e.name (by rw [hfound]; simp) with hc | hc
    · have := hl _ _ _ _ hk h.1 h0 h.2.2.1 (hc.trans cstring_DOT.symm)
      omega
    · have := hl _ _ _ _ hk h.2.1 h0 h.2.2.2 (hc.trans cstring_DOTDOT.symm)
      omega

theorem lookup_cstring (name : Name) (l : List Dirent) (off : Nat) : lookup (cstring name) l off = lookup name l off := by
  induction l generalizing off with
  | nil => rfl
  | cons e l ih => rw [lookup, lookup, ih, namecmp, namecmp, cstring_cstring]

end dots

variable {parent : Nat}

theorem IsDir.isdirempty (h : IsDir s dp) :
    isdirempty dp s = .ok (((s.ents dp).drop 2).all fun e => e.inum = 0, s) := by
  have hsz := h.size
  unfold Files.isdirempty
  rw [inode, run_bind (run_gets _), ← node_valid h.valid]
  exact h.isdirempty_loop (j := 2) (by simp only [DIRENT_SIZE] at hsz; omega)

omit [Super] in
theorem Dotted.step (h : Dotted (p.1.ents dp) dp parent) (ht : Turned dp p q) : Dotted (q.1.ents dp) dp parent := by
  cases ht with
  | same hents => rwa [hents]
  | linked name inum _ _ hents =>
    rw [hents]
    exact h.put (emptySlot_le _) h.le_emptySlot
  | unlinked name k e hdot hdotdot he _ hn hents =>
    rw [hn] at hdot hdotdot
    rw [hents]
    exact h.put (List.getElem?_eq_some_iff.mp he).1.le (h.le_of_name he hdot hdotdot)

/-! ## A new directory -/

theorem Put.beside {d off n tot : Nat} {src : Source} {t : State} (hp : Put dp src off n tot s t) (h : Held d s)
    (hne : d ≠ dp) : Held d t ∧ t.ents d = s.ents d := by
  have hnode := hp.nodes d hne
  have hty : (t.node d).type = .dir := by rw [hnode, h.dir.type]
  refine ⟨⟨hp.sane, ⟨by rw [hp.valid, h.dir.valid], hty, by rw [hnode, h.dir.aligned], ?_⟩, by rw [hp.ref]; exact h.ref⟩,
    ents_congr (by rw [hnode]) fun o => hp.others d o hne⟩
  exact hp.sane.full d (by simp) (by rw [hty]; simp)

theorem Held.dirlink_beside {d : Nat} (h : Held d s) (hdp : Held dp s) (hne : d ≠ dp) :
    Ends (Files.dirlink dp name inum) s (fun _ t => Held d t ∧ t.ents d = s.ents d) Crowded := by
  unfold Files.dirlink
  rw [ends_bind]
  refine hdp.dir.dirlookup (fun _ => ?_) fun x _ => h.iget.mono ?_
  · have hsz := hdp.dir.size
    have hloop := hdp.dir.dirlink_loop (j := 0) (k := (s.node dp).size) (by simp only [DIRENT_SIZE] at hsz; omega)
    rw [Nat.mul_zero] at hloop
    simp only [ends_bind, inode, ends_gets]
    rw [← node_valid hdp.dir.valid, ends_of_run hloop]
    refine (writei_ends hdp.sane hdp.dir.valid).mono ?_
    rintro r t (⟨-, rfl, -⟩ | ⟨tot, -, hp⟩)
    · exact ends_ite.mpr ⟨fun _ => ⟨h, rfl⟩, fun _ => ⟨h, rfl⟩⟩
    · exact ends_ite.mpr ⟨fun _ => hp.beside h hne, fun _ => hp.beside h hne⟩
  · rintro _ t ⟨ht, hents, hspare⟩
    dsimp only
    rw [ends_bind]
    refine (ht.iput hspare).mono ?_
    rintro _ u ⟨hu, hents'⟩
    exact ⟨hu, hents'.trans hents⟩

/-- A directory that `create` has linked has its two names. -/
theorem Held.create_link {ip : Nat} (h : Held ip s) (hdp : Held dp s) (hne : ip ≠ dp) (hnew : s.ents ip = [])
    (hip : 0 < ip ∧ ip < 2 ^ 16) (hd : 0 < dp ∧ dp < 2 ^ 16) :
    Ends (Files.create_link dp name ip .dir) s (fun ok t => ok = true → Dotted (t.ents ip) ip dp) Crowded := by
  have hslot : emptySlot [⟨ip, DOT⟩] = 1 := by simp [emptySlot, List.findIdx_cons, Nat.pos_iff_ne_zero.mp hip.1]
  rw [Files.create_link, if_pos rfl, ends_bind]
  refine ((h.dirlink hip.2).and (hdp.dirlink_beside h hne.symm)).mono ?_
  rintro r t ⟨⟨ht, ⟨rfl, -⟩ | ⟨rfl, -, hdot⟩⟩, hdpt, -⟩
  · exact by simp
  rw [hnew, cstring_DOT] at hdot
  rw [if_neg (by decide), ends_bind]
  refine ((ht.dirlink hd.2).and (hdpt.dirlink_beside ht hne.symm)).mono ?_
  rintro r u ⟨⟨hu, ⟨rfl, -⟩ | ⟨rfl, -, hdots⟩⟩, hdpu, -⟩
  · exact by simp
  rw [hdot, cstring_DOTDOT] at hdots
  rw [if_neg (by decide), ends_bind]
  refine (hu.dirlink_beside hdpu hne).mono ?_
  rintro r v ⟨-, hsame⟩ _
  rw [hsame, hdots]
  simp [Dotted, putAt, hslot, Nat.pos_iff_ne_zero.mp hip.1, Nat.pos_iff_ne_zero.mp hd.1]

/-! ## Every sequence -/

def State.names (s : State) (d : Nat) : DirMap := fun name => lookup name (s.ents d) 0

omit [Super] in
theorem Known.start [Super] (h : Held dp s) (hd : Distinct (s.ents dp)) : Known dp (s.names dp) (s, []) :=
  ⟨h, hd, fun name => (lookup_cstring name _ 0).symm⟩

/-- Whatever is done to it, a directory is the map that its names make, one entry for each. -/
theorem directory_is_map {s₀ : State} (h₀ : Held dp s₀) (hd : Distinct (s₀.ents dp))
    (hrun : Path (dirStep dp) (fun op _ => op.Ok) (s₀, []) p) :
    Distinct (p.1.ents dp) ∧
    (∀ name, Ends (dirlookup dp name) p.1 (fun r _ => r = replay (s₀.names dp) p.2 (cstring name)) Crowded) ∧
    (∀ name inum, 0 < inum → inum < 2 ^ 16 → Ends (dirlink dp name inum) p.1 (fun r t => (r = 0 ∨ r = -1) ∧
      (r = -1 ↔ replay (s₀.names dp) p.2 (cstring name) ≠ none ∨ Packed p.1 dp ∧ CannotGrow p.1 dp) ∧
      (r = -1 → t.names dp = p.1.names dp)) Crowded) ∧
    (∀ op, op.Ok → ∀ msg, dirStep dp op p = .error msg → Crowded msg) ∧
    ∀ parent, Dotted (s₀.ents dp) dp parent → Dotted (p.1.ents dp) dp parent ∧
      ∃ b, isdirempty dp p.1 = .ok (b, p.1) ∧ (b = true ↔ ∀ name, replay (s₀.names dp) p.2 (cstring name) ≠ none →
        cstring name = DOT ∨ cstring name = DOTDOT) := by
  have hinv : Known dp (s₀.names dp) p ∧ ∀ parent, Dotted (s₀.ents dp) dp parent → Dotted (p.1.ents dp) dp parent := by
    refine hrun.invariant (I := fun p => Known dp (s₀.names dp) p ∧ ∀ parent, Dotted (s₀.ents dp) dp parent →
      Dotted (p.1.ents dp) dp parent) ⟨.start h₀ hd, fun _ h => h⟩ ?_
    rintro op p q ⟨hk, hdots⟩ hop hstep
    obtain ⟨hq, ht⟩ := (hk.held.dirStep hop).of_ok hstep
    exact ⟨hk.step hq ht, fun parent hp => (hdots parent hp).step ht⟩
  obtain ⟨hk, hdots⟩ := hinv
  refine ⟨hk.distinct, ?_, ?_, fun op hop msg herr => (hk.held.dirStep hop).of_error herr, ?_⟩
  · intro name
    refine hk.held.dirlookup.mono ?_
    rintro r t ⟨hr, -⟩
    rw [hr, hk.found]
  · intro name inum _ hinum
    refine (hk.held.dirlink hinum).mono ?_
    rw [hk.found]
    rintro r t ⟨-, ⟨rfl, hc, hents⟩ | ⟨rfl, hc, -⟩⟩
    · refine ⟨.inr rfl, iff_of_true rfl hc, fun _ => ?_⟩
      unfold State.names
      rw [hents]
    · exact ⟨.inl rfl, iff_of_false (by decide) hc, (by simp)⟩
  · intro parent hp
    refine ⟨hdots parent hp, _, hk.held.dir.isdirempty, ?_⟩
    rw [(hdots parent hp).rest_free hk.distinct]
    simp only [hk.found]

section root
omit [Super]

def rootDir : List InodeOp := [.ialloc .dir, .writei 1 (.kernel (Dirent.encode ⟨1, DOT⟩)) 0 DIRENT_SIZE,
  .writei 1 (.kernel (Dirent.encode ⟨1, DOTDOT⟩)) DIRENT_SIZE DIRENT_SIZE]

theorem distinct_root : Distinct [⟨1, DOT⟩, ⟨1, DOTDOT⟩] := by
  intro j k e e' he he' _ _ hn
  have hj := (List.getElem?_eq_some_iff.mp he).1
  have hk := (List.getElem?_eq_some_iff.mp he').1
  rw [List.length_cons, List.length_singleton] at hj hk
  obtain rfl | rfl : j = 0 ∨ j = 1 := by omega
  all_goals obtain rfl | rfl : k = 0 ∨ k = 1 := by omega
  all_goals cases he; cases he'; first | rfl | exact absurd hn (by decide)

theorem directory_is_map_root : ∃ s q, @Held smallDisk 1 s ∧ s.ents 1 = [⟨1, DOT⟩, ⟨1, DOTDOT⟩] ∧
    Path (@dirStep smallDisk 1) (fun op _ => op.Ok) (s, []) q ∧ q.2 = [.linked [0x61] 5 32] ∧
    Ends (@dirlookup smallDisk 1 [0x61]) q.1 (fun r _ => r = some (5, 32)) Crowded := by
  obtain ⟨s, hsane, hs⟩ := exists_sane rootDir (fun s => decide (((s.itable 1).valid = true ∧ 0 < (s.itable 1).ref ∧
    (s.node 1).type = .dir ∧ (s.node 1).size % DIRENT_SIZE = 0 ∧ s.ents 1 = [⟨1, DOT⟩, ⟨1, DOTDOT⟩]) ∧
    (Path.follow (@dirStep smallDisk 1) (fun op _ => op.Ok) [.link [0x61] 5] (s, [])).toOption.map
      (fun r => decide (r.2.2 = [.linked [0x61] 5 32])) = some true)) (by decide +kernel)
  obtain ⟨⟨hv, href, hty, hal, hents⟩, hlink⟩ := of_decide_eq_true hs
  obtain ⟨q, hrun, hq⟩ := Path.exists_of_follow (@dirStep smallDisk 1) (C := fun op _ => op.Ok) [.link [0x61] 5] (s, [])
    (fun q => decide (q.2 = [.linked [0x61] 5 32])) hlink
  have hq := of_decide_eq_true hq
  have hheld : @Held smallDisk 1 s :=
    @Held.mk smallDisk 1 s hsane ⟨hv, hty, hal, @Sane.full smallDisk _ _ hsane 1 (by simp) (by rw [hty]; simp)⟩ href
  refine ⟨s, q, hheld, hents, hrun, hq, ?_⟩
  have hfind := (@directory_is_map 1 smallDisk q s hheld (by rw [hents]; exact distinct_root) hrun).2.1 [0x61]
  rw [hq] at hfind
  exact hfind

end root

end Xv6.Files
