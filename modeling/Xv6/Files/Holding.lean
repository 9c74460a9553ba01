import Xv6.Files.Contents
import Xv6.Files.Sysfile
import Xv6.Lib.Path

/-!
# The blocks in every run

The running code holds references to the inodes of `K`, and those of `L` are locked.
-/

open Xv6.Lib Op

namespace Xv6.Files

open State

variable [Super] {s t u : State} {ip dp i j off n inum : Nat} {K L : List Nat} {name : Name}

def Allowed (msg : String) : Prop := msg ≠ "freeing free block" ∧ msg ≠ "bmap: out of range"

structure Holds (K L : List Nat) (s : State) : Prop where
  sane : Sane none s
  refs : ∀ i, K.count i ≤ (s.itable i).ref
  valid : ∀ i ∈ L, i ∈ K ∧ (s.itable i).valid = true

/-! ## The inode table -/

namespace Holds

theorem pos (h : Holds K L s) (hi : i ∈ K) : 0 < (s.itable i).ref :=
  (List.count_pos_iff.mpr hi).trans_le (h.refs i)

theorem setInode {f : Inode → Inode} {K' L' : List Nat} (h : Holds K L s)
    (hv : (f (s.itable i)).valid = true → (f (s.itable i)).copy = s.dinode i ∧ (s.dinode i).type ≠ .free)
    (hself : K'.count i ≤ (f (s.itable i)).ref) (hother : ∀ j, j ≠ i → K'.count j ≤ K.count j)
    (hL : ∀ j ∈ L', j ∈ K' ∧ ((j = i → (f (s.itable i)).valid = true) ∧ (j ≠ i → j ∈ L))) :
    Holds K' L' (s.setInode i f) := by
  refine ⟨(h.sane.of_disk (t := s.setInode i f) rfl rfl rfl ?_).1, ?_, ?_⟩
  · intro j hvj
    by_cases hj : j = i
    · subst hj
      rw [setInode_self] at hvj ⊢
      exact hv hvj
    · rw [setInode_of_ne _ hj] at hvj ⊢
      exact h.sane.valid_disk hvj
  · intro j
    by_cases hj : j = i
    · subst hj
      rw [setInode_self]
      exact hself
    · rw [setInode_of_ne _ hj]
      exact (hother j hj).trans (h.refs j)
  · intro j hjL
    obtain ⟨hjK, h1, h2⟩ := hL j hjL
    refine ⟨hjK, ?_⟩
    by_cases hj : j = i
    · rw [hj, setInode_self]
      exact h1 hj
    · rw [setInode_of_ne _ hj]
      exact (h.valid j (h2 hj)).2

theorem addRef (h : Holds K L s) : Holds (i :: K) L (s.setInode i fun e => { e with ref := e.ref + 1 }) := by
  refine h.setInode ?_ ?_ ?_ ?_
  · exact h.sane.valid_disk
  · rw [List.count_cons_self]
    exact Nat.succ_le_succ (h.refs i)
  · intro j hj
    rw [List.count_cons_of_ne (Ne.symm hj)]
  · intro j hjL
    obtain ⟨hjK, hv⟩ := h.valid j hjL
    exact ⟨List.mem_cons_of_mem _ hjK, fun hj => hj ▸ hv, fun _ => hjL⟩

theorem iget (h : Holds K L s) : Ends (iget i) s (fun _ t => Holds (i :: K) L t) Allowed := by
  unfold Files.iget
  simp only [ends_bind, ends_gets, ends_ite, ends_update, id, panic, ends_stop]
  refine ⟨fun _ => h.addRef, fun h0 => ⟨fun _ => ⟨by decide, by decide⟩, fun _ => ?_⟩⟩
  have hK : i ∉ K := fun hi => h0 (h.pos hi)
  refine h.setInode (by simp) ?_ ?_ ?_
  · rw [List.count_cons_self, List.count_eq_zero.mpr hK]
  · intro j hj
    rw [List.count_cons_of_ne (Ne.symm hj)]
  · intro j hjL
    obtain ⟨hjK, -⟩ := h.valid j hjL
    exact ⟨List.mem_cons_of_mem _ hjK, fun hj => absurd (hj ▸ hjK) hK, fun _ => hjL⟩

theorem ilock (h : Holds K L s) (hi : i ∈ K) :
    Ends (ilock i) s (fun _ t => Holds K (i :: L) t) Allowed := by
  have hlt := h.pos hi
  unfold Files.ilock
  simp only [ends_bind, ends_gets, ends_ite, ends_update, ends_pure, panic, ends_stop, inode]
  refine ⟨fun h0 => absurd hlt (by omega), fun _ => ⟨fun hv => ?_, fun hv => ?_⟩⟩
  · refine ⟨h.sane, h.refs, fun j hj => ?_⟩
    rcases List.mem_cons.mp hj with rfl | hj
    · exact ⟨hi, hv⟩
    · exact h.valid j hj
  · refine ⟨fun _ => ⟨by decide, by decide⟩, fun hty => ?_⟩
    rw [setInode_self] at hty
    refine h.setInode (fun _ => ⟨rfl, hty⟩) (h.refs i) (fun j _ => Nat.le_refl _) fun j hj => ?_
    rcases List.mem_cons.mp hj with rfl | hj
    · exact ⟨hi, fun _ => rfl, fun hne => absurd rfl hne⟩
    · exact ⟨(h.valid j hj).1, fun _ => rfl, fun _ => hj⟩

theorem iunlock (h : Holds K L s) : Ends (iunlock i) s (fun _ t => Holds K L t) Allowed := by
  unfold Files.iunlock
  simp only [ends_bind, ends_gets, ends_ite, ends_pure, panic, ends_stop]
  exact ⟨fun _ => ⟨by decide, by decide⟩, fun _ => h⟩

theorem iput {L' : List Nat} (h : Holds (i :: K) L s) (hL : ∀ j ∈ L', j ∈ L ∧ j ∈ K) :
    Ends (iput i) s (fun _ t => Holds K L' t) Allowed := by
  have hcount := h.refs i
  rw [List.count_cons_self] at hcount
  refine (iput_ends h.sane).mono ?_
  rintro _ t (⟨-, rfl⟩ | ⟨hlast, hf⟩)
  · refine h.setInode h.sane.valid_disk (by dsimp only; omega) ?_ ?_
    · intro j hj
      rw [List.count_cons_of_ne (Ne.symm hj)]
    · intro j hj
      obtain ⟨hjL, hjK⟩ := hL j hj
      exact ⟨hjK, fun he => he ▸ (h.valid j hjL).2, fun _ => hjL⟩
  · have h1 : (s.itable i).ref = 1 := hlast.1
    have hK : i ∉ K := fun hi => by
      have := List.count_pos_iff.mpr hi
      omega
    refine ⟨hf.sane, fun j => ?_, fun j hj => ?_⟩
    · by_cases hj : j = i
      · rw [hj, List.count_eq_zero.mpr hK]
        exact Nat.zero_le _
      · rw [hf.itable j hj]
        exact List.count_le_count_cons.trans (h.refs j)
    · obtain ⟨hjL, hjK⟩ := hL j hj
      have hne : j ≠ i := fun he => hK (he ▸ hjK)
      rw [hf.itable j hne]
      exact ⟨hjK, (h.valid j hjL).2⟩

theorem iunlockput {L' : List Nat} (h : Holds (i :: K) L s) (hL : ∀ j ∈ L', j ∈ L ∧ j ∈ K) :
    Ends (iunlockput i) s (fun _ t => Holds K L' t) Allowed := by
  unfold Files.iunlockput
  rw [ends_bind]
  exact h.iunlock.mono fun _ _ h => h.iput hL

theorem edit {f : Dinode → Dinode} (h : Holds K L s) (hi : i ∈ L)
    (hty : ∀ n, (f n).type = n.type) (haddrs : ∀ n, (f n).addrs = n.addrs) (hsize : ∀ n, (f n).size = n.size) :
    Holds K L (s.edit i f) := by
  obtain ⟨hiK, hv⟩ := h.valid i hi
  have hf := h.sane.full i (by simp) (h.sane.node_type hv)
  refine ⟨((h.sane.weaken _).edit hv (hty _) (haddrs _) ?_ ?_).1, fun j => ?_, fun j hj => ?_⟩
  · rw [hsize]
    exact hf.size
  · rw [hsize]
    exact hf.blocks
  · rw [edit_ref]
    exact h.refs j
  · rw [edit_valid]
    exact h.valid j hj

theorem perm {K' : List Nat} (h : Holds K L s) (hK : K.Perm K') : Holds K' L s :=
  ⟨h.sane, fun i => by rw [← hK.count_eq]; exact h.refs i, fun i hi =>
    ⟨hK.mem_iff.mp (h.valid i hi).1, (h.valid i hi).2⟩⟩

theorem swap (h : Holds (i :: j :: K) L s) : Holds (j :: i :: K) L s := h.perm (List.Perm.swap ..)

end Holds

theorem Sane.alloc (h : Sane none s) (type : FileType) (hfree : (s.dinode i).type = .free)
    (hi : 1 ≤ i ∧ i < ninodes) : Sane none (s.setDinode i { type := type }) := by
  have hv : (s.itable i).valid = false := by
    by_contra hv
    exact (h.valid_disk (by simpa using hv)).2 hfree
  have hself : (s.setDinode i { type := type }).node i = { type := type } := by
    rw [node_invalid (by exact hv)]
    exact Function.update_self ..
  have hother : ∀ j, j ≠ i → (s.setDinode i { type := type }).node j = s.node j := by
    intro j hj
    rw [State.node, State.node]
    have : (s.setDinode i { type := type }).dinode j = s.dinode j := Function.update_of_ne hj ..
    rw [this]
    rfl
  have howner : (s.setDinode i { type := type }).owner = s.owner := by
    funext x
    obtain ⟨j, sl⟩ := x
    by_cases hj : j = i
    · subst hj
      have hs : s.owner (j, sl) = none := by
        rw [State.owner, node_invalid hv]
        cases sl <;> simp [Dinode.slot, hfree]
      rw [hs, State.owner, hself]
      cases sl <;> simp [Dinode.slot, nonzero]
    · exact owner_congr (hother j hj) (fun _ _ => rfl) sl
  refine ⟨h.typed, ?_, ?_, ?_, ?_⟩
  · intro j _ hvj
    have hj : j ≠ i := by
      rintro rfl
      rw [show (s.itable j).valid = true from hvj] at hv
      cases hv
    exact (h.synced j (by simp) hvj).trans (Function.update_of_ne hj ..).symm
  · intro j hty
    by_cases hj : j = i
    · exact hj ▸ hi
    · rw [hother j hj] at hty
      exact h.range j hty
  · rw [howner]
    exact h.owned
  · intro j _ hty
    by_cases hj : j = i
    · subst hj
      refine ⟨by rw [hself]; exact Nat.zero_le _, fun bn hbn => ?_⟩
      rw [hself] at hbn
      exact absurd hbn (Nat.not_lt_zero _)
    · rw [hother j hj] at hty
      obtain ⟨hsz, hb⟩ := h.full j (by simp) hty
      exact ⟨by rw [hother j hj]; exact hsz, by rw [hother j hj, howner]; exact hb⟩

namespace Holds

theorem ialloc (h : Holds K L s) (type : FileType) : Ends (ialloc type) s
    (fun r t => r.elim (Holds K L t) fun ip => Holds (ip :: K) L t) Allowed := by
  unfold Files.ialloc
  simp only [ends_bind, ends_gets]
  cases hf : (List.range ninodes).find? fun i => decide (1 ≤ i ∧ (s.dinode i).type = .free) with
  | none => exact h
  | some i =>
    have hlt : i < ninodes := List.mem_range.mp (List.mem_of_find?_eq_some hf)
    have hi := List.find?_some hf
    simp only [decide_eq_true_eq] at hi
    simp only [ends_bind, ends_update]
    have h' : Holds K L (s.setDinode i { type := type }) :=
      ⟨h.sane.alloc type hi.2 ⟨hi.1, hlt⟩, h.refs, h.valid⟩
    exact h'.iget.mono fun _ _ h => h

theorem full (h : Holds K L s) (hi : i ∈ L) : Full s i :=
  h.sane.full i (by simp) (h.sane.node_type (h.valid i hi).2)

theorem readi (h : Holds K L s) (hi : i ∈ L) : readi i off n s = .ok (readResult s i off n, s) :=
  readi_run (h.valid i hi).2 (h.full hi)

theorem writei {src : Source} (h : Holds K L s) (hi : i ∈ L) :
    Ends (writei i src off n) s (fun _ t => Holds K L t) Allowed := by
  refine (writei_ends h.sane (h.valid i hi).2).mono ?_
  rintro r t (⟨-, rfl, -⟩ | ⟨tot, -, hp⟩)
  · exact h
  · refine ⟨hp.sane, fun j => ?_, fun j hj => ?_⟩
    · rw [hp.ref]
      exact h.refs j
    · rw [hp.valid]
      exact h.valid j hj

/-! ## Directories -/

theorem read_dirent {msg : String} (h : Holds K L s) (hi : i ∈ L) (hmsg : Allowed msg) :
    Ends (read_dirent msg i off) s (fun _ t => t = s) Allowed := by
  unfold Files.read_dirent
  rw [ends_bind, ends_of_run (h.readi hi)]
  simp only [ends_ite, panic, ends_stop, ends_pure]
  exact ⟨fun _ => hmsg, fun _ => trivial⟩

theorem dirlookup_loop (h : Holds K L s) (hi : dp ∈ L) (k : Nat) : Ends (dirlookup_loop dp name k off) s
    (fun r t => r.elim (Holds K L t) fun r => Holds (r.1 :: K) L t) Allowed := by
  induction k generalizing off with
  | zero => exact h
  | succ k ih =>
    unfold Files.dirlookup_loop
    simp only [ends_bind, inode, ends_gets, ends_ite, ends_pure]
    refine ⟨fun _ => ?_, fun _ => h⟩
    refine (h.read_dirent hi ⟨by decide, by decide⟩).mono ?_
    rintro de t rfl
    exact ⟨fun _ => h.iget.mono fun _ _ h => h, fun _ => ih⟩

theorem dirlookup (h : Holds K L s) (hi : dp ∈ L) : Ends (dirlookup dp name) s
    (fun r t => r.elim (Holds K L t) fun r => Holds (r.1 :: K) L t) Allowed := by
  unfold Files.dirlookup
  simp only [ends_bind, inode, ends_gets, ends_ite, panic, ends_stop]
  exact ⟨fun _ => ⟨by decide, by decide⟩, fun _ => h.dirlookup_loop hi _⟩

theorem dirlink_loop (h : Holds K L s) (hi : dp ∈ L) (k : Nat) :
    Ends (dirlink_loop dp k off) s (fun _ t => t = s) Allowed := by
  induction k generalizing off with
  | zero => rfl
  | succ k ih =>
    unfold Files.dirlink_loop
    simp only [ends_bind, inode, ends_gets, ends_ite, ends_pure]
    refine ⟨fun _ => ?_, fun _ => trivial⟩
    refine (h.read_dirent hi ⟨by decide, by decide⟩).mono ?_
    rintro de t rfl
    exact ⟨fun _ => rfl, fun _ => ih⟩

theorem dirlink (h : Holds K L s) (hi : dp ∈ L) :
    Ends (dirlink dp name inum) s (fun _ t => Holds K L t) Allowed := by
  unfold Files.dirlink
  rw [ends_bind]
  refine (h.dirlookup hi).mono ?_
  rintro (_ | ⟨ip, off⟩) t ht
  · simp only [ends_bind, inode, ends_gets]
    refine (ht.dirlink_loop hi _).mono ?_
    rintro off u rfl
    exact (ht.writei hi).mono fun r u hu => by
      simp only [ends_ite, ends_pure]
      exact ⟨fun _ => hu, fun _ => hu⟩
  · rw [ends_bind]
    exact Ends.mono (ht.iput fun j hj => ⟨hj, (h.valid j hj).1⟩) fun _ _ h => h

/-! ## Paths -/

theorem forget (h : Holds (i :: K) L s) (hL : ∀ j ∈ L, j ∈ K) : Holds K L s :=
  ⟨h.sane, fun j => List.count_le_count_cons.trans (h.refs j), fun j hj => ⟨hL j hj, (h.valid j hj).2⟩⟩

theorem namex_loop {parent : Bool} (hL : ∀ j ∈ L, j ∈ K) (k : Nat) {path : List Byte} {ip : Nat}
    (h : Holds (ip :: K) L s) : Ends (namex_loop parent k path ip) s
      (fun r t => r.elim (Holds K L t) fun r => Holds (r.1 :: K) L t) Allowed := by
  induction k generalizing s path ip with
  | zero => exact h.forget hL
  | succ k ih =>
    unfold Files.namex_loop
    have hout : ∀ {K' : List Nat}, (∀ j ∈ K, j ∈ K') → ∀ j ∈ L, j ∈ ip :: L ∧ j ∈ K' :=
      fun hK j hj => ⟨List.mem_cons_of_mem _ hj, hK j (hL j hj)⟩
    cases skipelem path with
    | none =>
      simp only [ends_ite, ends_bind, ends_pure]
      exact ⟨fun _ => Ends.mono (h.iput fun j hj => ⟨hj, hL j hj⟩) fun _ _ h => h, fun _ => h⟩
    | some r =>
      obtain ⟨name, rest⟩ := r
      simp only [ends_bind, inode, ends_gets, ends_ite, ends_pure]
      refine (h.ilock List.mem_cons_self).mono fun _ t ht => ⟨fun _ => ?_, fun _ => ⟨fun _ => ?_, fun _ => ?_⟩⟩
      · exact Ends.mono (ht.iunlockput (hout fun _ h => h)) fun _ _ h => h
      · refine ht.iunlock.mono fun _ u hu => ?_
        exact ⟨hu.sane, hu.refs, fun j hj => hu.valid j (List.mem_cons_of_mem _ hj)⟩
      · refine (ht.dirlookup List.mem_cons_self).mono ?_
        rintro (_ | ⟨next, off⟩) u hu
        · rw [ends_bind]
          exact Ends.mono (Holds.iunlockput hu (hout fun _ h => h)) fun _ _ h => h
        · rw [ends_bind]
          refine Ends.mono (Holds.iunlockput (Holds.swap hu) (hout fun _ h => List.mem_cons_of_mem _ h)) ?_
          intro _ v hv
          exact ih hv

theorem namex {parent : Bool} {c : Nat} {path : List Byte} (h : Holds K L s) :
    Ends (namex c path parent) s
      (fun r t => r.elim (Holds K L t) fun r => Holds (r.1 :: K) L t) Allowed := by
  have hL := fun j hj => (h.valid j hj).1
  unfold Files.namex
  simp only [ends_ite, ends_bind, idup, ends_update]
  exact ⟨fun _ => h.iget.mono fun _ t ht => ht.namex_loop hL _, fun _ => h.addRef.namex_loop hL _⟩

/-! ## Creation -/

theorem addLinks {d : Int} (h : Holds K L s) (hi : ip ∈ L) :
    Ends (addLinks ip d) s (fun _ t => Holds K L t) Allowed := by
  unfold Files.addLinks
  rw [ends_bind, ends_edit]
  exact h.edit hi (fun _ => rfl) (fun _ => rfl) fun _ => rfl

theorem create_link {type : FileType} (h : Holds K L s) (hip : ip ∈ L) (hdp : dp ∈ L) :
    Ends (create_link dp name ip type) s (fun _ t => Holds K L t) Allowed := by
  unfold Files.create_link
  simp only [ends_ite, ends_bind, ends_pure]
  refine ⟨fun _ => ?_, fun _ => h.dirlink hdp⟩
  refine (h.dirlink hip).mono fun _ t ht => ⟨fun _ => ht, fun _ => ?_⟩
  exact (ht.dirlink hip).mono fun _ u hu => ⟨fun _ => hu, fun _ => hu.dirlink hdp⟩

theorem create_new {type : FileType} {major minor : Int} (hL : ∀ j ∈ L, j ∈ K)
    (h : Holds (dp :: K) (dp :: L) s) : Ends (create_new dp name type major minor) s
      (fun r t => r.elim (Holds K L t) fun ip => Holds (ip :: K) (ip :: L) t) Allowed := by
  unfold Files.create_new
  rw [ends_bind]
  refine (h.ialloc type).mono ?_
  rintro (_ | ip) t ht
  · rw [ends_bind]
    exact Ends.mono (Holds.iunlockput ht fun j hj => ⟨List.mem_cons_of_mem _ hj, hL j hj⟩) fun _ _ h => h
  · simp only [ends_bind]
    refine Ends.mono (Holds.ilock ht List.mem_cons_self) fun _ u hu => ?_
    rw [ends_edit]
    refine Ends.mono (Holds.create_link (hu.edit List.mem_cons_self ?_ ?_ ?_) List.mem_cons_self
      (List.mem_cons_of_mem _ List.mem_cons_self)) ?_
    · exact fun _ => rfl
    · exact fun _ => rfl
    · exact fun _ => rfl
    intro ok v hv
    simp only [ends_ite, ends_bind, ends_when, ends_pure]
    have hdone : ∀ w, Holds (ip :: dp :: K) (ip :: dp :: L) w → Ends (Files.iunlockput dp) w
        (fun _ t => Holds (ip :: K) (ip :: L) t) Allowed := by
      intro w hw
      refine hw.swap.iunlockput fun j hj => ?_
      rcases List.mem_cons.mp hj with rfl | hj
      · exact ⟨List.mem_cons_self, List.mem_cons_self⟩
      · exact ⟨List.mem_cons_of_mem _ (List.mem_cons_of_mem _ hj), List.mem_cons_of_mem _ (hL j hj)⟩
    refine ⟨fun _ => ⟨fun _ => ?_, fun _ => hdone v hv⟩, fun _ => ?_⟩
    · exact (hv.addLinks (List.mem_cons_of_mem _ List.mem_cons_self)).mono fun _ w hw => hdone w hw
    · rw [ends_edit]
      have hw := hv.edit (f := fun n => { n with nlink := 0 }) List.mem_cons_self (fun _ => rfl) (fun _ => rfl)
        fun _ => rfl
      have hkept : ∀ j ∈ dp :: L, j ∈ ip :: dp :: L ∧ j ∈ dp :: K := by
        intro j hj
        refine ⟨List.mem_cons_of_mem _ hj, ?_⟩
        rcases List.mem_cons.mp hj with rfl | hj
        · exact List.mem_cons_self
        · exact List.mem_cons_of_mem _ (hL j hj)
      refine Ends.mono (hw.iunlockput hkept) fun _ w hw => ?_
      exact Ends.mono (hw.iunlockput fun j hj => ⟨List.mem_cons_of_mem _ hj, hL j hj⟩) fun _ _ h => h

theorem create {c : Nat} {path : List Byte} {type : FileType} {major minor : Int} (h : Holds K L s) :
    Ends (create c path type major minor) s
      (fun r t => r.elim (Holds K L t) fun ip => Holds (ip :: K) (ip :: L) t) Allowed := by
  have hL := fun j hj => (h.valid j hj).1
  unfold Files.create nameiparent
  rw [ends_bind]
  refine h.namex.mono ?_
  rintro (_ | ⟨dp, name⟩) t ht
  · exact ht
  · simp only [ends_bind]
    refine Ends.mono (Holds.ilock ht List.mem_cons_self) fun _ u hu => ?_
    refine (hu.dirlookup List.mem_cons_self).mono ?_
    rintro (_ | ⟨ip, off⟩) v hv
    · exact Holds.create_new hL hv
    · simp only [ends_bind, inode, ends_gets, ends_ite, ends_pure]
      refine Ends.mono (Holds.iunlockput (Holds.swap hv) fun j hj =>
        ⟨List.mem_cons_of_mem _ hj, List.mem_cons_of_mem _ (hL j hj)⟩) fun _ w hw => ?_
      refine (hw.ilock List.mem_cons_self).mono fun _ w hw => ⟨fun _ => hw, fun _ => ?_⟩
      exact Ends.mono (hw.iunlockput fun j hj => ⟨List.mem_cons_of_mem _ hj, hL j hj⟩) fun _ _ h => h

end Holds

/-! ## Runs -/

def State.place (s : State) (r : Nat × Slot) : Option Nat := (s.dinode r.1).slot s.data r.2

/-- Every file has all its blocks, no block number stands in two places, and the bitmap marks the blocks that stand in some
place and those before them. -/
structure Consistent (s : State) : Prop where
  inodes : ∀ i, (s.dinode i).type ≠ .free → 1 ≤ i ∧ i < ninodes
  whole : ∀ i, (s.dinode i).type ≠ .free → ∀ bn, bn * BSIZE < (s.dinode i).size → s.place (i, slotOf bn) ≠ none
  once : ∀ r r' b, s.place r = some b → s.place r' = some b → r = r'
  data : ∀ r b, s.place r = some b → nmeta ≤ b ∧ b < size
  bits : ∀ b < size, s.used b = true ↔ b < nmeta ∨ ∃ r, s.place r = some b

theorem Sane.consistent (h : Sane none s) : Consistent s := by
  have hplace : s.place = s.owner := by
    funext r
    rw [State.place, State.owner, h.node_eq]
  refine ⟨fun i => ?_, fun i hty => ?_, ?_, ?_, ?_⟩
  · rw [← h.node_eq]
    exact h.range i
  · rw [← h.node_eq] at hty ⊢
    rw [hplace]
    exact (h.full i (by simp) hty).blocks
  · rw [hplace]
    exact h.owned.inj
  · intro r b hr
    rw [hplace] at hr
    obtain ⟨h1, h2⟩ := h.owned.range r b hr
    exact ⟨by omega, h1⟩
  · rw [hplace]
    exact h.owned.bits

theorem Consistent.size_le (h : Consistent s) (hty : (s.dinode i).type ≠ .free) :
    (s.dinode i).size ≤ MAXFILE * BSIZE := by
  by_contra hlt
  refine h.whole i hty MAXFILE (by omega) ?_
  simp [State.place, slotOf, Dinode.slot]

theorem Consistent.sane (h : Consistent s) (hempty : ∀ i, (s.itable i).valid = false) : Sane none s := by
  have hnode : ∀ i, s.node i = s.dinode i := fun i => node_invalid (hempty i)
  have howner : s.owner = s.place := by
    funext r
    rw [State.place, State.owner, hnode]
  refine ⟨fun i hv => ?_, fun i _ hv => ?_, fun i => ?_, ⟨?_, ?_, ?_⟩, fun i _ hty => ?_⟩
  · rw [hempty i] at hv
    cases hv
  · rw [hempty i] at hv
    cases hv
  · rw [hnode]
    exact h.inodes i
  · rw [howner]
    exact h.once
  · intro r b hr
    rw [howner] at hr
    have := h.data r b hr
    exact ⟨this.2, by omega⟩
  · rw [howner]
    exact h.bits
  · rw [hnode] at hty
    refine ⟨by rw [hnode]; exact h.size_le hty, fun bn hbn => ?_⟩
    rw [hnode] at hbn
    rw [howner]
    exact h.whole i hty bn hbn

inductive InodeOp where
  | iget (inum : Nat)
  | ialloc (type : FileType)
  | iput (ip : Nat)
  | writei (ip : Nat) (src : Source) (off n : Nat)
  | itrunc (ip : Nat)
  | addLinks (ip : Nat) (d : Int)
  | create (c : Nat) (path : List Byte) (type : FileType) (major minor : Int)

def require (ip : Nat) : F Unit := do
  let e ← Op.gets fun s => s.itable ip
  if 0 < e.ref then pure () else Op.stop "no reference"

def inodeStep : InodeOp → F Unit
  | .iget inum => iget inum
  | .ialloc type => do let _ ← ialloc type
  | .iput ip => do
    require ip
    iput ip
  | .writei ip src off n => do
    require ip
    ilock ip
    let _ ← writei ip src off n
    iunlock ip
  | .itrunc ip => do
    require ip
    ilock ip
    itrunc ip
    iunlock ip
  | .addLinks ip d => do
    require ip
    ilock ip
    addLinks ip d
    iunlock ip
  | .create c path type major minor => do let _ ← create c path type major minor

theorem Sane.holds (h : Sane none s) : Holds [] [] s := ⟨h, fun _ => Nat.zero_le _, fun _ h => absurd h (by simp)⟩

theorem Sane.require_ends (h : Sane none s) {Q : Unit → State → Prop} (hQ : Holds [ip] [] s → Q () s) :
    Ends (require ip) s Q Allowed := by
  unfold require
  simp only [ends_bind, ends_gets, ends_ite, ends_pure, ends_stop]
  refine ⟨fun hpos => hQ ⟨h, fun j => ?_, fun _ h => absurd h (by simp)⟩, fun _ => ⟨by decide, by decide⟩⟩
  by_cases hj : j = ip
  · subst hj
    rw [List.count_singleton_self]
    exact hpos
  · rw [List.count_singleton, if_neg (by simpa using fun h => hj h.symm)]
    exact Nat.zero_le _

theorem Holds.itrunc (h : Holds K L s) (hi : i ∈ L) :
    Ends (itrunc i) s (fun _ t => Holds K L t) Allowed := by
  refine (itrunc_ends h.sane (h.valid i hi).2).mono fun _ t ht => ⟨ht.sane, fun j => ?_, fun j hj => ?_⟩
  · rw [ht.ref]
    exact h.refs j
  · rw [ht.valid]
    exact h.valid j hj

theorem inodeStep_sane (a : InodeOp) (h : Sane none s) :
    Ends (inodeStep a) s (fun _ t => Sane none t) Allowed := by
  have hlocked : ∀ {ip : Nat} {x : F Unit}, (∀ t, Holds [ip] [ip] t →
      Ends x t (fun _ u => Holds [ip] [ip] u) Allowed) →
      Ends (do require ip; ilock ip; x; iunlock ip) s (fun _ t => Sane none t) Allowed := by
    intro ip x hx
    simp only [ends_bind]
    refine h.require_ends fun hs => (hs.ilock (by simp)).mono fun _ t ht => (hx t ht).mono fun _ u hu => ?_
    exact hu.iunlock.mono fun _ _ hv => hv.sane
  cases a with
  | iget inum => exact h.holds.iget.mono fun _ _ h => h.sane
  | ialloc type =>
    simp only [inodeStep, ends_bind, ends_pure]
    refine (h.holds.ialloc type).mono ?_
    rintro (_ | ip) t ht
    · exact ht.sane
    · exact Holds.sane ht
  | iput ip =>
    simp only [inodeStep, ends_bind]
    have hnone : ∀ j ∈ ([] : List Nat), j ∈ ([] : List Nat) ∧ j ∈ ([] : List Nat) := by simp
    exact h.require_ends fun hs => (hs.iput hnone).mono fun _ _ h => h.sane
  | writei ip src off n =>
    simp only [inodeStep, ends_bind]
    refine h.require_ends fun hs => (hs.ilock (by simp)).mono fun _ t ht => ?_
    exact (ht.writei (by simp)).mono fun _ u hu => hu.iunlock.mono fun _ _ hv => hv.sane
  | itrunc ip => exact hlocked fun t ht => ht.itrunc (by simp)
  | addLinks ip d => exact hlocked fun t ht => ht.addLinks (by simp)
  | create c path type major minor =>
    simp only [inodeStep, ends_bind, ends_pure]
    refine h.holds.create.mono ?_
    rintro (_ | ip) t ht
    · exact ht.sane
    · exact Holds.sane ht

theorem Consistent.sane_of_path {s₀ : State} (h : Consistent s₀) (hempty : ∀ i, (s₀.itable i).valid = false)
    (hrun : Path inodeStep (fun _ _ => True) s₀ s) : Sane none s :=
  hrun.invariant (I := Sane none) (h.sane hempty) fun a _ _ ht _ hstep => (inodeStep_sane a ht).of_ok hstep

/-- Blocks are neither lost nor shared, and the panics about them do not happen. -/
theorem blocks_consistent {s₀ : State} (h : Consistent s₀) (hempty : ∀ i, (s₀.itable i).valid = false)
    (hrun : Path inodeStep (fun _ _ => True) s₀ s) : Consistent s ∧
      ∀ a, inodeStep a s ≠ .error "freeing free block" ∧ inodeStep a s ≠ .error "bmap: out of range" := by
  have hs : Sane none s := h.sane_of_path hempty hrun
  refine ⟨hs.consistent, fun a => ⟨fun he => ?_, fun he => ?_⟩⟩
  · exact ((inodeStep_sane a hs).of_error he).1 rfl
  · exact ((inodeStep_sane a hs).of_error he).2 rfl

abbrev smallDisk : Super :=
  { size := 16, nmeta := 4, ninodes := 8, nmeta_pos := by decide, nmeta_le := by decide, size_lt := by decide,
    root_lt := by decide, ninodes_le := by decide }

def emptyDisk : State where
  used := fun b => b < 4
  data := fun _ _ => 0
  dinode := fun _ => {}
  itable := fun _ => {}
  ftable := fun _ => {}
  proc := fun _ => {}

def shortWrites : List InodeOp :=
  [.ialloc .file, .writei 1 ⟨fun _ => 7, 0⟩ 0 3, .writei 1 ⟨fun _ => 7, 1⟩ 0 1]

omit [Super] in
theorem emptyDisk_consistent : @Consistent smallDisk emptyDisk := by
  have hplace : ∀ r, emptyDisk.place r = none := by
    rintro ⟨i, sl⟩
    cases sl <;> rfl
  refine @Consistent.mk smallDisk _ (fun i h => absurd rfl h) (fun i h => absurd rfl h) ?_ ?_ ?_
  · intro r r' b hr
    rw [hplace] at hr
    cases hr
  · intro r b hr
    rw [hplace] at hr
    cases hr
  · intro b hb
    have hmeta : @nmeta smallDisk = 4 := rfl
    simp only [hplace, hmeta]
    simp [emptyDisk]

omit [Super] in
theorem exists_sane (ops : List InodeOp) (p : State → Bool)
    (h : (Path.follow (@inodeStep smallDisk) (fun _ _ => True) ops emptyDisk).toOption.map (fun r => p r.2) =
      some true) :
    ∃ s, @Sane smallDisk none s ∧ p s = true := by
  obtain ⟨s, hrun, hs⟩ := Path.exists_of_follow (@inodeStep smallDisk) (C := fun _ _ => True) ops emptyDisk p h
  exact ⟨s, @Consistent.sane_of_path smallDisk _ _ emptyDisk_consistent (fun _ => rfl) hrun, hs⟩

omit [Super] in
theorem blocks_consistent_short : ∃ s, Path (@inodeStep smallDisk) (fun _ _ => True) emptyDisk s ∧
    ((s.dinode 1).size = 1 ∧ s.used 4 = true) ∧ @Consistent smallDisk s ∧
      ∀ a, @inodeStep smallDisk a s ≠ .error "freeing free block" ∧
        @inodeStep smallDisk a s ≠ .error "bmap: out of range" := by
  obtain ⟨s, hrun, hs⟩ := Path.exists_of_follow (@inodeStep smallDisk) (C := fun _ _ => True) shortWrites emptyDisk
    (fun s => decide ((s.dinode 1).size = 1 ∧ s.used 4 = true)) (by decide +kernel)
  exact ⟨s, hrun, of_decide_eq_true hs,
    @blocks_consistent smallDisk _ _ emptyDisk_consistent (fun _ => rfl) hrun⟩

end Xv6.Files
