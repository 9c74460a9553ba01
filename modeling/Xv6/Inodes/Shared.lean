import Xv6.Inodes.Coherence

/-!
# References handed out and put

Then every step of every thread, and what holds in all runs.
-/

open Xv6.Lib Op

namespace Xv6.Inodes

open Xv6.Files (Dinode FileType NINODE)

variable {s u : State} {t r i : Nat} {c : Pc}

/-! ## `iget` -/

def State.Named (s : State) (dev inum i : Nat) : Prop :=
  0 < (s.entry i).ref ∧ (s.entry i).dev = dev ∧ (s.entry i).inum = inum

def Got (s : State) (dev inum j : Nat) (u : State) : Prop :=
  j < NINODE ∧ (s.Named dev inum j ∧ u = s.setEntry j (fun e => { e with ref := e.ref + 1 }) ∨
    (s.entry j).ref = 0 ∧ (∀ i < NINODE, ¬ s.Named dev inum i) ∧
      u = s.setEntry j fun e => { e with dev := dev, inum := inum, ref := 1, valid := false })

theorem iget_loop_ends {dev inum k : Nat} {empty : Option Nat} (hk : i + k = NINODE)
    (hno : ∀ j < i, ¬ s.Named dev inum j) (hempty : ∀ j ∈ empty, j < NINODE ∧ (s.entry j).ref = 0) :
    Ends (iget_loop dev inum k i empty) s (Got s dev inum) (fun msg => msg = "iget: no inodes") := by
  induction k generalizing i empty with
  | zero =>
    have hi : i = NINODE := by omega
    cases empty with
    | none => rfl
    | some j =>
      obtain ⟨hj, href⟩ := hempty j rfl
      exact ⟨hj, .inr ⟨href, hi ▸ hno, rfl⟩⟩
  | succ k ih =>
    simp only [iget_loop, ends_bind, ends_gets, ends_ite, ends_pure, setEntry, ends_update]
    refine ⟨fun hfound => ⟨by omega, .inl ⟨hfound, rfl⟩⟩, fun hnot => ih (by omega) ?_ ?_⟩
    · intro j hj
      obtain hj | rfl : j < i ∨ j = i := by omega
      · exact hno j hj
      · exact hnot
    · intro j hj
      split at hj
      · rename_i he
        cases hj
        exact ⟨by omega, he.2⟩
      · exact hempty j hj

/-- The entry `j` stays what it is, or it was unused and is now for an inode that no entry is for. -/
def State.Renews (s : State) (j : Nat) (e : Entry) : Prop :=
  0 < (s.entry j).ref ∧ e.dev = (s.entry j).dev ∧ e.inum = (s.entry j).inum ∧ e.valid = (s.entry j).valid ∧
      e.copy = (s.entry j).copy ∨
    (s.entry j).ref = 0 ∧ e.valid = false ∧ ∀ i < NINODE, ¬ s.Named e.dev e.inum i

/-- How a new reference `r` to entry `j`, which becomes `e`, changes the state. -/
structure Handed (s v : State) (r j : Nat) (e : Entry) : Prop where
  fresh : r ∉ s.live
  bound : j < NINODE
  ref : e.ref = (s.entry j).ref + 1
  entry : s.Renews j e
  self : v.entry j = e
  other : ∀ k, k ≠ j → v.entry k = s.entry k
  lock : ∀ k, (v.entry k).lock = (s.entry k).lock
  live : v.live = r :: s.live
  target_self : v.target r = j
  target : ∀ r' ∈ s.live, v.target r' = s.target r'
  user : ∀ r' ∈ s.live, v.user r' = s.user r'
  pc : v.pc = s.pc
  disk : v.disk = s.disk

namespace Handed

variable {v : State} {j : Nat} {e : Entry} (hh : Handed s v r j e) (h : Inv s)
include hh

theorem backed {t' k : Nat} {c : Pc} (hb : s.Backed t' k c) : v.Backed t' k c := by
  obtain ⟨r', hr', rfl, hu, hp⟩ := hb
  exact ⟨r', by rw [hh.live]; exact List.mem_cons_of_mem _ hr', hh.target r' hr', by rwa [hh.user r' hr'], hp⟩

include h

theorem count (k : Nat) : (v.entry k).ref = v.live.countP fun r' => v.target r' = k := by
  have hold : (s.live.countP fun r' => v.target r' = k) = (s.entry k).ref := by
    rw [h.ref]
    exact List.countP_congr fun r' hr' => by rw [hh.target r' hr']
  rw [hh.live, List.countP_cons, hold, hh.target_self]
  by_cases hk : k = j
  · simp [hk, hh.self, hh.ref]
  · simp [hh.other k hk, Ne.symm hk]

/-- A recycled entry is not for an inode that another entry is for. -/
theorem apart {k : Nat} (hk : k ≠ j) (hpos : 0 < (s.entry k).ref) :
    ¬ ((s.entry k).dev = e.dev ∧ (s.entry k).inum = e.inum) := by
  rintro ⟨hdev, hinum⟩
  obtain ⟨hpos', hdev', hinum', -⟩ | ⟨-, -, hno⟩ := hh.entry
  · exact hk (h.unique k j hpos hpos' (hdev.trans hdev') (hinum.trans hinum'))
  · have hlt : k < NINODE := by
      rw [h.ref, List.countP_pos_iff] at hpos
      obtain ⟨r', hr', htr⟩ := hpos
      exact of_decide_eq_true htr ▸ h.bound r' hr'
    exact hno k hlt ⟨hpos, hdev, hinum⟩

theorem unique (k l : Nat) (hk : 0 < (v.entry k).ref) (hl : 0 < (v.entry l).ref)
    (hdev : (v.entry k).dev = (v.entry l).dev) (hinum : (v.entry k).inum = (v.entry l).inum) : k = l := by
  by_cases hkj : k = j <;> by_cases hlj : l = j
  · rw [hkj, hlj]
  · rw [hkj, hh.self, hh.other l hlj] at hdev hinum
    rw [hh.other l hlj] at hl
    exact absurd ⟨hdev.symm, hinum.symm⟩ (hh.apart h hlj hl)
  · rw [hlj, hh.self, hh.other k hkj] at hdev hinum
    rw [hh.other k hkj] at hk
    exact absurd ⟨hdev, hinum⟩ (hh.apart h hkj hk)
  · rw [hh.other k hkj] at hk hdev hinum
    rw [hh.other l hlj] at hl hdev hinum
    exact h.unique k l hk hl hdev hinum

theorem ready (t' : Nat) : v.Ready t' (v.pc t') := by
  rw [hh.pc]
  have hold := h.ready t'
  cases hc : s.pc t' with
  | lock k =>
    rw [hc] at hold
    exact hh.backed hold
  | load k | loaded k | dirty k =>
    rw [hc] at hold
    exact (hh.lock k).trans hold
  | put r' k ph =>
    rw [hc] at hold
    obtain ⟨h1, h2, h3, h4, h5⟩ := hold
    rw [State.Ready, hh.live, hh.target r' h1, hh.user r' h1, hh.lock]
    exact ⟨List.mem_cons_of_mem _ h1, h2, h3, h4, h5⟩
  | _ => trivial

theorem ok (k : Nat) (hk : 0 < (v.entry k).ref) : Ok (v.entry k) (v.onDisk k) (v.touch k) := by
  have htouch : v.touch k = s.touch k := by rw [State.touch, State.touch, hh.lock, hh.pc]
  by_cases hkj : k = j
  · rw [hkj] at htouch ⊢
    obtain ⟨hpos, hdev, hinum, hvalid, hcopy⟩ | ⟨hzero, hinvalid, -⟩ := hh.entry
    · rw [htouch, State.onDisk, hh.self, hh.disk, hdev, hinum]
      exact (h.ok j hpos).congr hvalid hcopy
    · have hfree : (s.entry j).lock = none := by
        cases hl : (s.entry j).lock with
        | none => rfl
        | some t' =>
          have := h.ref_pos_of_lock hl
          omega
      rw [Inv.touch_of_free (by rw [hh.lock, hfree]), hh.self]
      intro hvalid
      rw [hinvalid] at hvalid
      cases hvalid
  · rw [hh.other k hkj] at hk ⊢
    rw [htouch, State.onDisk, hh.other k hkj, hh.disk]
    exact h.ok k hk

theorem inv : Inv v where
  nodup := by
    rw [hh.live]
    exact List.nodup_cons.mpr ⟨hh.fresh, h.nodup⟩
  bound r' hr' := by
    rw [hh.live] at hr'
    obtain rfl | hr' := List.mem_cons.mp hr'
    · rw [hh.target_self]
      exact hh.bound
    · rw [hh.target r' hr']
      exact h.bound r' hr'
  ref := hh.count h
  unique := hh.unique h
  backed k t' hk := by
    rw [hh.lock] at hk
    rw [hh.pc]
    exact hh.backed (h.backed k t' hk)
  ready := hh.ready h
  holes := by
    rw [hh.disk]
    exact h.holes
  ok := hh.ok h

end Handed

namespace Inv

theorem hand_out (h : Inv s) {j : Nat} {e : Entry} (hr : r ∉ s.live) (hj : j < NINODE)
    (href : e.ref = (s.entry j).ref + 1) (hlock : e.lock = (s.entry j).lock) (he : s.Renews j e) :
    Inv { s with
      entry := Function.update s.entry j e
      live := r :: s.live
      target := Function.update s.target r j
      user := Function.update s.user r [t] } := by
  have hne : ∀ r' ∈ s.live, r' ≠ r := by
    rintro r' hr' rfl
    exact hr hr'
  refine Handed.inv (e := e) {
    fresh := hr
    bound := hj
    ref := href
    entry := he
    self := Function.update_self ..
    other := fun k hk => Function.update_of_ne hk ..
    lock := ?_
    live := rfl
    target_self := Function.update_self ..
    target := fun r' hr' => Function.update_of_ne (hne r' hr') ..
    user := fun r' hr' => Function.update_of_ne (hne r' hr') ..
    pc := rfl
    disk := rfl } h
  exact (Function.forall_update_iff s.entry fun k y => y.lock = (s.entry k).lock).mpr ⟨hlock, fun _ _ => rfl⟩

theorem iget_ends (h : Inv s) {dev inum : Nat} (hr : r ∉ s.live) : Ends (iget t dev inum r) s
    (fun _ u => Inv u ∧ u.pc = s.pc) (fun msg => msg = "iget: no inodes") := by
  rw [iget, ends_bind]
  refine Ends.mono (iget_loop_ends (by omega) (by omega) (by simp)) ?_
  rintro j u ⟨hj, ⟨⟨hpos, hdev, hinum⟩, rfl⟩ | ⟨hzero, hno, rfl⟩⟩
  · exact ⟨h.hand_out hr hj rfl rfl (.inl ⟨hpos, rfl, rfl, rfl, rfl⟩), rfl⟩
  · exact ⟨h.hand_out hr hj (by rw [hzero]) rfl (.inr ⟨hzero, rfl, hno⟩), rfl⟩

theorem idup_ends (h : Inv s) {r' : Nat} (hr : r ∈ s.live) (hr' : r' ∉ s.live) :
    Ends (idup t r r') s (fun _ u => Inv u) (fun _ => False) :=
  h.hand_out hr' (h.bound r hr) rfl rfl (.inl ⟨h.ref_pos hr, rfl, rfl, rfl, rfl⟩)

/-! ## Sharing and putting -/

theorem idle_ne_put (h : Inv s) (hpc : s.pc t = .idle) (ht : t ∈ s.user r) {t' j : Nat} {ph : Put}
    (hput : s.pc t' = .put r j ph) : False := by
  have hready := h.ready t'
  rw [hput] at hready
  rw [hready.2.2.2.1 t ht, hput] at hpc
  cases hpc

theorem reuse (h : Inv s) {users : List Nat} (hkeep : ∀ t' ∈ s.user r, t' ∈ users ∨ s.pc t' = .idle ∧
      ((s.entry (s.target r)).lock = some t' → s.Other t' (s.target r) r))
    (hput : ∀ t' j ph, s.pc t' ≠ .put r j ph) : Inv { s with user := Function.update s.user r users } := by
  obtain ⟨v, hv⟩ : ∃ v : State, v = { s with user := Function.update s.user r users } := ⟨_, rfl⟩
  rw [← hv]
  have hself : v.user r = users := by
    rw [hv]
    exact Function.update_self ..
  have hrest : ∀ r', r' ≠ r → v.user r' = s.user r' := by
    intro r' hr'
    rw [hv]
    exact Function.update_of_ne hr' ..
  have hlive : v.live = s.live := by rw [hv]
  have htarget : v.target = s.target := by rw [hv]
  have hpc : v.pc = s.pc := by rw [hv]
  have hentry : v.entry = s.entry := by rw [hv]
  refine ⟨by rw [hlive]; exact h.nodup, by rw [hlive, htarget]; exact h.bound, by rw [hentry, hlive, htarget]; exact h.ref,
    by rw [hentry]; exact h.unique, fun j t' hj => ?_, fun t' => ?_, by rw [hv]; exact h.holes, ?_⟩
  · rw [hentry] at hj
    obtain ⟨r', hr', rfl, hu, hp⟩ := h.backed j t' hj
    rw [State.Backed, hlive, htarget, hpc]
    by_cases he : r' = r
    · subst he
      obtain hmem | ⟨hidle, hother⟩ := hkeep t' hu
      · exact ⟨r', hr', rfl, by rwa [hself], hp⟩
      · obtain ⟨r'', hr'', hne, ht'', hu''⟩ := hother hj
        exact ⟨r'', hr'', ht'', by rwa [hrest r'' hne], by rw [hidle]; exact id⟩
    · exact ⟨r', hr', rfl, by rwa [hrest r' he], hp⟩
  · have hold := h.ready t'
    rw [hpc]
    cases hc : s.pc t' with
    | lock j =>
      rw [hc] at hold
      obtain ⟨r', hr', rfl, hu, hp⟩ := hold
      rw [State.Ready, State.Backed, hlive, htarget]
      refine ⟨r', hr', rfl, ?_, hp⟩
      by_cases he : r' = r
      · subst he
        obtain hmem | ⟨hidle, -⟩ := hkeep t' hu
        · rwa [hself]
        · cases hidle.symm.trans hc
      · rwa [hrest r' he]
    | load j | loaded j | dirty j =>
      rw [hc] at hold
      rw [State.Ready, hentry]
      exact hold
    | put r' j ph =>
      have hne : r' ≠ r := by
        rintro rfl
        exact hput t' j ph hc
      rw [hc] at hold
      rw [State.Ready, hlive, htarget, hrest r' hne, hentry]
      exact hold
    | _ => trivial
  · rw [hv]
    exact h.ok

end Inv

/-- How dropping the reference `r` to entry `i` changes the state: it was the thread `t`'s own. -/
structure Dropped (s v : State) (t r i : Nat) (ph : Put) : Prop where
  was : s.pc t = .put r i ph
  unlocked : ph.locked = false
  self : v.entry i = { s.entry i with ref := (s.entry i).ref - 1 }
  other : ∀ k, k ≠ i → v.entry k = s.entry k
  live : v.live = s.live.erase r
  target : v.target = s.target
  user : v.user = s.user
  idle : v.pc t = .idle
  pc : ∀ t', t' ≠ t → v.pc t' = s.pc t'
  disk : v.disk = s.disk

namespace Dropped

variable {v : State} {ph : Put} (hd : Dropped s v t r i ph) (h : Inv s)
include hd

theorem kept {r' : Nat} (hr' : r' ∈ s.live) (hne : r' ≠ r) : r' ∈ v.live := by
  rw [hd.live]
  exact (List.mem_erase_of_ne hne).mpr hr'

theorem same (k : Nat) : (v.entry k).lock = (s.entry k).lock ∧ (v.entry k).dev = (s.entry k).dev ∧
    (v.entry k).inum = (s.entry k).inum ∧ (v.entry k).valid = (s.entry k).valid ∧ (v.entry k).copy = (s.entry k).copy ∧
    (v.entry k).ref ≤ (s.entry k).ref := by
  by_cases hk : k = i
  · rw [hk, hd.self]
    exact ⟨rfl, rfl, rfl, rfl, rfl, Nat.sub_le ..⟩
  · rw [hd.other k hk]
    exact ⟨rfl, rfl, rfl, rfl, rfl, le_rfl⟩

include h

theorem mine : r ∈ s.live ∧ s.target r = i ∧ ∀ t' ∈ s.user r, t' = t := by
  have hready := h.ready t
  rw [hd.was] at hready
  exact ⟨hready.1, hready.2.1, hready.2.2.2.1⟩

theorem count (k : Nat) : (v.entry k).ref = v.live.countP fun r' => v.target r' = k := by
  obtain ⟨hr, htr, -⟩ := hd.mine h
  rw [hd.live, hd.target, List.countP_erase, ← h.ref k, htr]
  by_cases hk : k = i
  · simp [hk, hd.self, hr]
  · simp [hd.other k hk, Ne.symm hk]

theorem unique (k l : Nat) (hk : 0 < (v.entry k).ref) (hl : 0 < (v.entry l).ref)
    (hdev : (v.entry k).dev = (v.entry l).dev) (hinum : (v.entry k).inum = (v.entry l).inum) : k = l := by
  obtain ⟨-, hdk, hik, -, -, hrk⟩ := hd.same k
  obtain ⟨-, hdl, hil, -, -, hrl⟩ := hd.same l
  rw [hdk, hdl] at hdev
  rw [hik, hil] at hinum
  exact h.unique k l (by omega) (by omega) hdev hinum

theorem backed (k t' : Nat) (hk : (v.entry k).lock = some t') : v.Backed t' k (v.pc t') := by
  rw [(hd.same k).1] at hk
  obtain ⟨r', hr', ht', hu', hp'⟩ := h.backed k t' hk
  have hne : r' ≠ r := by
    rintro rfl
    rw [(hd.mine h).2.2 t' hu', hd.was] at hp'
    exact hp' ⟨rfl, hd.unlocked⟩
  rw [State.Backed, hd.target, hd.user]
  refine ⟨r', hd.kept hr' hne, ht', hu', ?_⟩
  by_cases htt : t' = t
  · rw [htt, hd.idle]
    exact id
  · rwa [hd.pc t' htt]

theorem ready (t' : Nat) : v.Ready t' (v.pc t') := by
  by_cases htt : t' = t
  · rw [htt, hd.idle]
    trivial
  have hne : ∀ r', t' ∈ s.user r' → r' ≠ r := by
    rintro r' hu rfl
    exact htt ((hd.mine h).2.2 t' hu)
  rw [hd.pc t' htt]
  have hold := h.ready t'
  cases hc : s.pc t' with
  | lock k =>
    rw [hc] at hold
    obtain ⟨r', hr', ht', hu', hp'⟩ := hold
    rw [State.Ready, State.Backed, hd.target, hd.user]
    exact ⟨r', hd.kept hr' (hne r' hu'), ht', hu', hp'⟩
  | load k | loaded k | dirty k =>
    rw [hc] at hold
    exact (hd.same k).1.trans hold
  | put r' k ph' =>
    rw [hc] at hold
    obtain ⟨h1, h2, h3, h4, h5⟩ := hold
    rw [State.Ready, hd.target, hd.user, (hd.same k).1]
    exact ⟨hd.kept h1 (hne r' h3), h2, h3, h4, h5⟩
  | _ => trivial

omit h in
theorem touch (k : Nat) : v.touch k = s.touch k := by
  rw [State.touch, State.touch, (hd.same k).1]
  cases hl : (s.entry k).lock with
  | none => rfl
  | some t' =>
    by_cases htt : t' = t
    · have hph := hd.unlocked
      simp only [htt, hd.idle, hd.was, Pc.touch]
      cases ph <;> simp_all [Put.touch, Put.locked]
    · simp only [hd.pc t' htt]

theorem inv : Inv v where
  nodup := by
    rw [hd.live]
    exact h.nodup.erase r
  bound r' hr' := by
    rw [hd.live] at hr'
    rw [hd.target]
    exact h.bound r' (List.mem_of_mem_erase hr')
  ref := hd.count h
  unique := hd.unique h
  backed := hd.backed h
  ready := hd.ready h
  holes := by
    rw [hd.disk]
    exact h.holes
  ok k hk := by
    obtain ⟨-, hdev, hinum, hvalid, hcopy, hle⟩ := hd.same k
    rw [hd.touch, State.onDisk, hdev, hinum, hd.disk]
    exact (h.ok k (by omega)).congr hvalid hcopy

end Dropped

theorem Inv.drop_step (h : Inv s) {ph : Put} (hpc : s.pc t = .put r i ph) (hph : ph.locked = false) :
    Ends (drop t r i) s (fun _ u => Inv u) (fun _ => False) := by
  show Inv (State.goto { s.setEntry i (fun e => { e with ref := e.ref - 1 }) with live := s.live.erase r } t .idle)
  exact Dropped.inv {
    was := hpc
    unlocked := hph
    self := Function.update_self ..
    other := fun k hk => Function.update_of_ne hk ..
    live := rfl
    target := rfl
    user := rfl
    idle := Function.update_self ..
    pc := fun t' ht' => Function.update_of_ne ht' ..
    disk := rfl } h

end Xv6.Inodes
