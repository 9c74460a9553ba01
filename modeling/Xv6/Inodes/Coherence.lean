import Xv6.Inodes.Holes

/-!
# The table agrees with the disk

Who may change an entry is read off the place each thread is in. An inode that is free on disk has no valid entry, except
while its `iput` still holds the lock.
-/

open Xv6.Lib

namespace Xv6.Inodes

open Xv6.Files (Dinode FileType NINODE)

variable {s u : State} {t r i : Nat} {c : Pc}

/-! ## The invariant -/

/-- How an entry stands: at rest, as on disk, read or to be written back under its lock, or on its way out in `iput`. -/
inductive Touch where
  | rest
  | held
  | loaded
  | dirty
  | freed
  | dead
  | invalid

namespace Put

def touch : Put → Touch
  | start | itrunc | type | drop => .held
  | update => .dirty
  | free => .freed
  | invalid => .dead
  | unlock => .invalid

def locked : Put → Bool
  | start | drop => false
  | _ => true

end Put

namespace Pc

def touch (i : Nat) : Pc → Touch
  | load j => if j = i then .rest else .held
  | loaded j => if j = i then .loaded else .held
  | dirty j => if j = i then .dirty else .held
  | put _ j ph => if j = i then ph.touch else .held
  | _ => .held

def Putting (r : Nat) : Pc → Prop
  | put r' _ ph => r' = r ∧ ph.locked = false
  | _ => False

end Pc

def Clean (e : Entry) (d : Dinode) : Prop := e.copy = d ∧ d.type ≠ .free

def Ok (e : Entry) (d : Dinode) : Touch → Prop
  | .rest => e.valid = true → Clean e d
  | .held => e.valid = true ∧ Clean e d
  | .loaded => e.copy = d ∨ e.copy.type = .free
  | .dirty => e.valid = true ∧ e.copy.type = d.type ∧ d.type ≠ .free ∧ HoleFree e.copy
  | .freed => e.copy.type = .free ∧ d.type ≠ .free ∧ HoleFree e.copy
  | .dead => True
  | .invalid => e.valid = false

theorem Ok.congr {e e' : Entry} {d : Dinode} {k : Touch} (h : Ok e d k) (hvalid : e'.valid = e.valid)
    (hcopy : e'.copy = e.copy) : Ok e' d k := by
  cases k <;> simp only [Ok, Clean, hvalid, hcopy] <;> exact h

namespace State

def touch (s : State) (i : Nat) : Touch :=
  match (s.entry i).lock with
  | none => .rest
  | some t => (s.pc t).touch i

def onDisk (s : State) (i : Nat) : Dinode := s.disk (s.entry i).dev (s.entry i).inum

def Backed (s : State) (t i : Nat) (c : Pc) : Prop := ∃ r ∈ s.live, s.target r = i ∧ t ∈ s.user r ∧ ¬ c.Putting r

def Ready (s : State) (t : Nat) : Pc → Prop
  | .lock i => s.Backed t i .idle
  | .load i | .loaded i | .dirty i => (s.entry i).lock = some t
  | .put r i ph => r ∈ s.live ∧ s.target r = i ∧ t ∈ s.user r ∧ (∀ t' ∈ s.user r, t' = t) ∧
    (ph.locked = true → (s.entry i).lock = some t)
  | _ => True

end State

structure Inv (s : State) : Prop where
  nodup : s.live.Nodup
  bound : ∀ r ∈ s.live, s.target r < NINODE
  ref : ∀ i, (s.entry i).ref = s.live.countP fun r => s.target r = i
  unique : ∀ i j, 0 < (s.entry i).ref → 0 < (s.entry j).ref → (s.entry i).dev = (s.entry j).dev →
    (s.entry i).inum = (s.entry j).inum → i = j
  backed : ∀ i t, (s.entry i).lock = some t → s.Backed t i (s.pc t)
  ready : ∀ t, s.Ready t (s.pc t)
  holes : ∀ dev inum, HoleFree (s.disk dev inum)
  ok : ∀ i, 0 < (s.entry i).ref → Ok (s.entry i) (s.onDisk i) (s.touch i)

namespace Inv

theorem ref_pos (h : Inv s) (hr : r ∈ s.live) : 0 < (s.entry (s.target r)).ref := by
  rw [h.ref, List.countP_pos_iff]
  exact ⟨r, hr, by simp⟩

theorem ref_pos_of_lock (h : Inv s) (hl : (s.entry i).lock = some t) : 0 < (s.entry i).ref := by
  obtain ⟨r, hr, rfl, -⟩ := h.backed i t hl
  exact h.ref_pos hr

theorem ref_two (h : Inv s) {r' : Nat} (hr : r ∈ s.live) (hr' : r' ∈ s.live) (hne : r' ≠ r)
    (he : s.target r' = s.target r) : (s.entry (s.target r)).ref ≠ 1 := by
  intro hone
  rw [h.ref, List.countP_eq_length_filter] at hone
  have hmem : ∀ r'' ∈ s.live, s.target r'' = s.target r → r'' ∈ s.live.filter fun r'' => s.target r'' = s.target r :=
    fun r'' hr'' he => List.mem_filter.mpr ⟨hr'', by simpa using he⟩
  obtain ⟨x, hx⟩ := List.length_eq_one_iff.mp hone
  have h1 := hmem r hr rfl
  have h2 := hmem r' hr' he
  rw [hx, List.mem_singleton] at h1 h2
  exact hne (h2.trans h1.symm)

theorem touch_of_lock (hl : (s.entry i).lock = some t) : s.touch i = (s.pc t).touch i := by rw [State.touch, hl]

theorem touch_of_free (hl : (s.entry i).lock = none) : s.touch i = .rest := by rw [State.touch, hl]

end Inv

/-! ## Steps of the holder of a lock -/

/-- Only the thread `t`, the entry `i` and its inode on disk have changed, and the entry is still for that inode. -/
structure Local (s u : State) (i t : Nat) : Prop where
  entry : ∀ j, j ≠ i → u.entry j = s.entry j
  ref : (u.entry i).ref = (s.entry i).ref
  dev : (u.entry i).dev = (s.entry i).dev
  inum : (u.entry i).inum = (s.entry i).inum
  disk : ∀ dev inum, ¬ (dev = (s.entry i).dev ∧ inum = (s.entry i).inum) → u.disk dev inum = s.disk dev inum
  pc : ∀ t', t' ≠ t → u.pc t' = s.pc t'
  live : u.live = s.live
  target : u.target = s.target
  user : u.user = s.user

namespace Local

theorem backed_iff (h : Local s u i t) {t' j : Nat} : u.Backed t' j c ↔ s.Backed t' j c := by
  rw [State.Backed, State.Backed, h.live, h.target, h.user]

theorem ref_eq (h : Local s u i t) (j : Nat) : (u.entry j).ref = (s.entry j).ref := by
  by_cases hj : j = i
  · rw [hj, h.ref]
  · rw [h.entry j hj]

theorem name_eq (h : Local s u i t) (j : Nat) : (u.entry j).dev = (s.entry j).dev ∧ (u.entry j).inum = (s.entry j).inum := by
  by_cases hj : j = i
  · rw [hj]
    exact ⟨h.dev, h.inum⟩
  · rw [h.entry j hj]
    exact ⟨rfl, rfl⟩

end Local

namespace Inv

theorem of_local (h : Inv s) (hl : Local s u i t) (hi : 0 < (s.entry i).ref)
    (hbefore : (s.entry i).lock = none ∨ (s.entry i).lock = some t)
    (hafter : (u.entry i).lock = none ∨ (u.entry i).lock = some t ∧ s.Backed t i (u.pc t))
    (htouch : ∀ j, j ≠ i → (u.pc t).touch j = (s.pc t).touch j)
    (hput : ∀ r, (u.pc t).Putting r → s.target r = i ∨ (s.pc t).Putting r) (hready : u.Ready t (u.pc t))
    (hholes : HoleFree (u.onDisk i)) (hok : Ok (u.entry i) (u.onDisk i) (u.touch i)) : Inv u := by
  have hother : ∀ j t', t' ≠ t → (u.entry j).lock = some t' → j ≠ i := by
    rintro j t' ht' hj rfl
    obtain hn | hn := hafter
    · cases hj.symm.trans hn
    · exact ht' (Option.some.inj (hj.symm.trans hn.1))
  have hlock : ∀ j t', t' ≠ t → ((u.entry j).lock = some t' ↔ (s.entry j).lock = some t') := by
    intro j t' ht'
    by_cases hj : j = i
    · refine iff_of_false (fun hc => hother j t' ht' hc hj) fun hc => ?_
      rw [hj] at hc
      obtain hn | hn := hbefore
      · cases hc.symm.trans hn
      · exact ht' (Option.some.inj (hc.symm.trans hn))
    · rw [hl.entry j hj]
  refine ⟨?_, ?_, ?_, ?_, ?_, ?_, ?_, ?_⟩
  · rw [hl.live]
    exact h.nodup
  · rw [hl.live, hl.target]
    exact h.bound
  · intro j
    rw [hl.ref_eq, hl.live, hl.target]
    exact h.ref j
  · intro j k hj hk hdev hinum
    rw [hl.ref_eq] at hj hk
    rw [(hl.name_eq j).1, (hl.name_eq k).1] at hdev
    rw [(hl.name_eq j).2, (hl.name_eq k).2] at hinum
    exact h.unique j k hj hk hdev hinum
  · intro j t' hj
    rw [hl.backed_iff]
    by_cases ht' : t' = t
    · subst ht'
      by_cases hji : j = i
      · subst hji
        obtain hn | hn := hafter
        · cases hj.symm.trans hn
        · exact hn.2
      · rw [hl.entry j hji] at hj
        obtain ⟨r, hr, htarget, huser, hnot⟩ := h.backed j t' hj
        refine ⟨r, hr, htarget, huser, fun hc => ?_⟩
        obtain hc | hc := hput r hc
        · exact hji (htarget.symm.trans hc)
        · exact hnot hc
    · rw [hl.pc t' ht']
      exact h.backed j t' ((hlock j t' ht').mp hj)
  · intro t'
    by_cases ht' : t' = t
    · rw [ht']
      exact hready
    · rw [hl.pc t' ht']
      have hold := h.ready t'
      cases hc : s.pc t' with
      | lock j =>
        rw [hc] at hold
        exact hl.backed_iff.mpr hold
      | load j | loaded j | dirty j =>
        rw [hc] at hold
        exact (hlock j t' ht').mpr hold
      | put r j ph =>
        rw [hc] at hold
        obtain ⟨h1, h2, h3, h4, h5⟩ := hold
        rw [State.Ready, hl.live, hl.target, hl.user]
        exact ⟨h1, h2, h3, h4, fun hph => (hlock j t' ht').mpr (h5 hph)⟩
      | _ => trivial
  · intro dev inum
    by_cases hname : dev = (s.entry i).dev ∧ inum = (s.entry i).inum
    · rw [hname.1, hname.2, ← hl.dev, ← hl.inum]
      exact hholes
    · rw [hl.disk dev inum hname]
      exact h.holes dev inum
  · intro j hj
    by_cases hji : j = i
    · rw [hji]
      exact hok
    · rw [hl.ref_eq] at hj
      have hdisk : u.onDisk j = s.onDisk j := by
        rw [State.onDisk, (hl.name_eq j).1, (hl.name_eq j).2]
        exact hl.disk _ _ fun hc => hji (h.unique j i hj hi hc.1 hc.2)
      have htouch : u.touch j = s.touch j := by
        rw [State.touch, State.touch, hl.entry j hji]
        cases hlj : (s.entry j).lock with
        | none => rfl
        | some t' =>
          by_cases ht' : t' = t
          · simp only [ht']
            exact htouch j hji
          · simp only [hl.pc t' ht']
      rw [hl.entry j hji, hdisk, htouch]
      exact h.ok j hj

theorem jump (h : Inv s) (htouch : ∀ j, c.touch j = (s.pc t).touch j)
    (hbacked : ∀ j, (s.entry j).lock = some t → s.Backed t j c) (hready : s.Ready t c) : Inv (s.goto t c) := by
  have hself : (s.goto t c).pc t = c := Function.update_self ..
  have hrest : ∀ t', t' ≠ t → (s.goto t c).pc t' = s.pc t' := fun t' ht' => Function.update_of_ne ht' ..
  refine ⟨h.nodup, h.bound, h.ref, h.unique, fun j t' hj => ?_, fun t' => ?_, h.holes, fun j hj => ?_⟩
  · by_cases ht' : t' = t
    · subst ht'
      rw [hself]
      exact hbacked j hj
    · rw [hrest t' ht']
      exact h.backed j t' hj
  · by_cases ht' : t' = t
    · subst ht'
      rw [hself]
      exact hready
    · rw [hrest t' ht']
      exact h.ready t'
  · have htouch : (s.goto t c).touch j = s.touch j := by
      show (match (s.entry j).lock with | none => Touch.rest | some t' => ((s.goto t c).pc t').touch j) = _
      rw [State.touch]
      cases hl : (s.entry j).lock with
      | none => rfl
      | some t' =>
        by_cases ht' : t' = t
        · subst ht'
          simp only [hself]
          exact htouch j
        · simp only [hrest t' ht']
    rw [htouch]
    exact h.ok j hj

end Inv

section
variable {f : Entry → Entry}

theorem Local.setEntry (hf : (f (s.entry i)).ref = (s.entry i).ref ∧ (f (s.entry i)).dev = (s.entry i).dev ∧
    (f (s.entry i)).inum = (s.entry i).inum) : Local s ((s.setEntry i f).goto t c) i t := by
  have hself : ((s.setEntry i f).goto t c).entry i = f (s.entry i) := Function.update_self ..
  refine ⟨fun j hj => Function.update_of_ne hj .., ?_, ?_, ?_, fun _ _ _ => rfl, fun t' ht' => Function.update_of_ne ht' ..,
    rfl, rfl, rfl⟩
  · rw [hself, hf.1]
  · rw [hself, hf.2.1]
  · rw [hself, hf.2.2]

theorem Local.setDisk {d : Dinode} : Local s ((s.setDisk (s.entry i).dev (s.entry i).inum d).goto t c) i t := by
  refine ⟨fun j hj => rfl, rfl, rfl, rfl, fun dev inum hne => ?_, fun t' ht' => Function.update_of_ne ht' .., rfl, rfl, rfl⟩
  show Function.update s.disk _ _ dev inum = _
  by_cases hdev : dev = (s.entry i).dev
  · subst hdev
    rw [Function.update_self, Function.update_of_ne fun hi => hne ⟨rfl, hi⟩]
  · rw [Function.update_of_ne hdev]

theorem State.Ready.congr (h : s.Ready t c) (hlock : ∀ j, (s.entry j).lock = some t → (u.entry j).lock = some t)
    (hlive : u.live = s.live) (htarget : u.target = s.target) (huser : u.user = s.user) : u.Ready t c := by
  cases c with
  | lock j =>
    rw [Ready, Backed, hlive, htarget, huser]
    exact h
  | load j | loaded j | dirty j => exact hlock j h
  | put r j ph =>
    obtain ⟨h1, h2, h3, h4, h5⟩ := h
    rw [Ready, hlive, htarget, huser]
    exact ⟨h1, h2, h3, h4, fun hph => hlock j (h5 hph)⟩
  | _ => trivial

namespace Inv

theorem held_step (h : Inv s) (hlock : (s.entry i).lock = some t) (hf : (f (s.entry i)).ref = (s.entry i).ref ∧
    (f (s.entry i)).dev = (s.entry i).dev ∧ (f (s.entry i)).inum = (s.entry i).inum)
    (hkeep : (f (s.entry i)).lock = (s.entry i).lock) (hc : ∀ j, j ≠ i → c.touch j = (s.pc t).touch j)
    (hput : ∀ r, ¬ c.Putting r) (hready : s.Ready t c) (hok : Ok (f (s.entry i)) (s.onDisk i) (c.touch i)) :
    Inv ((s.setEntry i f).goto t c) := by
  have hl : Local s ((s.setEntry i f).goto t c) i t := .setEntry hf
  have hself : ((s.setEntry i f).goto t c).entry i = f (s.entry i) := Function.update_self ..
  have hpc : ((s.setEntry i f).goto t c).pc t = c := Function.update_self ..
  have hlock' : (((s.setEntry i f).goto t c).entry i).lock = some t := by rw [hself, hkeep, hlock]
  have hdisk : ((s.setEntry i f).goto t c).onDisk i = s.onDisk i := by
    rw [State.onDisk, hl.dev, hl.inum]
    rfl
  refine h.of_local hl (h.ref_pos_of_lock hlock) (.inr hlock) (.inr ⟨hlock', ?_⟩) ?_ ?_ ?_ ?_ ?_
  · rw [hpc]
    obtain ⟨r, hr, htarget, huser, -⟩ := h.backed i t hlock
    exact ⟨r, hr, htarget, huser, hput r⟩
  · rw [hpc]
    exact hc
  · rw [hpc]
    exact fun r hr => absurd hr (hput r)
  · rw [hpc]
    refine hready.congr (fun j hj => ?_) rfl rfl rfl
    by_cases hji : j = i
    · rw [hji]
      exact hlock'
    · rwa [hl.entry j hji]
  · rw [hdisk]
    exact h.holes _ _
  · rw [touch_of_lock hlock', hself, hdisk, hpc]
    exact hok

theorem update_step (h : Inv s) (hlock : (s.entry i).lock = some t) (hc : ∀ j, j ≠ i → c.touch j = (s.pc t).touch j)
    (hput : ∀ r, ¬ c.Putting r) (hready : s.Ready t c) (hholes : HoleFree (s.entry i).copy)
    (hok : Ok (s.entry i) (s.entry i).copy (c.touch i)) :
    Inv ((s.setDisk (s.entry i).dev (s.entry i).inum (s.entry i).copy).goto t c) := by
  obtain ⟨v, hv⟩ : ∃ v, v = (s.setDisk (s.entry i).dev (s.entry i).inum (s.entry i).copy).goto t c := ⟨_, rfl⟩
  rw [← hv]
  have hl : Local s v i t := by
    rw [hv]
    exact .setDisk
  have hentry : v.entry = s.entry := by rw [hv]; rfl
  have hpc : v.pc t = c := by
    rw [hv]
    exact Function.update_self ..
  have hlock' : (v.entry i).lock = some t := by rw [hentry, hlock]
  have hdisk : v.onDisk i = (s.entry i).copy := by
    rw [State.onDisk, hentry, hv]
    show Function.update s.disk _ (Function.update _ _ _) _ _ = _
    rw [Function.update_self, Function.update_self]
  refine h.of_local hl (h.ref_pos_of_lock hlock) (.inr hlock) (.inr ⟨hlock', ?_⟩) ?_ ?_ ?_ ?_ ?_
  · rw [hpc]
    obtain ⟨r, hr, htarget, huser, -⟩ := h.backed i t hlock
    exact ⟨r, hr, htarget, huser, hput r⟩
  · rw [hpc]
    exact hc
  · rw [hpc]
    exact fun r hr => absurd hr (hput r)
  · rw [hpc]
    exact hready.congr (fun j hj => by rwa [hentry]) hl.live hl.target hl.user
  · rw [hdisk]
    exact hholes
  · rw [touch_of_lock hlock', hdisk, hentry, hpc]
    exact hok

theorem take_step (h : Inv s) (hfree : (s.entry i).lock = none) (hbacked : s.Backed t i c)
    (hc : ∀ j, j ≠ i → c.touch j = (s.pc t).touch j) (hput : ∀ r, ¬ c.Putting r)
    (hready : ((s.setEntry i fun e => { e with lock := some t }).goto t c).Ready t c)
    (hok : Ok (s.entry i) (s.onDisk i) (c.touch i)) :
    Inv ((s.setEntry i fun e => { e with lock := some t }).goto t c) := by
  obtain ⟨v, hv⟩ : ∃ v, v = (s.setEntry i fun e => { e with lock := some t }).goto t c := ⟨_, rfl⟩
  rw [← hv] at hready ⊢
  have hl : Local s v i t := by
    rw [hv]
    exact .setEntry ⟨rfl, rfl, rfl⟩
  have hself : v.entry i = { s.entry i with lock := some t } := by
    rw [hv]
    exact Function.update_self ..
  have hpc : v.pc t = c := by
    rw [hv]
    exact Function.update_self ..
  have hlock' : (v.entry i).lock = some t := by rw [hself]
  have hdisk : v.onDisk i = s.onDisk i := by
    rw [State.onDisk, hl.dev, hl.inum, hv]
    rfl
  have hi : 0 < (s.entry i).ref := by
    obtain ⟨r, hr, rfl, -⟩ := hbacked
    exact h.ref_pos hr
  refine h.of_local hl hi (.inl hfree) (.inr ⟨hlock', by rwa [hpc]⟩) ?_ ?_ ?_ ?_ ?_
  · rw [hpc]
    exact hc
  · rw [hpc]
    exact fun r hr => absurd hr (hput r)
  · rwa [hpc]
  · rw [hdisk]
    exact h.holes _ _
  · rw [touch_of_lock hlock', hself, hdisk, hpc]
    exact hok.congr rfl rfl

theorem release_step (h : Inv s) (hlock : (s.entry i).lock = some t) (hc : ∀ j, j ≠ i → c.touch j = (s.pc t).touch j)
    (hput : ∀ r, c.Putting r → s.target r = i ∨ (s.pc t).Putting r)
    (hready : ((s.setEntry i fun e => { e with lock := none }).goto t c).Ready t c)
    (hok : Ok (s.entry i) (s.onDisk i) .rest) : Inv ((s.setEntry i fun e => { e with lock := none }).goto t c) := by
  obtain ⟨v, hv⟩ : ∃ v, v = (s.setEntry i fun e => { e with lock := none }).goto t c := ⟨_, rfl⟩
  rw [← hv] at hready ⊢
  have hl : Local s v i t := by
    rw [hv]
    exact .setEntry ⟨rfl, rfl, rfl⟩
  have hself : v.entry i = { s.entry i with lock := none } := by
    rw [hv]
    exact Function.update_self ..
  have hpc : v.pc t = c := by
    rw [hv]
    exact Function.update_self ..
  have hlock' : (v.entry i).lock = none := by rw [hself]
  have hdisk : v.onDisk i = s.onDisk i := by
    rw [State.onDisk, hl.dev, hl.inum, hv]
    rfl
  refine h.of_local hl (h.ref_pos_of_lock hlock) (.inr hlock) (.inl hlock') ?_ ?_ ?_ ?_ ?_
  · rw [hpc]
    exact hc
  · rw [hpc]
    exact hput
  · rwa [hpc]
  · rw [hdisk]
    exact h.holes _ _
  · rw [touch_of_free hlock', hself, hdisk]
    exact hok

end Inv

end

end Xv6.Inodes
