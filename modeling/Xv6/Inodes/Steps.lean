import Xv6.Inodes.Shared

/-!
# Every step of every thread
-/

open Xv6.Lib Op

namespace Xv6.Inodes

open Xv6.Files (Dinode FileType NINODE)

variable {s u : State} {t r i : Nat} {c : Pc}

/-- The panics that say that `ilock` and `iunlock` were called without a reference, and that `iput` went to sleep with
`itable.lock` held. -/
def Misuse (msg : String) : Prop := msg ∈ ["ilock", "iunlock", "sched locks"]

instance : DecidablePred Misuse := fun msg => inferInstanceAs (Decidable (msg ∈ _))

theorem goto_of_pc {s : State} (h : s.pc t = c) : s.goto t c = s := by
  rw [State.goto, ← h, Function.update_eq_self]

theorem onCopy_ends {α : Type} {x : Op Dinode α} {Q : α → Dinode → Prop} {E : String → Prop}
    (h : Ends x (s.entry i).copy Q E) :
    Ends (onCopy i x) s (fun a u => ∃ n, Q a n ∧ u = s.setEntry i fun e => { e with copy := n }) E := by
  simp only [Ends, onCopy] at *
  cases hx : x (s.entry i).copy with
  | error msg =>
    rw [hx] at h
    exact h
  | ok p =>
    rw [hx] at h
    exact ⟨p.2, h, rfl⟩

namespace Inv

theorem held_ok (h : Inv s) (hlock : (s.entry i).lock = some t) (hpc : (s.pc t).touch i = .held) :
    (s.entry i).valid = true ∧ Clean (s.entry i) (s.onDisk i) := by
  have hok := h.ok i (h.ref_pos_of_lock hlock)
  rw [touch_of_lock hlock, hpc] at hok
  exact hok

theorem ok_of_lock (h : Inv s) (hlock : (s.entry i).lock = some t) :
    Ok (s.entry i) (s.onDisk i) ((s.pc t).touch i) := by
  rw [← touch_of_lock hlock]
  exact h.ok i (h.ref_pos_of_lock hlock)

theorem copy_holeFree (h : Inv s) (hclean : Clean (s.entry i) (s.onDisk i)) : HoleFree (s.entry i).copy := by
  rw [hclean.1]
  exact h.holes _ _

/-! ## `iput` -/

theorem put_start (h : Inv s) (hpc : s.pc t = .put r i .start) :
    Ends (put t r i .start) s (fun _ u => Inv u) (¬ Misuse ·) := by
  have hready := h.ready t
  rw [hpc] at hready
  obtain ⟨hr, rfl, hur, huniq, -⟩ := hready
  simp only [put, ends_bind, ends_gets, ends_ite, ends_stop, setEntry, ends_update, goto]
  rw [and_imp, and_imp]
  refine ⟨fun hone hvalid hnlink => ⟨fun hfree => ?_, fun hlock => ?_⟩, fun _ => ?_⟩
  · refine h.take_step hfree ⟨r, hr, rfl, hur, fun hp => by cases hp.2⟩ (fun j hj => ?_) (fun r' hp => by cases hp.2) ?_ ?_
    · rw [hpc]
      simp [Pc.touch, Put.touch]
    · exact ⟨hr, rfl, hur, huniq, fun _ => by simp [State.setEntry, State.goto]⟩
    · have hok := h.ok _ (h.ref_pos hr)
      rw [touch_of_free hfree] at hok
      simp only [Pc.touch, if_true, Put.touch]
      exact ⟨hvalid, hok hvalid⟩
  · -- The holder would have another reference.
    obtain ⟨t', ht'⟩ := Option.ne_none_iff_exists'.mp hlock
    obtain ⟨r', hr', hto, hu', hp'⟩ := h.backed _ t' ht'
    by_cases hne : r' = r
    · subst hne
      rw [huniq t' hu', hpc] at hp'
      exact absurd ⟨rfl, rfl⟩ hp'
    · exact absurd hone (h.ref_two hr hr' hne hto)
  · exact h.drop_step hpc rfl

theorem touch_put {ph ph' : Put} {j : Nat} (hpc : s.pc t = .put r i ph) (hj : j ≠ i) :
    (Pc.put r i ph').touch j = (s.pc t).touch j := by
  rw [hpc]
  simp [Pc.touch, Ne.symm hj]

theorem touch_put_self {ph : Put} : (Pc.put r i ph).touch i = ph.touch := by simp [Pc.touch]

theorem put_ends (h : Inv s) {ph : Put} (hpc : s.pc t = .put r i ph) :
    Ends (put t r i ph) s (fun _ u => Inv u) (¬ Misuse ·) := by
  have hready := h.ready t
  rw [hpc] at hready
  obtain ⟨hr, htr, hur, huniq, hlock⟩ := hready
  have hnext : ∀ ph' : Put, (s.entry i).lock = some t → s.Ready t (.put r i ph') := fun ph' hl =>
    ⟨hr, htr, hur, huniq, fun _ => hl⟩
  have hok : ph.locked = true → Ok (s.entry i) (s.onDisk i) ph.touch := by
    intro hph
    have := h.ok_of_lock (hlock hph)
    rwa [hpc, touch_put_self] at this
  cases ph with
  | start => exact h.put_start hpc
  | itrunc =>
    obtain ⟨hvalid, hclean⟩ := hok rfl
    refine h.held_step (hlock rfl) ⟨rfl, rfl, rfl⟩ rfl (fun j hj => touch_put hpc hj) (fun r' hp => by cases hp.2)
      (hnext _ (hlock rfl)) ?_
    rw [touch_put_self]
    refine ⟨hvalid, ?_, hclean.2, itrunc_holeFree⟩
    rw [← hclean.1]
    rfl
  | update =>
    obtain ⟨hvalid, htype, hne, hholes⟩ := hok rfl
    refine h.update_step (hlock rfl) (fun j hj => touch_put hpc hj) (fun r' hp => by cases hp.2) (hnext _ (hlock rfl)) hholes ?_
    rw [touch_put_self]
    exact ⟨hvalid, rfl, by rwa [htype]⟩
  | type =>
    obtain ⟨hvalid, hclean⟩ := hok rfl
    refine h.held_step (hlock rfl) ⟨rfl, rfl, rfl⟩ rfl (fun j hj => touch_put hpc hj) (fun r' hp => by cases hp.2)
      (hnext _ (hlock rfl)) ?_
    rw [touch_put_self]
    exact ⟨rfl, hclean.2, h.copy_holeFree hclean⟩
  | free =>
    obtain ⟨-, -, hholes⟩ := hok rfl
    refine h.update_step (hlock rfl) (fun j hj => touch_put hpc hj) (fun r' hp => by cases hp.2) (hnext _ (hlock rfl)) hholes ?_
    rw [touch_put_self]
    trivial
  | invalid =>
    refine h.held_step (hlock rfl) ⟨rfl, rfl, rfl⟩ rfl (fun j hj => touch_put hpc hj) (fun r' hp => by cases hp.2)
      (hnext _ (hlock rfl)) ?_
    rw [touch_put_self]
    rfl
  | unlock =>
    have hinvalid : (s.entry i).valid = false := hok rfl
    refine h.release_step (hlock rfl) (fun j hj => touch_put hpc hj) (fun r' hp => .inl (hp.1 ▸ htr))
      ⟨hr, htr, hur, huniq, (by rintro ⟨⟩)⟩ fun hvalid => ?_
    rw [hinvalid] at hvalid
    cases hvalid
  | drop => exact h.drop_step hpc rfl

/-! ## `ilock` and `ialloc` -/

theorem alloc_step (h : Inv s) {dev inum : Nat} {type : FileType} (hfree : (s.disk dev inum).type = .free) :
    Inv (s.setDisk dev inum { type := type }) := by
  have hdisk : ∀ d n, ¬ (d = dev ∧ n = inum) → (s.setDisk dev inum { type := type }).disk d n = s.disk d n := by
    intro d n hne
    show Function.update s.disk _ _ d n = _
    by_cases hd : d = dev
    · subst hd
      rw [Function.update_self, Function.update_of_ne fun hn => hne ⟨rfl, hn⟩]
    · rw [Function.update_of_ne hd]
  refine ⟨h.nodup, h.bound, h.ref, h.unique, h.backed, h.ready, fun d n => ?_, fun j hj => ?_⟩
  · by_cases he : d = dev ∧ n = inum
    · rw [he.1, he.2]
      show HoleFree (Function.update s.disk _ (Function.update _ _ _) _ _)
      rw [Function.update_self, Function.update_self]
      exact .empty
    · rw [hdisk d n he]
      exact h.holes d n
  · show Ok (s.entry j) _ (s.touch j)
    have hok := h.ok j hj
    by_cases he : (s.entry j).dev = dev ∧ (s.entry j).inum = inum
    · have hold : (s.onDisk j).type = .free := by rw [State.onDisk, he.1, he.2, hfree]
      cases htouch : s.touch j with
      | rest =>
        rw [htouch] at hok
        exact fun hvalid => absurd hold (hok hvalid).2
      | held =>
        rw [htouch] at hok
        exact absurd hold hok.2.2
      | loaded =>
        rw [htouch] at hok
        exact .inr (hok.elim (fun hc => by rw [hc, hold]) id)
      | dirty =>
        rw [htouch] at hok
        exact absurd hold hok.2.2.1
      | freed =>
        rw [htouch] at hok
        exact absurd hold hok.2.1
      | dead => trivial
      | invalid =>
        rw [htouch] at hok
        exact hok
    · rw [show (s.setDisk dev inum { type := type }).onDisk j = s.onDisk j from hdisk _ _ he]
      exact hok

theorem move (h : Inv s) (hbefore : ∀ j, (s.pc t).touch j = .held) (hafter : ∀ j, c.touch j = .held)
    (hput : ∀ r, ¬ c.Putting r) (hready : s.Ready t c) : Inv (s.goto t c) := by
  refine h.jump (fun j => by rw [hbefore, hafter]) (fun j hj => ?_) hready
  obtain ⟨r, hr, htarget, huser, -⟩ := h.backed j t hj
  exact ⟨r, hr, htarget, huser, hput r⟩

theorem step_ends (h : Inv s) {ninodes : Nat} (hpc : s.pc t = c) :
    Ends (step ninodes t r c) s (fun _ u => Inv u) (¬ Misuse ·) := by
  have hready := h.ready t
  rw [hpc] at hready
  cases c with
  | idle => simp [step, Misuse]
  | lock i =>
    simp only [step, ends_bind, ends_gets, ends_ite, ends_stop, setEntry, ends_update, goto]
    refine ⟨fun hfree => ?_, fun _ => by decide⟩
    obtain ⟨r', hr', htr, hur, -⟩ := hready
    refine h.take_step hfree ⟨r', hr', htr, hur, id⟩ (fun j hj => ?_) (fun _ => id) ?_ ?_
    · rw [hpc]
      simp [Pc.touch, Ne.symm hj]
    · simp [State.Ready, State.setEntry, State.goto]
    · subst htr
      have hok := h.ok _ (h.ref_pos hr')
      rw [touch_of_free hfree] at hok
      simpa [Pc.touch] using hok
  | load i =>
    have hok := h.ok_of_lock hready
    simp only [hpc, Pc.touch, if_true] at hok
    simp only [step, ends_bind, ends_gets, ends_ite, ends_update, goto]
    refine ⟨fun hvalid => ?_, fun hinvalid => ?_⟩
    · have hstep := h.held_step (f := id) (c := .idle) hready ⟨rfl, rfl, rfl⟩ rfl (fun j hj => ?_) (fun _ => id) trivial
        ⟨hvalid, hok hvalid⟩
      · rwa [State.setEntry, id, Function.update_eq_self] at hstep
      · rw [hpc]
        simp [Pc.touch, Ne.symm hj]
    · refine h.held_step (f := fun e => { e with copy := s.disk e.dev e.inum }) hready ⟨rfl, rfl, rfl⟩ rfl (fun j hj => ?_)
        (fun _ => id) hready ?_
      · rw [hpc]
        simp [Pc.touch, Ne.symm hj]
      · simp only [Pc.touch, if_true]
        exact .inl rfl
  | loaded i =>
    have hok := h.ok_of_lock hready
    simp only [hpc, Pc.touch, if_true] at hok
    simp only [step, ends_bind, ends_gets, ends_ite, ends_stop, ends_update, goto, setEntry]
    refine ⟨fun _ => by decide, fun htype => ?_⟩
    have hcopy : ((s.setEntry i fun e => { e with valid := true }).entry i).copy = (s.entry i).copy := by
      simp [State.setEntry]
    rw [hcopy] at htype
    refine h.held_step hready ⟨rfl, rfl, rfl⟩ rfl (fun j hj => ?_) (fun _ => id) trivial ?_
    · rw [hpc]
      simp [Pc.touch, Ne.symm hj]
    · have he := hok.resolve_right htype
      exact ⟨rfl, he, he ▸ htype⟩
  | dirty i =>
    have hok := h.ok_of_lock hready
    simp only [hpc, Pc.touch, if_true] at hok
    obtain ⟨hvalid, htype, hne, hholes⟩ := hok
    refine h.update_step hready (fun j hj => ?_) (fun _ => id) trivial hholes ⟨hvalid, rfl, by rwa [htype]⟩
    rw [hpc]
    simp [Pc.touch, Ne.symm hj]
  | scan dev type inum =>
    have hbefore : ∀ j, (s.pc t).touch j = .held := fun j => by rw [hpc]; rfl
    simp only [step, ends_bind, ends_gets, ends_ite, ends_update, goto]
    refine ⟨fun _ => h.move hbefore (fun _ => rfl) (fun _ => id) trivial, fun _ => ⟨fun hfree => ?_, fun _ => ?_⟩⟩
    · exact (h.alloc_step hfree).move hbefore (fun _ => rfl) (fun _ => id) trivial
    · exact h.move hbefore (fun _ => rfl) (fun _ => id) trivial
  | alloc dev inum =>
    simp only [step, ends_bind, ends_gets, ends_ite, ends_stop]
    refine ⟨fun _ => by decide, fun hr => ?_⟩
    refine Ends.mono ((h.iget_ends hr).weaken ?_) ?_
    · rintro _ rfl
      decide
    · rintro _ u ⟨hu, hpcs⟩
      exact hu.move (fun j => by rw [hpcs, hpc]; rfl) (fun _ => rfl) (fun _ => id) trivial
  | put r' i ph => exact h.put_ends hpc

/-! ## Calls -/

theorem edit_step (h : Inv s) {n : Dinode} (hpc : s.pc t = .idle) (hlock : (s.entry i).lock = some t)
    (htype : n.type = (s.entry i).copy.type) (hholes : HoleFree n) :
    Inv ((s.setEntry i fun e => { e with copy := n }).goto t (.dirty i)) := by
  obtain ⟨hvalid, hclean⟩ := h.held_ok hlock (by rw [hpc]; rfl)
  refine h.held_step hlock ⟨rfl, rfl, rfl⟩ rfl (fun j hj => ?_) (fun _ => id) hlock ?_
  · rw [hpc]
    simp [Pc.touch, Ne.symm hj]
  · simp only [Pc.touch, if_true]
    exact ⟨hvalid, by rw [htype, hclean.1], hclean.2, hholes⟩

theorem setEntry_copy (s : State) (i : Nat) : (s.setEntry i fun e => { e with copy := (s.entry i).copy }) = s := by
  rw [State.setEntry, show _ = s.entry i from rfl, Function.update_eq_self]

theorem call_ends (h : Inv s) (a : Act) (hpc : s.pc a.thread = .idle) (hallowed : s.Allowed a) :
    Ends (call a) s (fun _ u => Inv u) (¬ Misuse ·) := by
  cases a with
  | iget t dev inum r =>
    refine Ends.mono ((h.iget_ends hallowed).weaken ?_) fun _ u hu => hu.1
    rintro _ rfl
    decide
  | idup t r r' => exact h.idup_ends hallowed.1 hallowed.2.2
  | share t r t' =>
    exact h.reuse (fun _ hmem => .inl (List.mem_cons_of_mem _ hmem)) fun _ _ _ hput => h.idle_ne_put hpc hallowed.2 hput
  | unshare t r t' =>
    obtain ⟨-, hur, -, -, hother⟩ := hallowed
    refine h.reuse (fun t'' hmem => ?_) fun _ _ _ hput => h.idle_ne_put hpc hur hput
    by_cases he : t'' = t
    · subst he
      exact .inr ⟨hpc, hother⟩
    · exact .inl (List.mem_filter.mpr ⟨hmem, by simpa using he⟩)
  | ilock t i =>
    change s.pc t = .idle at hpc
    obtain ⟨r, hr, htr, hur⟩ := hallowed
    simp only [call, ends_bind, ends_gets, ends_ite, ends_stop, ends_update, goto]
    refine ⟨fun hzero => ?_, fun _ => ?_⟩
    · have := h.ref_pos hr
      rw [htr] at this
      omega
    · exact h.move (fun j => by rw [hpc]; rfl) (fun _ => rfl) (fun _ => id) ⟨r, hr, htr, hur, id⟩
  | iunlock t i =>
    change s.pc t = .idle at hpc
    have hlock : (s.entry i).lock = some t := hallowed
    simp only [call, ends_bind, ends_gets, ends_ite, ends_stop, ends_update, setEntry]
    refine ⟨fun hzero => ?_, fun _ => ?_⟩
    · have := h.ref_pos_of_lock hlock
      omega
    · rw [← goto_of_pc (s := s.setEntry i fun e => { e with lock := none }) hpc]
      refine h.release_step hlock (fun j _ => by rw [hpc]) (fun _ => False.elim) trivial fun _ => ?_
      exact (h.held_ok hlock (by rw [hpc]; rfl)).2
  | edit t i e =>
    change s.pc t = .idle at hpc
    have hlock : (s.entry i).lock = some t := hallowed
    have hclean := (h.held_ok hlock (by rw [hpc]; rfl)).2
    obtain ⟨htype, hholes⟩ := e.apply_ok (h.copy_holeFree hclean)
    exact h.edit_step hpc hlock htype hholes
  | readi t i e off n =>
    change s.pc t = .idle at hpc
    have hlock : (s.entry i).lock = some t := hallowed
    have hclean := (h.held_ok hlock (by rw [hpc]; rfl)).2
    refine Ends.mono ((onCopy_ends (readi_ends (h.copy_holeFree hclean) n)).weaken ?_) ?_
    · rintro _ rfl
      decide
    · rintro _ u ⟨_, rfl, rfl⟩
      rwa [setEntry_copy]
  | writei t i e off n =>
    change s.pc t = .idle at hpc
    have hlock : (s.entry i).lock = some t := hallowed
    have hclean := (h.held_ok hlock (by rw [hpc]; rfl)).2
    rw [call, ends_bind]
    refine Ends.mono ((onCopy_ends (writei_ends (h.copy_holeFree hclean) n)).weaken ?_) ?_
    · rintro _ rfl
      decide
    · rintro wrote u ⟨m, ⟨hnone, htype, hholes⟩, rfl⟩
      simp only [ends_ite, ends_pure, goto, ends_update]
      refine ⟨fun _ => h.edit_step hpc hlock htype hholes, fun hw => ?_⟩
      rw [hnone (by simpa using hw), setEntry_copy]
      exact h
  | ialloc t dev type =>
    change s.pc t = .idle at hpc
    exact h.move (fun j => by rw [hpc]; rfl) (fun _ => rfl) (fun _ => id) trivial
  | iput t r =>
    change s.pc t = .idle at hpc
    obtain ⟨hr, hur, huniq, hother⟩ := hallowed
    refine h.jump (fun j => ?_) (fun j hj => ?_) ⟨hr, rfl, hur, huniq, (by rintro ⟨⟩)⟩
    · rw [hpc]
      simp [Pc.touch, Put.touch]
    · obtain ⟨r', hr', rfl, hur', -⟩ := h.backed j t hj
      by_cases he : r' = r
      · subst he
        obtain ⟨r'', hr'', hne, ht'', hu''⟩ := hother hj
        exact ⟨r'', hr'', ht'', hu'', fun hp => hne hp.1.symm⟩
      · exact ⟨r', hr', rfl, hur', fun hp => he hp.1.symm⟩
  | step t r => exact h

theorem run_ends (h : Inv s) (ninodes : Nat) (a : Act) : Ends (run ninodes a) s (fun _ u => Inv u) (¬ Misuse ·) := by
  cases a with
  | step t r => exact h.step_ends rfl
  | _ =>
    simp only [run, ends_bind, ends_gets, ends_ite, ends_stop, id]
    exact ⟨fun hgo => h.call_ends _ hgo.1 hgo.2, fun _ => by decide⟩

end Inv

/-! ## Every run -/

theorem start_inv {disk : Nat → Nat → Dinode} (h : ∀ dev inum, HoleFree (disk dev inum)) : Inv (start disk) := by
  refine ⟨List.nodup_nil, (by intros; contradiction), fun _ => rfl, fun i _ hi => ?_, (by intros; contradiction),
    fun _ => trivial, h, fun i hi => ?_⟩
  · exact absurd hi (Nat.lt_irrefl 0)
  · exact absurd hi (Nat.lt_irrefl 0)

theorem inv_of_path {disk : Nat → Nat → Dinode} {ninodes : Nat} (hdisk : ∀ dev inum, HoleFree (disk dev inum))
    (h : Path (run ninodes) (fun _ _ => True) (start disk) s) : Inv s :=
  h.invariant (start_inv hdisk) fun a _ _ hs _ hrun => (hs.run_ends ninodes a).of_ok hrun

def image : Nat → Nat → Dinode := fun _ inum => { type := .file, nlink := if inum = 2 then 0 else 1 }

def reallocated : List Act :=
  [.iget 0 1 2 0, .ilock 0 0] ++ List.replicate 3 (.step 0 0) ++ [.iunlock 0 0, .iput 0 0] ++
    List.replicate 5 (.step 0 0) ++ [.ialloc 1 1 .dir] ++ List.replicate 3 (.step 1 1) ++ [.ilock 1 0] ++
    List.replicate 2 (.step 0 0) ++ List.replicate 3 (.step 1 1) ++ [.step 0 0, .iunlock 1 0]

def usedAgain : List Act :=
  [.iget 0 1 1 0, .iget 0 1 3 1, .ilock 0 1] ++ List.replicate 3 (.step 0 0) ++
    [.iunlock 0 1, .iput 0 1, .step 0 0, .iput 0 0, .step 0 0, .iget 0 1 3 2, .ilock 0 0] ++
    List.replicate 3 (.step 0 0) ++ [.edit 0 0 .link, .step 0 0, .iunlock 0 0]

end Xv6.Inodes
