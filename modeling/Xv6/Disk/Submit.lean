import Xv6.Disk.Requests

/-!
# Making a request and taking it back

The steps of `virtio_disk_rw` that change who owns descriptors, and the invariant along every run.
-/

open Xv6.Lib Op

namespace Xv6.Disk

variable {s u : State} {t b i : Nat} {idx : Idx} {c : Pc}

/-! ## Taking descriptors and giving them back -/

/-- How taking the descriptors `idx` for buffer `b` changes the driver's state. -/
structure Opened (s u : State) (t b : Nat) (idx : Idx) : Prop where
  out : s.view t = none
  own : (s.buf b).lock = some t
  fresh : ∀ i ∈ Idx.list idx, s.free i = true
  view : u.view = Function.update s.view t (some (b, idx, true))
  live : u.live = t :: s.live
  free : u.free = fun i => if i ∈ Idx.list idx then false else s.free i
  chain : Chain u b idx
  desc : ∀ i, i ∉ Idx.list idx → u.desc i = s.desc i
  head : (u.info idx.1).b = some b
  info : ∀ k, k ≠ idx.1 → u.info k = s.info k
  buf : u.buf = Function.update s.buf b { s.buf b with disk := true }
  sets : u.sets = Function.update s.sets b (s.sets b + 1)
  queues : u.pending = s.pending ∧ u.finished = s.finished
  counts : u.reports = s.reports ∧ u.clears = s.clears ∧ u.unseen = s.unseen

namespace Opened

variable (ho : Opened s u t b idx) (h : Inv s)
include ho h

/-- The descriptors of the other requests were not free. -/
theorem off {t' b' : Nat} {idx' : Idx} {w : Bool} (ht' : s.view t' = some (b', idx', w)) :
    t' ≠ t ∧ b' ≠ b ∧ ∀ i ∈ Idx.list idx', i ∉ Idx.list idx := by
  have hne : t' ≠ t := by
    rintro rfl
    rw [ho.out] at ht'
    cases ht'
  refine ⟨hne, ?_, fun i hi hmem => ?_⟩
  · rintro rfl
    have := h.buf t' b' (Pc.buf_of_view ht')
    exact hne (Option.some.inj (this.symm.trans ho.own))
  · have := (h.reqs.chain t' b' idx' w ht').used i hi
    rw [ho.fresh i hmem] at this
    cases this

theorem kept {r b' : Nat} {idx' : Idx} {w : Bool} (hr : s.view r = some (b', idx', w)) :
    u.view r = some (b', idx', w) := by
  rw [ho.view, Function.update_of_ne (ho.off h hr).1, hr]

theorem chain_kept {r b' : Nat} {idx' : Idx} {w : Bool} (hr : s.view r = some (b', idx', w)) : Chain u b' idx' := by
  have hno := (ho.off h hr).2.2
  exact (h.reqs.chain r b' idx' w hr).congr (fun i hi => by rw [ho.free]; simp [hno i hi])
    fun i hi => ho.desc i (hno i hi)

theorem reqs : Reqs u.view u where
  live := by
    rw [ho.live, ho.view]
    refine (Function.forall_update_iff s.view fun r v => r ∈ t :: s.live ↔ v.isSome = true).mpr ⟨by simp, fun r hrt => ?_⟩
    rw [List.mem_cons, or_iff_right hrt]
    exact h.reqs.live r
  nodup := by
    rw [ho.live]
    refine List.nodup_cons.mpr ⟨?_, h.reqs.nodup⟩
    rw [h.reqs.live, ho.out]
    simp
  chain r b' idx' w hr := by
    rw [ho.view] at hr
    obtain ⟨rfl, ⟨⟩⟩ | ⟨-, hr⟩ := update_cases hr
    · exact ho.chain
    · exact ho.chain_kept h hr
  apart r r' b₁ b₂ idx₁ idx₂ w₁ w₂ hne hr hr' := by
    rw [ho.view] at hr hr'
    obtain ⟨rfl, ⟨⟩⟩ | ⟨-, hr₁⟩ := update_cases hr
    · obtain ⟨hrr, -⟩ | ⟨-, hr'⟩ := update_cases hr'
      · exact absurd hrr.symm hne
      · obtain ⟨-, hb, hno⟩ := ho.off h hr'
        exact ⟨Ne.symm hb, fun i hi hi' => hno i hi' hi⟩
    · obtain ⟨rfl, ⟨⟩⟩ | ⟨-, hr'⟩ := update_cases hr'
      · exact (ho.off h hr₁).2
      · exact h.reqs.apart r r' b₁ b₂ idx₁ idx₂ w₁ w₂ hne hr₁ hr'
  owned i hi hfi := by
    by_cases hmem : i ∈ Idx.list idx
    · exact ⟨t, b, idx, true, by rw [ho.view, Function.update_self], hmem⟩
    · rw [ho.free] at hfi
      simp only [hmem, if_false] at hfi
      obtain ⟨r, b', idx', w, hr, hmem'⟩ := h.reqs.owned i hi hfi
      exact ⟨r, b', idx', w, ho.kept h hr, hmem'⟩

theorem idle : (s.buf b).disk = false := by
  by_contra hd
  obtain ⟨t', idx', w, ht'⟩ := h.flow.busy b (by simpa using hd)
  exact (ho.off h ht').2.1 rfl

theorem flow : Flow u.view u where
  nodup := by
    rw [ho.queues.1]
    exact h.flow.nodup
  owned k hk := by
    rw [ho.queues.1] at hk
    obtain ⟨r, b', idx', hr, he⟩ := h.flow.owned k hk
    exact ⟨r, b', idx', ho.kept h hr, he⟩
  disk r b' idx' w hr := by
    rw [ho.view] at hr
    obtain ⟨rfl, ⟨⟩⟩ | ⟨-, hr⟩ := update_cases hr
    · refine iff_of_true ?_ (.inl rfl)
      rw [ho.buf, Function.update_self]
    · rw [ho.buf, Function.update_of_ne (ho.off h hr).2.1, ho.queues.1]
      exact h.flow.disk r b' idx' w hr
  info r b' idx' w hr hw := by
    rw [ho.view] at hr
    obtain ⟨rfl, ⟨⟩⟩ | ⟨-, hr⟩ := update_cases hr
    · exact ho.head
    · have hne : idx'.1 ≠ idx.1 := fun he => (ho.off h hr).2.2 _ (Reqs.head_mem idx') (he ▸ Reqs.head_mem idx)
      rw [ho.info _ hne]
      rw [ho.queues.1] at hw
      exact h.flow.info r b' idx' w hr hw
  status k hk := by
    rw [ho.queues.2, ho.counts.2.2] at hk
    have hne : k ≠ idx.1 := by
      rintro rfl
      have := h.pending_used ((Inv.mem_pending s _).mpr (.inr (.inr hk)))
      rw [ho.fresh _ (Reqs.head_mem idx)] at this
      cases this
    rw [ho.info k hne]
    exact h.flow.status k hk
  busy b' hb := by
    by_cases hbb : b' = b
    · exact ⟨t, idx, true, by rw [ho.view, Function.update_self, hbb]⟩
    · rw [ho.buf, Function.update_of_ne hbb] at hb
      obtain ⟨r, idx', w, hr⟩ := h.flow.busy b' hb
      exact ⟨r, idx', w, ho.kept h hr⟩
  sets b' := by
    rw [ho.counts.2.1, ho.sets, ho.buf]
    by_cases hbb : b' = b
    · rw [hbb, Function.update_self, Function.update_self, h.flow.sets b, ho.idle h]
      rfl
    · rw [Function.update_of_ne hbb, Function.update_of_ne hbb, h.flow.sets b']
  reports := h.reports_kept ho.counts fun _ _ _ _ hr => ho.chain_kept h hr

end Opened

/-- The request of thread `t` is over. -/
def State.ended (s : State) (t b : Nat) (idx : Idx) : State :=
  { s with
    info := Function.update s.info idx.1 { s.info idx.1 with b := none }
    desc := fun i => if i ∈ Idx.list idx then zero else s.desc i
    free := fun i => if i ∈ Idx.list idx then true else s.free i
    vdisk_lock := none
    live := s.live.erase t
    buf := Function.update s.buf b { s.buf b with lock := none }
    pc := Function.update s.pc t .idle }

/-- How giving the descriptors `idx` of buffer `b` back changes the driver's state. -/
structure Closed (s u : State) (t b : Nat) (idx : Idx) : Prop where
  mine : s.view t = some (b, idx, false)
  done : (s.buf b).disk = false
  view : u.view = Function.update s.view t none
  live : u.live = s.live.erase t
  free : u.free = fun i => if i ∈ Idx.list idx then true else s.free i
  desc : ∀ i, i ∉ Idx.list idx → u.desc i = s.desc i
  info : ∀ k, k ≠ idx.1 → u.info k = s.info k
  disk : ∀ b', (u.buf b').disk = (s.buf b').disk
  sets : u.sets = s.sets
  queues : u.pending = s.pending ∧ u.finished = s.finished
  counts : u.reports = s.reports ∧ u.clears = s.clears ∧ u.unseen = s.unseen

namespace Closed

variable (hc : Closed s u t b idx) (h : Inv s) {r b' : Nat} {idx' : Idx} {w : Bool}
include hc

theorem other {v : Nat × Idx × Bool} (hr : u.view r = some v) : r ≠ t ∧ s.view r = some v := by
  rw [hc.view] at hr
  obtain ⟨-, ⟨⟩⟩ | hr := update_cases hr
  exact hr

theorem kept (hne : r ≠ t) (hr : s.view r = some (b', idx', w)) : u.view r = some (b', idx', w) := by
  rw [hc.view, Function.update_of_ne hne, hr]

include h

theorem off (hne : r ≠ t) (hr : s.view r = some (b', idx', w)) : ∀ i ∈ Idx.list idx', i ∉ Idx.list idx :=
  (h.reqs.apart r t b' b idx' idx w false hne hr hc.mine).2

theorem chain_kept (hne : r ≠ t) (hr : s.view r = some (b', idx', w)) : Chain u b' idx' := by
  have hno := hc.off h hne hr
  exact (h.reqs.chain r b' idx' w hr).congr (fun i hi => by rw [hc.free]; simp [hno i hi])
    fun i hi => hc.desc i (hno i hi)

/-- The request is no longer with the device. -/
theorem head_done : idx.1 ∉ s.pending := by
  intro hk
  have := (h.flow.disk t b idx false hc.mine).mpr (.inr hk)
  rw [hc.done] at this
  cases this

theorem ne_of_pending (hk : idx'.1 ∈ s.pending) (hr : s.view r = some (b', idx', false)) : r ≠ t := by
  rintro rfl
  obtain ⟨rfl, rfl⟩ : b = b' ∧ idx = idx' := by simpa using hc.mine.symm.trans hr
  exact hc.head_done h hk

theorem reqs : Reqs u.view u where
  live := by
    rw [hc.live, hc.view]
    refine (Function.forall_update_iff s.view fun r v => r ∈ s.live.erase t ↔ v.isSome = true).mpr
      ⟨iff_of_false h.reqs.nodup.not_mem_erase (by simp), fun r hrt => ?_⟩
    rw [h.reqs.nodup.mem_erase_iff, and_iff_right hrt]
    exact h.reqs.live r
  nodup := by
    rw [hc.live]
    exact h.reqs.nodup.erase t
  chain r b' idx' w hr := by
    obtain ⟨hne, hr⟩ := hc.other hr
    exact hc.chain_kept h hne hr
  apart r r' b₁ b₂ idx₁ idx₂ w₁ w₂ hne hr hr' :=
    h.reqs.apart r r' b₁ b₂ idx₁ idx₂ w₁ w₂ hne (hc.other hr).2 (hc.other hr').2
  owned i hi hfi := by
    rw [hc.free] at hfi
    by_cases hmem : i ∈ Idx.list idx
    · simp [hmem] at hfi
    · simp only [hmem, if_false] at hfi
      obtain ⟨r, b', idx', w, hr, hmem'⟩ := h.reqs.owned i hi hfi
      have hne : r ≠ t := by
        rintro rfl
        obtain ⟨rfl, rfl, -⟩ : b = b' ∧ idx = idx' ∧ false = w := by simpa using hc.mine.symm.trans hr
        exact hmem hmem'
      exact ⟨r, b', idx', w, hc.kept hne hr, hmem'⟩

theorem flow : Flow u.view u where
  nodup := by
    rw [hc.queues.1]
    exact h.flow.nodup
  owned k hk := by
    rw [hc.queues.1] at hk
    obtain ⟨r, b', idx', hr, rfl⟩ := h.flow.owned k hk
    exact ⟨r, b', idx', hc.kept (hc.ne_of_pending h hk hr) hr, rfl⟩
  disk r b' idx' w hr := by
    rw [hc.disk, hc.queues.1]
    exact h.flow.disk r b' idx' w (hc.other hr).2
  info r b' idx' w hr hw := by
    obtain ⟨hne, hr⟩ := hc.other hr
    have hidx : idx'.1 ≠ idx.1 := fun he => hc.off h hne hr _ (Reqs.head_mem idx') (he ▸ Reqs.head_mem idx)
    rw [hc.info _ hidx]
    rw [hc.queues.1] at hw
    exact h.flow.info r b' idx' w hr hw
  status k hk := by
    rw [hc.queues.2, hc.counts.2.2] at hk
    have hne : k ≠ idx.1 := by
      rintro rfl
      exact hc.head_done h ((Inv.mem_pending s _).mpr (.inr (.inr hk)))
    rw [hc.info k hne]
    exact h.flow.status k hk
  busy b' hb := by
    rw [hc.disk] at hb
    obtain ⟨r, idx', w, hr⟩ := h.flow.busy b' hb
    have hne : r ≠ t := by
      rintro rfl
      obtain ⟨rfl, -⟩ : b = b' ∧ _ := by simpa using hc.mine.symm.trans hr
      rw [hc.done] at hb
      cases hb
    exact ⟨r, idx', w, hc.kept hne hr⟩
  sets b' := by
    rw [hc.disk, hc.sets, hc.counts.2.1]
    exact h.flow.sets b'
  reports := h.reports_kept hc.counts fun _ _ _ hk hr => hc.chain_kept h (hc.ne_of_pending h hk hr) hr

end Closed

namespace Inv

/-! ## Requests -/

theorem redesc (h : Inv s) {desc : Nat → Desc} (hdesc : ∀ i, s.free i = false → desc i = s.desc i) :
    Inv { s with desc := desc } := by
  have hchain : ∀ t b idx w, s.view t = some (b, idx, w) → Chain { s with desc := desc } b idx := by
    intro t b idx w ht
    have hc := h.reqs.chain t b idx w ht
    exact hc.congr (fun _ _ => rfl) fun i hi => hdesc i (hc.used i hi)
  refine ⟨h.lock, h.buf, h.bump, { h.reqs with chain := hchain }, ?_, { h.rings with }⟩
  exact { h.flow with reports := h.reports_kept ⟨rfl, rfl, rfl⟩ fun r b idx _ => hchain r b idx false }

theorem ring_step (h : Inv s) (hpc : s.pc t = .ring b idx) :
    Inv { s with
      availRing := Function.update s.availRing (s.availIdx.toNat % NUM) idx.1
      pc := Function.update s.pc t (.bump b idx) } := by
  have hview : (Pc.bump b idx).view = (s.pc t).view := by
    rw [hpc]
    rfl
  have hl : s.vdisk_lock = some t := h.lock t (by rw [hpc]; rfl)
  have hslot : s.availIdx.toNat % NUM = s.sent.length % NUM := by rw [h.rings.availIdx, toNat_mod]
  have ht : s.view t = some (b, idx, true) := by
    rw [State.view, hpc]
    rfl
  have hv := view_goto (u := { s with
    availRing := Function.update s.availRing (s.availIdx.toNat % NUM) idx.1
    pc := Function.update s.pc t (.bump b idx) }) hview rfl
  have hfull := h.queue_room ht
  refine ⟨h.lock_goto (.inl rfl) fun _ => hl, h.buf_goto fun b' hb' => ?_, ?_, ?_, ?_, ?_⟩
  · refine h.buf t b' ?_
    rw [hpc]
    exact hb'
  · -- Only the holder of the lock is there.
    refine (Function.forall_update_iff s.pc fun _ c => ∀ b idx', c = .bump b idx' → _ = idx'.1).mpr ⟨?_, ?_⟩
    · rintro _ _ ⟨⟩
      show Function.update s.availRing (s.availIdx.toNat % NUM) idx.1 (s.sent.length % NUM) = idx.1
      rw [hslot, Function.update_self]
    · intro r hrt b' idx' hr
      exact absurd (h.eq_holder hl (by rw [hr]; rfl)) hrt
  · rw [hv]
    exact h.reqs.congr rfl rfl rfl
  · rw [hv]
    exact { h.flow with }
  · refine { h.rings with avail := ?_ }
    dsimp only
    rw [hslot]
    exact h.rings.avail.write hfull

theorem bump_step (h : Inv s) (hpc : s.pc t = .bump b idx) :
    Inv { s with
      availIdx := s.availIdx + 1
      sent := s.sent ++ [idx.1]
      pc := Function.update s.pc t (.check b idx) } := by
  have hl : s.vdisk_lock = some t := h.lock t (by rw [hpc]; rfl)
  have ht : s.view t = some (b, idx, true) := by
    rw [State.view, hpc]
    rfl
  obtain ⟨u, hu⟩ : ∃ u : State, u = { s with
      availIdx := s.availIdx + 1
      sent := s.sent ++ [idx.1]
      pc := Function.update s.pc t (.check b idx) } := ⟨_, rfl⟩
  rw [← hu]
  have hview : u.view = Function.update s.view t (some (b, idx, false)) := view_update (c := .check b idx) (by rw [hu])
  have hshape : ∀ r, (u.view r).map (fun v => (v.1, v.2.1)) = (s.view r).map fun v => (v.1, v.2.1) := by
    rw [hview]
    refine (Function.forall_update_iff s.view fun r v =>
      v.map (fun v => (v.1, v.2.1)) = (s.view r).map fun v => (v.1, v.2.1)).mpr ⟨?_, fun _ _ => rfl⟩
    rw [ht]
    rfl
  have hqueued : u.queued = s.queued ++ [idx.1] := by
    rw [hu]
    exact List.drop_append_of_le_length h.rings.avail.le
  have hpend : u.pending.Perm (idx.1 :: s.pending) := by
    have : u.pending = u.queued ++ s.taken ++ s.finished ++ s.unseen := by
      rw [State.pending, hu]
      rfl
    rw [this, State.pending, hqueued]
    simp only [List.append_assoc, List.singleton_append]
    exact List.perm_middle
  have hnew := h.head_not_pending ht
  have hreqs := h.reqs.resend hshape
  refine ⟨?_, ?_, ?_, hreqs.congr (by rw [hu]) (by rw [hu]) (by rw [hu]), ?_, ?_⟩
  · rw [hu]
    exact h.lock_goto (.inl rfl) fun _ => hl
  · rw [hu]
    refine h.buf_goto fun b' hb' => h.buf t b' ?_
    rw [hpc]
    exact hb'
  · intro r b' idx' hr
    rw [hu] at hr
    obtain ⟨-, ⟨⟩⟩ | ⟨hne, hr⟩ := update_cases hr
    exact absurd (h.eq_holder hl (by rw [hr]; rfl)) hne
  · have hbuf : u.buf = s.buf := by rw [hu]
    have hinfo : u.info = s.info := by rw [hu]
    have hother : ∀ r b' idx' w, r ≠ t → s.view r = some (b', idx', w) → idx'.1 ≠ idx.1 := fun r b' idx' w hne hr he =>
      hne (h.reqs.unique hr ht (Reqs.head_mem idx') (he ▸ Reqs.head_mem idx))
    rw [hview]
    refine ⟨hpend.nodup_iff.mpr (List.nodup_cons.mpr ⟨hnew, h.flow.nodup⟩), ?_, ?_, ?_, by rw [hu]; exact h.flow.status, ?_,
      by rw [hu]; exact h.flow.sets, by rw [hu]; exact h.flow.reports⟩
    · intro k hk
      obtain rfl | hk := List.mem_cons.mp (hpend.mem_iff.mp hk)
      · exact ⟨t, b, idx, Function.update_self .., rfl⟩
      · obtain ⟨t', b', idx', ht', hidx⟩ := h.flow.owned k hk
        have hne : t' ≠ t := by
          rintro rfl
          rw [ht] at ht'
          simp at ht'
        exact ⟨t', b', idx', by rw [Function.update_of_ne hne, ht'], hidx⟩
    · intro r b' idx' w hr
      rw [hbuf, hpend.mem_iff, List.mem_cons]
      obtain ⟨rfl, ⟨⟩⟩ | ⟨hne, hr⟩ := update_cases hr
      · exact iff_of_true ((h.flow.disk r b idx true ht).mpr (.inl rfl)) (.inr (.inl rfl))
      · rw [or_iff_right (hother r b' idx' w hne hr)]
        exact h.flow.disk r b' idx' w hr
    · intro r b' idx' w hr hw
      rw [hinfo]
      obtain ⟨rfl, ⟨⟩⟩ | ⟨hne, hr⟩ := update_cases hr
      · exact h.flow.info r b idx true ht (.inl rfl)
      · rw [hpend.mem_iff, List.mem_cons, or_iff_right (hother r b' idx' w hne hr)] at hw
        exact h.flow.info r b' idx' w hr hw
    · intro b' hb
      rw [hbuf] at hb
      obtain ⟨r, idx', w, hr⟩ := h.flow.busy b' hb
      by_cases hne : r = t
      · subst hne
        obtain ⟨rfl, -⟩ : b = b' ∧ _ := by simpa using ht.symm.trans hr
        exact ⟨r, idx, false, Function.update_self ..⟩
      · exact ⟨r, idx', w, by rw [Function.update_of_ne hne, hr]⟩
  · rw [hu]
    refine { h.rings with avail := h.rings.avail.put (h.queue_room ht) (h.bump t b idx hpc), availIdx := ?_ }
    dsimp only
    rw [h.rings.availIdx, List.length_append, List.length_singleton, BitVec.ofNat_add]
    rfl

section opening
variable {write : Bool} {f : Nat → Bool} (h : Inv s) (hpc : s.pc t = .alloc b write)
  (hidx : ∀ i ∈ Idx.list idx, i < NUM ∧ s.free i = true) (hnodup : (Idx.list idx).Nodup)
  (hf : f = fun i => if i ∈ Idx.list idx then false else s.free i)
include h hpc hidx hnodup hf

theorem formatted_opened :
    Opened s { formatted { s with free := f } t b write idx.1 idx.2.1 idx.2.2 with
      pc := Function.update s.pc t (.ring b idx) } t b idx := by
  obtain ⟨hij, hik, hjk⟩ : idx.1 ≠ idx.2.1 ∧ idx.1 ≠ idx.2.2 ∧ idx.2.1 ≠ idx.2.2 := by
    simpa [Idx.list, and_assoc] using hnodup
  refine {
    out := ?_
    own := h.buf t b (by rw [hpc]; rfl)
    fresh := fun i hi => (hidx i hi).2
    view := view_update (c := .ring b idx) rfl
    live := rfl
    free := hf
    chain := ?_
    desc := fun i hi => ?_
    head := by simp [formatted]
    info := fun k hk => Function.update_of_ne hk ..
    buf := rfl
    sets := rfl
    queues := ⟨rfl, rfl⟩
    counts := ⟨rfl, rfl, rfl⟩ }
  · rw [State.view, hpc]
    rfl
  · refine ⟨fun i hi => (hidx i hi).1, hnodup, fun i hi => by simp [formatted, hf, hi], ?_, ?_, ?_⟩
    · simp only [formatted, Function.update_of_ne hik, Function.update_of_ne hij, Function.update_self]
      exact ⟨by decide, trivial⟩
    · simp only [formatted, Function.update_of_ne hjk, Function.update_self]
      refine ⟨?_, trivial, trivial⟩
      cases write <;> decide
    · simp only [formatted, Function.update_self]
      exact ⟨by decide, trivial⟩
  · simp only [Idx.list, List.mem_cons, List.not_mem_nil, or_false, not_or] at hi
    simp [formatted, hi.1, hi.2.1, hi.2.2]

theorem open_step :
    Inv { formatted { s with free := f } t b write idx.1 idx.2.1 idx.2.2 with
      pc := Function.update s.pc t (.ring b idx) } := by
  have ho := h.formatted_opened hpc hidx hnodup hf
  refine {
    lock := h.lock_goto (.inl rfl) fun _ => h.lock t (by rw [hpc]; rfl)
    buf := fun r b' hr => ?_
    bump := h.bump_goto (by simp)
    reqs := ho.reqs h
    flow := ho.flow h
    rings := { h.rings with } }
  have hlock : ∀ b', (Function.update s.buf b { s.buf b with disk := true } b').lock = (s.buf b').lock :=
    (Function.forall_update_iff s.buf fun b' x => x.lock = (s.buf b').lock).mpr ⟨rfl, fun _ _ => rfl⟩
  rw [ho.buf, hlock]
  refine h.buf_goto (fun b'' hb'' => ?_) r b' hr
  obtain rfl : b = b'' := Option.some.inj hb''
  exact ho.own

end opening

theorem close_step (h : Inv s) (hpc : s.pc t = .check b idx) (hdone : (s.buf b).disk = false) :
    Inv (s.ended t b idx) := by
  have hc : Closed s (s.ended t b idx) t b idx := by
    refine {
      mine := ?_
      done := hdone
      view := view_update (c := .idle) rfl
      live := rfl
      free := rfl
      desc := fun i hi => if_neg hi
      info := fun k hk => Function.update_of_ne hk ..
      disk := ?_
      sets := rfl
      queues := ⟨rfl, rfl⟩
      counts := ⟨rfl, rfl, rfl⟩ }
    · rw [State.view, hpc]
      rfl
    · exact (Function.forall_update_iff s.buf fun b' x => x.disk = (s.buf b').disk).mpr ⟨rfl, fun _ _ => rfl⟩
  refine {
    lock := h.lock_goto (.inr (.inr (h.lock t (by rw [hpc]; rfl)))) (by rintro ⟨⟩)
    buf := fun r b' hr => ?_
    bump := h.bump_goto (by simp)
    reqs := hc.reqs h
    flow := hc.flow h
    rings := { h.rings with } }
  obtain ⟨hne, hr⟩ : r ≠ t ∧ (s.pc r).buf = some b' :=
    (Function.forall_update_iff s.pc fun r c => c.buf = some b' → r ≠ t ∧ (s.pc r).buf = some b').mpr
      ⟨(by cases ·), fun r hrt hr => ⟨hrt, hr⟩⟩ r hr
  have hlock := h.buf r b' hr
  have hb : b' ≠ b := by
    rintro rfl
    have := h.buf t b' (Pc.buf_of_view hc.mine)
    exact hne (Option.some.inj (hlock.symm.trans this))
  show (Function.update s.buf b _ b').lock = some r
  rw [Function.update_of_ne hb, hlock]

theorem rwStep_ends (h : Inv s) (hpc : s.pc t = c) : Ends (rwStep t c) s (fun _ u => Inv u) Blocked := by
  have hkeep : ∀ b, c.buf = some b → (s.buf b).lock = some t := fun b hb => h.buf t b (by rwa [hpc])
  cases c with
  | entered b write => exact h.take (by rw [hpc]; rfl) hkeep (by simp)
  | nodesc b write => exact h.take (by rw [hpc]; rfl) hkeep (by simp)
  | asleep b idx => exact h.take (by rw [hpc]; rfl) hkeep (by simp)
  | alloc b write =>
    have hl : s.vdisk_lock = some t := h.lock t (by rw [hpc]; rfl)
    rw [rwStep, ends_bind]
    refine Ends.mono alloc3_desc_ends ?_
    rintro (_ | idx) s₁ h₁
    · obtain ⟨desc, rfl, hdesc⟩ := h₁
      exact (h.redesc hdesc).goto (c := .nodesc b write) (by rw [show _ = Pc.alloc b write from hpc]; rfl) hkeep
        (by simp)
        (.inr (.inr hl)) (by rintro ⟨⟩)
    · obtain ⟨hidx, hnodup, hf, hs₁⟩ := h₁
      rw [hs₁]
      exact h.open_step hpc hidx hnodup hf
  | ring b idx => exact h.ring_step hpc
  | bump b idx => exact h.bump_step hpc
  | check b idx =>
    have hl : s.vdisk_lock = some t := h.lock t (by rw [hpc]; rfl)
    simp only [rwStep, ends_bind, ends_gets, ends_ite, ends_update, release, Disk.goto]
    refine ⟨fun _ => ?_, fun hdone => ?_⟩
    · exact h.goto (c := .asleep b idx) (by rw [hpc]; rfl) hkeep (by simp) (.inr (.inr hl)) (by rintro ⟨⟩)
    · have hc : Chain s b idx := h.reqs.chain t b idx false (by rw [State.view, hpc]; rfl)
      refine Ends.mono (hc.free_chain_ends (by exact ⟨rfl, rfl⟩)) ?_
      rintro _ u rfl
      exact h.close_step hpc (by simpa using hdone)
  | idle | intr | intrLoop => simp [rwStep, Blocked]

theorem run_ends (h : Inv s) (a : Act) : Ends (run a) s (fun _ u => Inv u) Blocked := by
  cases a with
  | rw t b write => exact h.rw_ends
  | intr t =>
    simp only [run, ends_bind, ends_gets, ends_ite, ends_stop, id]
    refine ⟨fun hidle => ?_, fun _ => by simp [Blocked]⟩
    exact h.goto (c := .intr) (by rw [hidle]; rfl) (by intros; contradiction) (by simp) (.inl rfl) (by rintro ⟨⟩)
  | rwStep t => exact h.rwStep_ends rfl
  | intrStep t => exact h.intrStep_ends rfl
  | consume => exact h.consume_ends
  | finish head => exact h.finish_ends
  | report head => exact h.report_ends

end Inv

theorem start_inv (blockno : Nat → Nat) : Inv (start blockno) := by
  refine ⟨(by intros; contradiction), (by intros; contradiction), (by intros; contradiction), ?_, ?_, ?_⟩
  · refine ⟨fun t => ⟨(by rintro ⟨⟩), (by rintro ⟨⟩)⟩, List.nodup_nil, (by intros; contradiction),
      (by intros; contradiction), fun i hi hf => ?_⟩
    have : decide (i < NUM) = false := hf
    simp [hi] at this
  · exact ⟨List.nodup_nil, (by intros; contradiction), (by intros; contradiction), (by intros; contradiction), by simp
      [start, State.unseen], (by intros; contradiction), fun _ => rfl, fun _ => rfl⟩
  · exact ⟨.nil _, rfl, rfl, .nil _, rfl, rfl⟩

theorem inv_of_path {blockno : Nat → Nat} (h : Path run (fun _ _ => True) (start blockno) s) : Inv s :=
  h.invariant (start_inv blockno) fun a _ _ hs _ hrun => (hs.run_ends a).of_ok hrun

end Xv6.Disk
