import Xv6.Disk.Chains
import Xv6.Lib.Ring
import Xv6.Lib.Update

/-!
# Requests in flight

A request belongs to the thread that made it, and its first descriptor stands for it in the rings and in the device.
-/

open Xv6.Lib Op

namespace Xv6.Disk

variable {s u : State} {t b i : Nat} {idx : Idx} {c : Pc}

/-! ## The invariant -/

namespace Pc

def view : Pc → Option (Nat × Idx × Bool)
  | .ring b idx | .bump b idx => some (b, idx, true)
  | .check b idx | .asleep b idx => some (b, idx, false)
  | _ => none

def buf : Pc → Option Nat
  | .entered b _ | .alloc b _ | .nodesc b _ | .ring b _ | .bump b _ | .check b _ | .asleep b _ => some b
  | _ => none

def locked : Pc → Bool
  | .alloc .. | .ring .. | .bump .. | .check .. | .intrLoop => true
  | _ => false

theorem buf_of_view {w : Bool} (h : c.view = some (b, idx, w)) : c.buf = some b := by
  cases c <;> simp_all [view, buf]

end Pc

namespace State

def view (s : State) (t : Nat) : Option (Nat × Idx × Bool) := (s.pc t).view

def queued (s : State) : List Nat := s.sent.drop s.consumed.length

def unseen (s : State) : List Nat := s.reported.drop s.seen.length

def pending (s : State) : List Nat := s.queued ++ s.taken ++ s.finished ++ s.unseen

end State

abbrev View := Nat → Option (Nat × Idx × Bool)

structure Reqs (r : View) (s : State) : Prop where
  live : ∀ t, t ∈ s.live ↔ (r t).isSome = true
  nodup : s.live.Nodup
  chain : ∀ t b idx w, r t = some (b, idx, w) → Chain s b idx
  apart : ∀ t t' b b' idx idx' w w', t ≠ t' → r t = some (b, idx, w) → r t' = some (b', idx', w') →
    b ≠ b' ∧ ∀ i ∈ idx.list, i ∉ idx'.list
  owned : ∀ i < NUM, s.free i = false → ∃ t b idx w, r t = some (b, idx, w) ∧ i ∈ idx.list

structure Flow (r : View) (s : State) : Prop where
  nodup : s.pending.Nodup
  owned : ∀ h ∈ s.pending, ∃ t b idx, r t = some (b, idx, false) ∧ idx.1 = h
  disk : ∀ t b idx w, r t = some (b, idx, w) → ((s.buf b).disk = true ↔ w = true ∨ idx.1 ∈ s.pending)
  info : ∀ t b idx w, r t = some (b, idx, w) → w = true ∨ idx.1 ∈ s.pending → (s.info idx.1).b = some b
  status : ∀ h, h ∈ s.finished ∨ h ∈ s.unseen → (s.info h).status = 0
  busy : ∀ b, (s.buf b).disk = true → ∃ t idx w, r t = some (b, idx, w)
  sets : ∀ b, s.sets b = s.clears b + if (s.buf b).disk = true then 1 else 0
  reports : ∀ b, s.reports b = s.clears b + s.unseen.countP fun h => s.dataOf h = .data b

structure Rings (s : State) : Prop where
  avail : Ring NUM s.availRing s.sent s.consumed
  availIdx : s.availIdx = BitVec.ofNat 16 s.sent.length
  devIdx : s.devIdx = BitVec.ofNat 16 s.consumed.length
  used : Ring NUM s.usedRing s.reported s.seen
  usedIdx : s.usedIdx = BitVec.ofNat 16 s.reported.length
  used_idx : s.used_idx = BitVec.ofNat 16 s.seen.length

structure Inv (s : State) : Prop where
  lock : ∀ t, (s.pc t).locked = true → s.vdisk_lock = some t
  buf : ∀ t b, (s.pc t).buf = some b → (s.buf b).lock = some t
  -- The entry is written before the index.
  bump : ∀ t b idx, s.pc t = .bump b idx → s.availRing (s.sent.length % NUM) = idx.1
  reqs : Reqs s.view s
  flow : Flow s.view s
  rings : Rings s

/-- Why a thread or the device cannot go on. None of these is a panic. -/
def Blocked (msg : String) : Prop :=
  msg ∈ ["vdisk_lock is held", "busy", "not in a request", "not in the handler", "nothing to do", "not taken",
    "not finished"]

/-! ## Consequences -/

namespace Reqs

variable {r : View}

theorem head_mem (idx : Idx) : idx.1 ∈ idx.list := by simp [Idx.list]

theorem congr (h : Reqs r s) (hlive : u.live = s.live) (hfree : u.free = s.free) (hdesc : u.desc = s.desc) : Reqs r u where
  live := by
    rw [hlive]
    exact h.live
  nodup := by
    rw [hlive]
    exact h.nodup
  chain t b idx w ht := (h.chain t b idx w ht).congr (fun _ _ => by rw [hfree]) fun _ _ => by rw [hdesc]
  apart := h.apart
  owned := by
    rw [hfree]
    exact h.owned

theorem resend {r' : View} (h : Reqs r s) (hr : ∀ t, (r' t).map (fun v => (v.1, v.2.1)) = (r t).map fun v => (v.1, v.2.1)) :
    Reqs r' s := by
  have hback : ∀ t b idx w, r' t = some (b, idx, w) → ∃ w', r t = some (b, idx, w') := by
    intro t b idx w ht
    have := hr t
    rw [ht] at this
    obtain ⟨⟨b', idx', w'⟩, hv, he⟩ := Option.map_eq_some_iff.mp this.symm
    obtain ⟨rfl, rfl⟩ := Prod.mk.inj he
    exact ⟨w', hv⟩
  refine ⟨fun t => ?_, h.nodup, fun t b idx w ht => ?_, fun t t' b b' idx idx' w w' hne ht ht' => ?_, fun i hi hf => ?_⟩
  · have := congrArg Option.isSome (hr t)
    rw [Option.isSome_map, Option.isSome_map] at this
    rw [this]
    exact h.live t
  · obtain ⟨w', hv⟩ := hback t b idx w ht
    exact h.chain t b idx w' hv
  · obtain ⟨_, hv⟩ := hback t b idx w ht
    obtain ⟨_, hv'⟩ := hback t' b' idx' w' ht'
    exact h.apart t t' b b' idx idx' _ _ hne hv hv'
  · obtain ⟨t, b, idx, w, ht, hmem⟩ := h.owned i hi hf
    have := hr t
    rw [ht] at this
    obtain ⟨⟨b', idx', w'⟩, hv, he⟩ := Option.map_eq_some_iff.mp this
    obtain ⟨rfl, rfl⟩ := Prod.mk.inj he
    exact ⟨t, _, _, w', hv, hmem⟩

theorem unique (h : Reqs r s) {t' b' : Nat} {idx' : Idx} {w w' : Bool} (ht : r t = some (b, idx, w))
    (ht' : r t' = some (b', idx', w')) (hi : i ∈ idx.list) (hi' : i ∈ idx'.list) : t = t' := by
  by_contra hne
  exact (h.apart t t' b b' idx idx' w w' hne ht ht').2 i hi hi'

end Reqs

namespace Inv

theorem pending_owner (h : Inv s) {k : Nat} (hk : k ∈ s.pending) : ∃ t b idx, s.view t = some (b, idx, false) ∧
    idx.1 = k ∧ Chain s b idx := by
  obtain ⟨t, b, idx, ht, hidx⟩ := h.flow.owned k hk
  exact ⟨t, b, idx, ht, hidx, h.reqs.chain t b idx false ht⟩

theorem pending_lt (h : Inv s) {k : Nat} (hk : k ∈ s.pending) : k < NUM := by
  obtain ⟨_, _, idx, -, rfl, hc⟩ := h.pending_owner hk
  exact hc.bound _ (Reqs.head_mem idx)

theorem pending_used (h : Inv s) {k : Nat} (hk : k ∈ s.pending) : s.free k = false := by
  obtain ⟨_, _, idx, -, rfl, hc⟩ := h.pending_owner hk
  exact hc.used _ (Reqs.head_mem idx)

theorem room (h : Inv s) {l : List Nat} (hl : l.Nodup) (hsub : ∀ k ∈ l, k ∈ s.pending) (hi : i < NUM) (hni : i ∉ l) :
    l.length < NUM := by
  have hsubset : i :: l ⊆ List.range NUM := by
    intro k hk
    rw [List.mem_range]
    obtain rfl | hk := List.mem_cons.mp hk
    · exact hi
    · exact h.pending_lt (hsub k hk)
  have hle := (List.nodup_cons.mpr ⟨hni, hl⟩).length_le_of_subset hsubset
  rw [List.length_cons, List.length_range] at hle
  exact hle

theorem head_not_pending (h : Inv s) (ht : s.view t = some (b, idx, true)) : idx.1 ∉ s.pending := by
  intro hk
  obtain ⟨t', b', idx', ht', hidx, -⟩ := h.pending_owner hk
  have hsame := h.reqs.unique ht' ht (Reqs.head_mem idx') (hidx ▸ Reqs.head_mem idx)
  rw [hsame, ht] at ht'
  simp at ht'

theorem mem_pending (s : State) (k : Nat) :
    k ∈ s.pending ↔ k ∈ s.queued ∨ k ∈ s.taken ∨ k ∈ s.finished ∨ k ∈ s.unseen := by
  simp only [State.pending, List.mem_append, or_assoc]

theorem eq_holder (h : Inv s) {r : Nat} (hl : s.vdisk_lock = some t) (hr : (s.pc r).locked = true) : r = t :=
  Option.some.inj ((h.lock r hr).symm.trans hl)

theorem queue_room (h : Inv s) (ht : s.view t = some (b, idx, true)) : s.sent.length < s.consumed.length + NUM := by
  have hnodup : s.queued.Nodup := by
    have := h.flow.nodup
    rw [State.pending, List.append_assoc, List.append_assoc] at this
    exact this.of_append_left
  have hlt : idx.1 < NUM := (h.reqs.chain t b idx true ht).bound _ (Reqs.head_mem idx)
  have := h.room hnodup (fun k hk => (mem_pending s k).mpr (.inl hk)) hlt fun hk =>
    h.head_not_pending ht ((mem_pending s _).mpr (.inl hk))
  rw [State.queued, List.length_drop] at this
  omega

theorem reports_kept (h : Inv s) (hsame : u.reports = s.reports ∧ u.clears = s.clears ∧ u.unseen = s.unseen)
    (hchain : ∀ r b idx, idx.1 ∈ s.pending → s.view r = some (b, idx, false) → Chain u b idx) (b : Nat) :
    u.reports b = u.clears b + u.unseen.countP fun k => u.dataOf k = .data b := by
  rw [hsame.1, hsame.2.1, hsame.2.2, h.flow.reports b]
  congr 1
  refine List.countP_congr fun k hk => ?_
  have hk := (mem_pending s k).mpr (.inr (.inr (.inr hk)))
  obtain ⟨r, b', idx, hr, rfl, hc⟩ := h.pending_owner hk
  rw [hc.dataOf, (hchain r b' idx hk hr).dataOf]

/-! ## Steps that leave the requests alone -/

theorem view_update (hpc : u.pc = Function.update s.pc t c) : u.view = Function.update s.view t c.view := by
  funext r
  rw [State.view, hpc]
  exact Function.apply_update (fun _ => Pc.view) s.pc t c r

theorem view_goto (hview : c.view = (s.pc t).view) (hpc : u.pc = Function.update s.pc t c) : u.view = s.view := by
  rw [view_update hpc, hview]
  exact Function.update_eq_self t s.view

theorem lock_goto (h : Inv s) {l : Option Nat} (hl : l = s.vdisk_lock ∨ s.vdisk_lock = none ∨ s.vdisk_lock = some t)
    (hc : c.locked = true → l = some t) : ∀ r, (Function.update s.pc t c r).locked = true → l = some r := by
  refine (Function.forall_update_iff s.pc fun r c => c.locked = true → l = some r).mpr ⟨hc, fun r hrt hr => ?_⟩
  have := h.lock r hr
  rcases hl with rfl | hl | hl
  · exact this
  · rw [hl] at this
    cases this
  · rw [hl] at this
    exact absurd (Option.some.inj this).symm hrt

theorem buf_goto (h : Inv s) (hc : ∀ b, c.buf = some b → (s.buf b).lock = some t) :
    ∀ r b, (Function.update s.pc t c r).buf = some b → (s.buf b).lock = some r :=
  (Function.forall_update_iff s.pc fun r c => ∀ b, c.buf = some b → (s.buf b).lock = some r).mpr ⟨hc, fun r _ => h.buf r⟩

theorem bump_goto (h : Inv s) (hc : ∀ b idx, c ≠ .bump b idx) :
    ∀ r b idx, Function.update s.pc t c r = .bump b idx → s.availRing (s.sent.length % NUM) = idx.1 :=
  (Function.forall_update_iff s.pc fun _ c => ∀ b idx, c = .bump b idx → _ = idx.1).mpr
    ⟨fun b idx hb => absurd hb (hc b idx), fun r _ => h.bump r⟩

theorem goto (h : Inv s) {l : Option Nat} (hview : c.view = (s.pc t).view)
    (hbuf : ∀ b, c.buf = some b → (s.buf b).lock = some t) (hbump : ∀ b idx, c ≠ .bump b idx)
    (hl : l = s.vdisk_lock ∨ s.vdisk_lock = none ∨ s.vdisk_lock = some t) (hc : c.locked = true → l = some t) :
    Inv { s with vdisk_lock := l, pc := Function.update s.pc t c } := by
  have hv := view_goto (u := { s with vdisk_lock := l, pc := Function.update s.pc t c }) hview rfl
  refine ⟨h.lock_goto hl hc, h.buf_goto hbuf, h.bump_goto hbump, ?_, ?_, { h.rings with }⟩
  · rw [hv]
    exact h.reqs.congr rfl rfl rfl
  · rw [hv]
    exact { h.flow with }

theorem ends_acquire {Q : Unit → State → Prop} :
    Ends (acquire t) s Q Blocked ↔ (s.vdisk_lock = none → Q () { s with vdisk_lock := some t }) := by
  simp only [acquire, ends_bind, ends_gets, ends_ite, ends_update, ends_stop]
  exact and_iff_left fun _ => by simp [Blocked]

theorem take (h : Inv s) (hview : c.view = (s.pc t).view) (hbuf : ∀ b, c.buf = some b → (s.buf b).lock = some t)
    (hbump : ∀ b idx, c ≠ .bump b idx) : Ends (do acquire t; Disk.goto t c) s (fun _ u => Inv u) Blocked := by
  rw [ends_bind, ends_acquire]
  intro hl
  exact h.goto hview hbuf hbump (.inr (.inl hl)) fun _ => rfl

theorem rw_ends (h : Inv s) {write : Bool} : Ends (run (.rw t b write)) s (fun _ u => Inv u) Blocked := by
  simp only [run, Disk.goto, ends_bind, ends_gets, ends_ite, ends_update, ends_stop, id]
  refine ⟨?_, fun _ => by simp [Blocked]⟩
  rintro ⟨hidle, hfree⟩
  have hnone : ∀ r b', (s.pc r).buf = some b' → b' ≠ b := by
    rintro r b' hr rfl
    rw [h.buf r b' hr] at hfree
    cases hfree
  have hdisk : ∀ b', (Function.update s.buf b { s.buf b with lock := some t } b').disk = (s.buf b').disk :=
    (Function.forall_update_iff s.buf fun b' x => x.disk = (s.buf b').disk).mpr ⟨rfl, fun _ _ => rfl⟩
  have hview : (Pc.entered b write).view = (s.pc t).view := by
    rw [hidle]
    rfl
  have hv := view_goto (u := { s with
    buf := Function.update s.buf b { s.buf b with lock := some t }
    pc := Function.update s.pc t (.entered b write) }) hview rfl
  refine ⟨h.lock_goto (.inl rfl) (by rintro ⟨⟩), ?_, h.bump_goto (by simp), ?_, ?_, { h.rings with }⟩
  · refine (Function.forall_update_iff s.pc fun r c => ∀ b', c.buf = some b' → (Function.update s.buf b _ b').lock = some r).mpr
      ⟨?_, fun r _ b' hr => ?_⟩
    · rintro b' ⟨⟩
      rw [Function.update_self]
    · rw [Function.update_of_ne (hnone r b' hr)]
      exact h.buf r b' hr
  · rw [hv]
    exact h.reqs.congr rfl rfl rfl
  · rw [hv]
    refine { h.flow with disk := fun t b' idx w ht => ?_, busy := fun b' hb => ?_, sets := fun b' => ?_ }
    · rw [show _ = (s.buf b').disk from hdisk b']
      exact h.flow.disk t b' idx w ht
    · exact h.flow.busy b' (by rwa [← hdisk b'])
    · rw [show _ = (s.buf b').disk from hdisk b']
      exact h.flow.sets b'

/-! ## The device -/

theorem toNat_mod (k : Nat) : (BitVec.ofNat 16 k).toNat % NUM = k % NUM := by
  rw [BitVec.toNat_ofNat]
  exact Nat.mod_mod_of_dvd _ (by decide)

theorem lt_of_ne {a b : Nat} (hle : a ≤ b) (hne : BitVec.ofNat 16 a ≠ BitVec.ofNat 16 b) : a < b := by
  refine Nat.lt_of_le_of_ne hle ?_
  rintro rfl
  exact hne rfl

section moves

variable {A T F U : List Nat} {k : Nat}

theorem perm_finish (h : k ∈ T) : (A ++ T.erase k ++ k :: F ++ U).Perm (A ++ T ++ F ++ U) := by
  have hT : (T.erase k ++ (k :: F ++ U)).Perm (T ++ (F ++ U)) :=
    List.perm_middle.trans ((List.perm_cons_erase h).symm.append_right (F ++ U))
  simpa only [List.append_assoc] using hT.append_left A

theorem perm_report (h : k ∈ F) : (A ++ T ++ F.erase k ++ (U ++ [k])).Perm (A ++ T ++ F ++ U) := by
  have hF : (F.erase k ++ (U ++ [k])).Perm (F ++ U) := by
    rw [← List.append_assoc]
    exact (List.perm_append_singleton k _).trans ((List.perm_cons_erase h).symm.append_right U)
  simpa only [List.append_assoc] using hF.append_left (A ++ T)

end moves

theorem device (h : Inv s) (hpc : u.pc = s.pc) (hlock : u.vdisk_lock = s.vdisk_lock) (hbuf : u.buf = s.buf)
    (hdesc : u.desc = s.desc) (hfree : u.free = s.free) (hlive : u.live = s.live)
    (hring : u.availRing = s.availRing ∧ u.sent = s.sent) (hperm : u.pending.Perm s.pending)
    (hinfo : ∀ k, (u.info k).b = (s.info k).b) (hstatus : ∀ k, k ∈ u.finished ∨ k ∈ u.unseen → (u.info k).status = 0)
    (hsets : u.sets = s.sets ∧ u.clears = s.clears)
    (hreports : ∀ b, u.reports b = u.clears b + u.unseen.countP fun k => s.dataOf k = .data b) (hrings : Rings u) :
    Inv u := by
  have hview : u.view = s.view := by
    funext r
    rw [State.view, State.view, hpc]
  have hdata : u.dataOf = s.dataOf := by
    funext k
    rw [State.dataOf, State.dataOf, hdesc]
  refine ⟨?_, ?_, ?_, ?_, ?_, hrings⟩
  · rw [hpc, hlock]
    exact h.lock
  · rw [hpc, hbuf]
    exact h.buf
  · rw [hpc, hring.1, hring.2]
    exact h.bump
  · rw [hview]
    exact h.reqs.congr hlive hfree hdesc
  · rw [hview]
    refine ⟨hperm.nodup_iff.mpr h.flow.nodup, ?_, ?_, ?_, hstatus, ?_, ?_, ?_⟩
    · intro k hk
      exact h.flow.owned k (hperm.mem_iff.mp hk)
    · intro t b idx w ht
      rw [hbuf, hperm.mem_iff]
      exact h.flow.disk t b idx w ht
    · intro t b idx w ht hw
      rw [hperm.mem_iff] at hw
      rw [hinfo]
      exact h.flow.info t b idx w ht hw
    · rw [hbuf]
      exact h.flow.busy
    · rw [hbuf, hsets.1, hsets.2]
      exact h.flow.sets
    · rw [hdata]
      exact hreports

theorem consume_ends (h : Inv s) : Ends consume s (fun _ u => Inv u) Blocked := by
  simp only [consume, ends_bind, ends_gets, ends_ite, ends_update, ends_stop, id]
  refine ⟨fun _ => by simp [Blocked], fun hne => ?_⟩
  have hlt : s.consumed.length < s.sent.length := by
    refine lt_of_ne h.rings.avail.le ?_
    rwa [← h.rings.devIdx, ← h.rings.availIdx]
  have hslot : s.devIdx.toNat % NUM = s.consumed.length % NUM := by rw [h.rings.devIdx, toNat_mod]
  rw [hslot]
  have hqueue : s.queued = s.availRing (s.consumed.length % NUM) :: s.sent.drop (s.consumed.length + 1) :=
    h.rings.avail.rest_cons hlt
  refine h.device rfl rfl rfl rfl rfl rfl ⟨rfl, rfl⟩ ?_ (fun _ => rfl) h.flow.status ⟨rfl, rfl⟩ h.flow.reports ?_
  · simp only [State.pending, State.queued, State.unseen, List.length_append, List.length_singleton] at hqueue ⊢
    rw [hqueue]
    simp only [List.cons_append, List.append_assoc]
    exact List.perm_middle
  · refine { h.rings with avail := h.rings.avail.pop hlt, devIdx := ?_ }
    dsimp only
    rw [h.rings.devIdx, List.length_append, List.length_singleton, BitVec.ofNat_add]
    rfl

theorem finish_ends (h : Inv s) {head : Nat} : Ends (finish head) s (fun _ u => Inv u) Blocked := by
  simp only [finish, ends_bind, ends_gets, ends_ite, ends_stop, id]
  refine ⟨fun hmem => ?_, fun _ => by simp [Blocked]⟩
  obtain ⟨t, b, idx, ht, rfl, hc⟩ := h.pending_owner ((mem_pending s head).mpr (.inr (.inl hmem)))
  rw [hc.statusOf]
  simp only [ends_update]
  have hb : ∀ k, (Function.update s.info idx.1 { s.info idx.1 with status := 0 } k).b = (s.info k).b :=
    (Function.forall_update_iff s.info fun k x => x.b = (s.info k).b).mpr ⟨rfl, fun _ _ => rfl⟩
  refine h.device rfl rfl rfl rfl rfl rfl ⟨rfl, rfl⟩ ?_ hb ?_ ⟨rfl, rfl⟩ h.flow.reports { h.rings with }
  · exact perm_finish hmem
  · intro k hk
    show (Function.update s.info idx.1 _ k).status = 0
    by_cases hk' : k = idx.1
    · rw [hk', Function.update_self]
    · rw [Function.update_of_ne hk']
      refine h.flow.status k (hk.imp_left fun hk => ?_)
      exact (List.mem_cons.mp hk).resolve_left hk'

theorem report_ends (h : Inv s) {head : Nat} : Ends (report head) s (fun _ u => Inv u) Blocked := by
  simp only [report, ends_bind, ends_gets, ends_ite, ends_stop, id]
  refine ⟨fun hmem => ?_, fun _ => by simp [Blocked]⟩
  have hpending := (mem_pending s head).mpr (.inr (.inr (.inl hmem)))
  obtain ⟨t, b, idx, ht, rfl, hc⟩ := h.pending_owner hpending
  rw [hc.dataOf]
  simp only [ends_update]
  have hnodup : (s.finished ++ s.unseen).Nodup := by
    have := h.flow.nodup
    rw [State.pending, List.append_assoc] at this
    exact this.of_append_right
  have hnot : idx.1 ∉ s.unseen := fun hu => (List.disjoint_of_nodup_append hnodup) hmem hu
  have hroom : s.reported.length < s.seen.length + NUM := by
    have := h.room (i := idx.1) hnodup.of_append_right (fun k hk => (mem_pending s k).mpr (.inr (.inr (.inr hk))))
      (h.pending_lt hpending) hnot
    rw [State.unseen, List.length_drop] at this
    omega
  have hslot : s.usedIdx.toNat % NUM = s.reported.length % NUM := by rw [h.rings.usedIdx, toNat_mod]
  have hunseen : (s.reported ++ [idx.1]).drop s.seen.length = s.unseen ++ [idx.1] :=
    List.drop_append_of_le_length h.rings.used.le
  refine h.device rfl rfl rfl rfl rfl rfl ⟨rfl, rfl⟩ ?_ (fun _ => rfl) ?_ ⟨rfl, rfl⟩ ?_ ?_
  · simp only [State.pending, State.unseen, hunseen]
    exact perm_report hmem
  · intro k hk
    simp only [State.unseen, hunseen, List.mem_append, List.mem_singleton] at hk
    refine h.flow.status k ?_
    rcases hk with hk | hk | rfl
    · exact .inl (List.mem_of_mem_erase hk)
    · exact .inr hk
    · exact .inl hmem
  · intro b'
    simp only [State.unseen, hunseen, List.countP_append, List.countP_singleton, hc.dataOf, Addr.data.injEq,
      decide_eq_true_eq]
    by_cases hb : b = b'
    · subst hb
      rw [Function.update_self, if_pos rfl, h.flow.reports b, Nat.add_assoc]
      rfl
    · rw [Function.update_of_ne (Ne.symm hb), if_neg hb, h.flow.reports b', Nat.add_zero]
      rfl
  · refine { h.rings with used := ?_, usedIdx := ?_ }
    · dsimp only
      rw [hslot]
      exact h.rings.used.push hroom
    · dsimp only
      rw [h.rings.usedIdx, List.length_append, List.length_singleton, BitVec.ofNat_add]
      rfl

end Inv

/-! ## The handler -/

/-- How one turn of the interrupt handler's loop changes the driver's state. -/
structure Cleared (s u : State) (t b : Nat) (idx : Idx) : Prop where
  mine : s.view t = some (b, idx, false)
  unseen : s.unseen = idx.1 :: u.unseen
  pending : s.pending.Perm (idx.1 :: u.pending)
  buf : u.buf = Function.update s.buf b { s.buf b with disk := false }
  clears : u.clears = Function.update s.clears b (s.clears b + 1)
  view : u.view = s.view
  info : u.info = s.info
  finished : u.finished = s.finished
  dataOf : u.dataOf = s.dataOf
  counts : u.sets = s.sets ∧ u.reports = s.reports

namespace Cleared

variable (hc : Cleared s u t b idx) (h : Inv s)
include hc

theorem was_pending {k : Nat} (hk : k ∈ u.pending) : k ∈ s.pending :=
  hc.pending.mem_iff.mpr (List.mem_cons_of_mem _ hk)

theorem disk_ne {b' : Nat} (hb : b' ≠ b) : (u.buf b').disk = (s.buf b').disk := by
  rw [hc.buf, Function.update_of_ne hb]

theorem disk_self : (u.buf b).disk = false := by rw [hc.buf, Function.update_self]

theorem lock : ∀ b', (u.buf b').lock = (s.buf b').lock := by
  rw [hc.buf]
  exact (Function.forall_update_iff s.buf fun b' x => x.lock = (s.buf b').lock).mpr ⟨rfl, fun _ _ => rfl⟩

include h

theorem nodup : (idx.1 :: u.pending).Nodup := hc.pending.nodup_iff.mp h.flow.nodup

theorem disk {t' b' : Nat} {idx' : Idx} {w : Bool} (ht' : s.view t' = some (b', idx', w)) :
    (u.buf b').disk = true ↔ w = true ∨ idx'.1 ∈ u.pending := by
  by_cases hne : t' = t
  · subst hne
    obtain ⟨rfl, rfl, rfl⟩ : b = b' ∧ idx = idx' ∧ false = w := by simpa using hc.mine.symm.trans ht'
    rw [hc.disk_self]
    exact iff_of_false (by simp) (by simpa using (List.nodup_cons.mp (hc.nodup h)).1)
  · obtain ⟨hb, hidx⟩ := h.reqs.apart t' t b' b idx' idx w false hne ht' hc.mine
    have hhead : idx'.1 ≠ idx.1 := fun he => hidx _ (Reqs.head_mem idx') (he ▸ Reqs.head_mem idx)
    rw [hc.disk_ne hb, h.flow.disk t' b' idx' w ht', hc.pending.mem_iff, List.mem_cons, or_iff_right hhead]

theorem sets (b' : Nat) : u.sets b' = u.clears b' + if (u.buf b').disk = true then 1 else 0 := by
  rw [hc.counts.1, hc.clears, h.flow.sets b']
  by_cases hbb : b' = b
  · have hdisk := (h.flow.disk t b idx false hc.mine).mpr (.inr (hc.pending.mem_iff.mpr List.mem_cons_self))
    rw [hbb, hc.disk_self, hdisk, Function.update_self]
    rfl
  · rw [hc.disk_ne hbb, Function.update_of_ne hbb]

theorem reports (b' : Nat) : u.reports b' = u.clears b' + u.unseen.countP fun k => u.dataOf k = .data b' := by
  have hcount := h.flow.reports b'
  rw [hc.unseen, List.countP_cons, (h.reqs.chain t b idx false hc.mine).dataOf] at hcount
  rw [hc.dataOf, hc.clears, hc.counts.2, hcount]
  by_cases hbb : b' = b
  · subst hbb
    rw [Function.update_self]
    simp only [decide_true, if_true]
    omega
  · have hne : Addr.data b ≠ Addr.data b' := fun he => hbb (Addr.data.inj he).symm
    rw [Function.update_of_ne hbb]
    simp [hne]

theorem flow : Flow u.view u where
  nodup := (List.nodup_cons.mp (hc.nodup h)).2
  owned k hk := by
    rw [hc.view]
    exact h.flow.owned k (hc.was_pending hk)
  disk _ _ _ _ ht' := hc.disk h (by rwa [hc.view] at ht')
  info t' b' idx' w ht' hw := by
    rw [hc.view] at ht'
    rw [hc.info]
    exact h.flow.info t' b' idx' w ht' (hw.imp_right hc.was_pending)
  status k hk := by
    rw [hc.info]
    refine h.flow.status k ?_
    rw [hc.finished] at hk
    rw [hc.unseen]
    exact hk.imp_right (List.mem_cons_of_mem _)
  busy b' hb := by
    rw [hc.view]
    by_cases hbb : b' = b
    · rw [hbb, hc.disk_self] at hb
      cases hb
    · rw [hc.disk_ne hbb] at hb
      exact h.flow.busy b' hb
  sets := hc.sets h
  reports := hc.reports h

end Cleared

namespace Inv

theorem intr_clear (h : Inv s) {head : Nat} (hne : s.used_idx ≠ s.usedIdx)
    (hhead : head = s.usedRing (s.used_idx.toNat % NUM)) : (s.info head).status = 0 ∧
    ∃ b, (s.info head).b = some b ∧ s.dataOf head = .data b ∧ head ∈ s.unseen ∧ (s.buf b).disk = true ∧ Inv { s with
      buf := Function.update s.buf b { s.buf b with disk := false }
      used_idx := s.used_idx + 1
      seen := s.seen ++ [head]
      clears := Function.update s.clears b (s.clears b + 1) } := by
  have hlt : s.seen.length < s.reported.length := by
    refine lt_of_ne h.rings.used.le ?_
    rwa [← h.rings.usedIdx, ← h.rings.used_idx]
  have hslot : s.used_idx.toNat % NUM = s.seen.length % NUM := by rw [h.rings.used_idx, toNat_mod]
  rw [hslot] at hhead
  have hrest : s.unseen = head :: s.reported.drop (s.seen.length + 1) := hhead ▸ h.rings.used.rest_cons hlt
  have hmem : head ∈ s.unseen := by
    rw [hrest]
    exact List.mem_cons_self
  have hpending := (mem_pending s head).mpr (.inr (.inr (.inr hmem)))
  obtain ⟨t, b, idx, ht, rfl, hchain⟩ := h.pending_owner hpending
  have hdisk : (s.buf b).disk = true := (h.flow.disk t b idx false ht).mpr (.inr hpending)
  refine ⟨h.flow.status _ (.inr hmem), b, h.flow.info t b idx false ht (.inr hpending), hchain.dataOf, hmem, hdisk, ?_⟩
  have hlen : (s.seen ++ [idx.1]).length = s.seen.length + 1 := by rw [List.length_append, List.length_singleton]
  have hc : Cleared s { s with
      buf := Function.update s.buf b { s.buf b with disk := false }
      used_idx := s.used_idx + 1
      seen := s.seen ++ [idx.1]
      clears := Function.update s.clears b (s.clears b + 1) } t b idx := by
    refine {
      mine := ht
      unseen := by rw [hrest, State.unseen, hlen]
      pending := ?_
      buf := rfl
      clears := rfl
      view := rfl
      info := rfl
      finished := rfl
      dataOf := rfl
      counts := ⟨rfl, rfl⟩ }
    rw [State.pending, State.pending, hrest, State.unseen, hlen]
    exact List.perm_middle
  exact {
    lock := h.lock
    buf := fun t' b' ht' => (hc.lock b').trans (h.buf t' b' ht')
    bump := h.bump
    reqs := h.reqs.congr rfl rfl rfl
    flow := hc.flow h
    rings := {
      h.rings with
      used := hhead ▸ h.rings.used.pop hlt
      used_idx := by
        dsimp only
        rw [h.rings.used_idx, hlen, BitVec.ofNat_add]
        rfl } }

theorem intrStep_ends (h : Inv s) (hpc : s.pc t = c) : Ends (intrStep t c) s (fun _ u => Inv u) Blocked := by
  cases c with
  | intr => exact h.take (by rw [hpc]; rfl) (by intros; contradiction) (by simp)
  | intrLoop =>
    simp only [intrStep, ends_bind, ends_gets, ends_ite, id]
    refine ⟨fun _ => ?_, fun hne => ?_⟩
    · have hl : s.vdisk_lock = some t := h.lock t (by rw [hpc]; rfl)
      exact h.goto (by rw [hpc]; rfl) (by intros; contradiction) (by simp) (.inr (.inr hl)) (by rintro ⟨⟩)
    · obtain ⟨hstatus, b, hb, -, -, -, hinv⟩ := h.intr_clear hne rfl
      refine ⟨fun hbad => absurd hstatus hbad, fun _ => ?_⟩
      rw [hb]
      exact hinv
  | _ => simp [intrStep, Blocked]

end Inv

end Xv6.Disk
