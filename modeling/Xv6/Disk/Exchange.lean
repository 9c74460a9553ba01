import Xv6.Disk.Submit

/-!
# The exchange with the device

What a step can do to the avail ring and to the `disk` flag of a buffer, and that each request is answered once.
-/

open Xv6.Lib Op

namespace Xv6.Disk

variable {s u : State} {t b i : Nat} {idx : Idx} {c : Pc}

/-! ## Counting descriptors -/

def State.held (s : State) (t : Nat) : List Nat := (s.view t).elim [] fun v => Idx.list v.2.1

namespace Inv

theorem nodup_held (h : Inv s) : (s.live.flatMap s.held).Nodup := by
  refine List.nodup_flatMap.mpr ⟨fun t _ => ?_, ?_⟩
  · rw [State.held]
    cases hv : s.view t with
    | none => exact List.nodup_nil
    | some v => exact (h.reqs.chain t v.1 v.2.1 v.2.2 hv).nodup
  · refine h.reqs.nodup.imp fun {r r'} hne => ?_
    intro i hi hi'
    rw [State.held] at hi hi'
    cases hv : s.view r with
    | none => simp [hv] at hi
    | some v =>
      cases hv' : s.view r' with
      | none => simp [hv'] at hi'
      | some v' =>
        rw [hv] at hi
        rw [hv'] at hi'
        exact (h.reqs.apart r r' v.1 v'.1 v.2.1 v'.2.1 v.2.2 v'.2.2 hne hv hv').2 i hi hi'

theorem mem_held (h : Inv s) : i ∈ s.live.flatMap s.held ↔ i < NUM ∧ s.free i = false := by
  rw [List.mem_flatMap]
  constructor
  · rintro ⟨t, -, hi⟩
    rw [State.held] at hi
    cases hv : s.view t with
    | none => simp [hv] at hi
    | some v =>
      rw [hv] at hi
      have hc := h.reqs.chain t v.1 v.2.1 v.2.2 hv
      exact ⟨hc.bound i hi, hc.used i hi⟩
  · rintro ⟨hi, hf⟩
    obtain ⟨t, b, idx, w, hv, hmem⟩ := h.reqs.owned i hi hf
    refine ⟨t, (h.reqs.live t).mpr (by rw [hv]; rfl), ?_⟩
    rw [State.held, hv]
    exact hmem

theorem length_held (h : Inv s) : (s.live.flatMap s.held).length = 3 * s.live.length := by
  have hlen : ∀ t ∈ s.live, (s.held t).length = 3 := by
    intro t ht
    obtain ⟨v, hv⟩ := Option.isSome_iff_exists.mp ((h.reqs.live t).mp ht)
    rw [State.held, hv]
    rfl
  rw [List.length_flatMap, List.map_congr_left hlen, List.map_const', List.sum_replicate_nat, Nat.mul_comm]

theorem free_count (h : Inv s) : (List.range NUM).countP s.free + 3 * s.live.length = NUM := by
  have hperm : ((List.range NUM).filter fun i => ¬ s.free i).Perm (s.live.flatMap s.held) := by
    refine (List.perm_ext_iff_of_nodup (List.nodup_range.filter _) h.nodup_held).mpr fun i => ?_
    rw [h.mem_held]
    simp
  have hcount := List.length_eq_countP_add_countP s.free (l := List.range NUM)
  rw [List.countP_eq_length_filter (p := fun i => ¬ s.free i), hperm.length_eq, h.length_held, List.length_range] at hcount
  exact hcount.symm

end Inv

/-! ## What a step leaves alone -/

def Same (s u : State) : Prop := u.availRing = s.availRing ∧ ∀ b, (s.buf b).disk = true → (u.buf b).disk = true

instance : IsPreorder State Same where
  refl _ := ⟨rfl, fun _ h => h⟩
  trans _ _ _ h h' := ⟨h'.1.trans h.1, fun b hb => h'.2 b (h.2 b hb)⟩

theorem Same.of_buf (hring : u.availRing = s.availRing) (hbuf : u.buf = s.buf) : Same s u :=
  ⟨hring, fun b hb => by rwa [hbuf]⟩

theorem Same.of_update {x : Buf} (hring : u.availRing = s.availRing) (hbuf : u.buf = Function.update s.buf b x)
    (hx : (s.buf b).disk = true → x.disk = true) : Same s u := by
  refine ⟨hring, fun b' hb' => ?_⟩
  rw [hbuf]
  by_cases he : b' = b
  · rw [he, Function.update_self]
    exact hx (he ▸ hb')
  · rwa [Function.update_of_ne he]

namespace Same

theorem goto : Keeps Same (goto t c) := .update fun _ => .of_buf rfl rfl

theorem acquire : Keeps Same (acquire t) :=
  .bind (.gets _) fun _ => .ite (.update fun _ => .of_buf rfl rfl) (.stop _)

theorem release : Keeps Same release := .update fun _ => .of_buf rfl rfl

theorem alloc_desc_loop (k i : Nat) : Keeps Same (alloc_desc_loop k i) := by
  induction k generalizing i with
  | zero => exact .pure _
  | succ k ih =>
    exact .bind (.gets _) fun _ => .ite (.bind (.update fun _ => .of_buf rfl rfl) fun _ => .pure _) (ih (i + 1))

theorem free_desc (i : Nat) : Keeps Same (free_desc i) :=
  .bind (.gets _) fun _ => .ite (.stop _) (.ite (.stop _) (.update fun _ => .of_buf rfl rfl))

theorem free_chain (fuel i : Nat) : Keeps Same (free_chain fuel i) := by
  induction fuel generalizing i with
  | zero => exact .stop _
  | succ fuel ih => exact .bind (.gets _) fun _ => .bind (free_desc i) fun _ => .ite (ih _) (.pure _)

theorem alloc3_desc : Keeps Same alloc3_desc := by
  have halloc : Keeps Same alloc_desc := alloc_desc_loop NUM 0
  refine .bind halloc fun i => ?_
  cases i with
  | none => exact .pure _
  | some i =>
    refine .bind halloc fun j => ?_
    cases j with
    | none => exact .bind (free_desc i) fun _ => .pure _
    | some j =>
      refine .bind halloc fun k => ?_
      cases k with
      | none => exact .bind (free_desc i) fun _ => .bind (free_desc j) fun _ => .pure _
      | some k => exact .pure _

theorem rwStep (hc : ∀ b idx, c ≠ .ring b idx) : Keeps Same (rwStep t c) := by
  cases c with
  | entered b write | nodesc b write | asleep b idx => exact .bind acquire fun _ => goto
  | alloc b write =>
    refine .bind alloc3_desc fun idx => ?_
    cases idx with
    | none => exact .bind release fun _ => goto
    | some idx => exact .bind (.update fun _ => .of_update rfl rfl fun _ => rfl) fun _ => goto
  | ring b idx => exact absurd rfl (hc b idx)
  | bump b idx => exact .bind (.update fun _ => .of_buf rfl rfl) fun _ => goto
  | check b idx =>
    refine .bind (.gets _) fun _ => .ite (.bind release fun _ => goto) ?_
    refine .bind (.update fun _ => .of_buf rfl rfl) fun _ => .bind (free_chain _ _) fun _ => .bind release fun _ => ?_
    exact .bind (.update fun _ => .of_update rfl rfl id) fun _ => goto
  | idle | intr | intrLoop => exact .stop _

end Same

theorem same_or {a : Act} (hrun : run a s = .ok ((), u)) : Same s u ∨
    (∃ t b idx, s.pc t = .ring b idx ∧ u.buf = s.buf ∧
      u.availRing = Function.update s.availRing (s.availIdx.toNat % NUM) idx.1) ∨
    (∃ t b, a = .intrStep t ∧ s.used_idx ≠ s.usedIdx ∧ (s.info (s.usedRing (s.used_idx.toNat % NUM))).b = some b ∧
      u.availRing = s.availRing ∧ u.buf = Function.update s.buf b { s.buf b with disk := false }) := by
  cases a with
  | rw t b write =>
    refine .inl (Keeps.bind (.gets _) (fun s => .ite (.bind ?_ fun _ => Same.goto) (.stop _)) s () u hrun)
    exact .update fun s => .of_update rfl rfl id
  | intr t => exact .inl (Keeps.bind (.gets _) (fun s => .ite Same.goto (.stop _)) s () u hrun)
  | rwStep t =>
    by_cases hring : ∃ b idx, s.pc t = .ring b idx
    · obtain ⟨b, idx, hpc⟩ := hring
      change rwStep t (s.pc t) s = .ok ((), u) at hrun
      simp only [hpc, rwStep, bind_ok, update_ok, Disk.goto] at hrun
      obtain ⟨_, _, rfl, rfl⟩ := hrun
      exact .inr (.inl ⟨t, b, idx, hpc, rfl, rfl⟩)
    · exact .inl (Same.rwStep (fun b idx hpc => hring ⟨b, idx, hpc⟩) s () u hrun)
  | intrStep t =>
    change intrStep t (s.pc t) s = .ok ((), u) at hrun
    cases hpc : s.pc t with
    | intr =>
      rw [hpc] at hrun
      exact .inl (Keeps.bind Same.acquire (fun _ => Same.goto) s () u hrun)
    | intrLoop =>
      rw [hpc, intrStep, run_bind (run_gets id)] at hrun
      by_cases hidx : s.used_idx = s.usedIdx
      · simp only [id, if_pos hidx] at hrun
        exact .inl (Keeps.bind Same.release (fun _ => Same.goto) s () u hrun)
      · simp only [id, if_neg hidx] at hrun
        split at hrun
        · cases hrun
        · cases hb : (s.info (s.usedRing (s.used_idx.toNat % NUM))).b with
          | none =>
            rw [hb] at hrun
            cases hrun
          | some b =>
            rw [hb, update_ok] at hrun
            rw [hrun]
            exact .inr (.inr ⟨t, b, rfl, hidx, rfl, rfl, rfl⟩)
    | _ =>
      rw [hpc] at hrun
      cases hrun
  | consume =>
    refine .inl (Keeps.bind (.gets _) (fun s => .ite (.stop _) ?_) s () u hrun)
    exact .update fun s => .of_buf rfl rfl
  | finish head =>
    refine .inl (Keeps.bind (.gets _) (fun s => .ite ?_ (.stop _)) s () u hrun)
    cases s.statusOf head with
    | status i => exact .update fun s => .of_buf rfl rfl
    | _ => exact .stop _
  | report head =>
    refine .inl (Keeps.bind (.gets _) (fun s => .ite ?_ (.stop _)) s () u hrun)
    cases s.dataOf head with
    | data b => exact .update fun s => .of_buf rfl rfl
    | _ => exact .stop _

namespace Inv

theorem avail_kept (h : Inv s) {a : Act} {k : Nat} (hrun : run a s = .ok ((), u)) (hlo : s.consumed.length ≤ k)
    (hhi : k < s.sent.length) : u.availRing (k % NUM) = s.availRing (k % NUM) := by
  obtain hsame | ⟨t, b, idx, hpc, -, hring⟩ | ⟨t, b, -, -, -, hring, -⟩ := same_or hrun
  · rw [hsame.1]
  · have hview : s.view t = some (b, idx, true) := by
      rw [State.view, hpc]
      rfl
    have hroom := h.queue_room hview
    have hslot : s.availIdx.toNat % NUM = s.sent.length % NUM := by rw [h.rings.availIdx, toNat_mod]
    rw [hring, hslot, Function.update_of_ne (slot_ne hhi (by omega))]
  · rw [hring]

/-- The flag of a buffer is cleared by the handler, for a completion of the request that waits for it. -/
theorem cleared (h : Inv s) {a : Act} (hrun : run a s = .ok ((), u)) (hset : (s.buf b).disk = true)
    (hclear : (u.buf b).disk = false) :
    ∃ t r idx, a = .intrStep t ∧ s.view r = some (b, idx, false) ∧ idx.1 ∈ s.unseen := by
  obtain hsame | ⟨_, _, _, -, hbuf, -⟩ | ⟨t, b', ha, hne, hb', -, hbuf⟩ := same_or hrun
  · have := hsame.2 b hset
    rw [hclear] at this
    cases this
  · rw [hbuf, hset] at hclear
    cases hclear
  · obtain ⟨-, b₂, hb₂, hdata, hmem, -, -⟩ := h.intr_clear hne rfl
    obtain rfl : b' = b₂ := Option.some.inj (hb'.symm.trans hb₂)
    have hbb : b = b' := by
      by_contra hbb
      rw [hbuf, Function.update_of_ne hbb, hset] at hclear
      cases hclear
    subst hbb
    obtain ⟨r, b₃, idx, hr, hidx, hc⟩ := h.pending_owner ((mem_pending s _).mpr (.inr (.inr (.inr hmem))))
    have : b = b₃ := by
      have := hc.dataOf
      rw [hidx, hdata] at this
      exact Addr.data.inj this
    subst this
    exact ⟨t, r, idx, ha, hr, by rw [hidx]; exact hmem⟩

/-- The handler finds every completion, also when the indices have wrapped. -/
theorem intr_progress (h : Inv s) (hpc : s.pc t = .intrLoop) (hne : s.unseen ≠ []) :
    ∃ u b, run (.intrStep t) s = .ok ((), u) ∧ (s.buf b).disk = true ∧ (u.buf b).disk = false ∧
      u.unseen.length + 1 = s.unseen.length := by
  have hlt : s.seen.length < s.reported.length := by
    by_contra hge
    exact hne (List.drop_eq_nil_of_le (by omega))
  have hidx : s.used_idx ≠ s.usedIdx := by
    intro he
    have hroom : s.reported.length ≤ s.seen.length + NUM := h.rings.used.room
    rw [h.rings.used_idx, h.rings.usedIdx] at he
    have := congrArg BitVec.toNat he
    simp only [BitVec.toNat_ofNat] at this
    have : NUM = 8 := rfl
    omega
  obtain ⟨hstatus, b, hb, -, -, hset, -⟩ := h.intr_clear hidx rfl
  have hrun : run (.intrStep t) s = .ok ((), { s with
      buf := Function.update s.buf b { s.buf b with disk := false }
      used_idx := s.used_idx + 1
      seen := s.seen ++ [s.usedRing (s.used_idx.toNat % NUM)]
      clears := Function.update s.clears b (s.clears b + 1) }) := by
    show intrStep t (s.pc t) s = _
    rw [hpc, intrStep, run_bind (run_gets id)]
    simp only [id, if_neg hidx, hstatus, ne_eq, not_true_eq_false, if_false, hb]
    rfl
  refine ⟨_, b, hrun, hset, ?_, ?_⟩
  · show (Function.update s.buf b _ b).disk = false
    rw [Function.update_self]
  · simp only [State.unseen, List.length_drop, List.length_append, List.length_singleton]
    omega

theorem unseen_le (h : Inv s) (b : Nat) :
    (s.unseen.countP fun k => s.dataOf k = .data b) ≤ if (s.buf b).disk = true then 1 else 0 := by
  have howner : ∀ k ∈ s.unseen, s.dataOf k = .data b → ∃ t idx, s.view t = some (b, idx, false) ∧ idx.1 = k := by
    intro k hk hdata
    obtain ⟨t, b', idx, ht, rfl, hc⟩ := h.pending_owner ((mem_pending s k).mpr (.inr (.inr (.inr hk))))
    rw [hc.dataOf] at hdata
    exact ⟨t, idx, Addr.data.inj hdata ▸ ht, rfl⟩
  by_cases hk : ∃ k ∈ s.unseen, s.dataOf k = .data b
  · obtain ⟨k, hk, hdata⟩ := hk
    obtain ⟨t, idx, ht, rfl⟩ := howner k hk hdata
    rw [if_pos ((h.flow.disk t b idx false ht).mpr (.inr ((mem_pending s _).mpr (.inr (.inr (.inr hk))))))]
    have hsub : (s.unseen.filter fun k => s.dataOf k = .data b) ⊆ [idx.1] := by
      intro k' hk'
      obtain ⟨hk', hdata'⟩ := List.mem_filter.mp hk'
      obtain ⟨t', idx', ht', rfl⟩ := howner k' hk' (of_decide_eq_true hdata')
      have htt : t' = t := by
        by_contra hne
        exact (h.reqs.apart t' t b b idx' idx false false hne ht' ht).1 rfl
      rw [htt, ht] at ht'
      cases ht'
      exact List.mem_singleton_self _
    have hnodup : s.unseen.Nodup := (List.nodup_append.mp h.flow.nodup).2.1
    rw [List.countP_eq_length_filter]
    exact ((hnodup.filter _).subperm hsub).length_le
  · rw [List.countP_eq_zero.mpr fun k hmem => by simpa using fun hd => hk ⟨k, hmem, hd⟩]
    exact Nat.zero_le _

end Inv

/-! ## Every run -/

/-- Every request is answered once: the `disk` flag of a buffer is cleared by the handler only, once for each report of
the device. Two requests share no descriptor, no step writes over an avail entry that is not consumed, and nothing stops
except to wait. -/
theorem each_request_once {blockno : Nat → Nat} (h : Path run (fun _ _ => True) (start blockno) s) :
    (∀ b, s.sets b = s.clears b + (if (s.buf b).disk = true then 1 else 0) ∧ s.clears b ≤ s.reports b ∧
      s.reports b ≤ s.sets b) ∧
    (∀ a u b, run a s = .ok ((), u) → (s.buf b).disk = true → (u.buf b).disk = false →
      ∃ t r idx, a = .intrStep t ∧ s.view r = some (b, idx, false) ∧ idx.1 ∈ s.unseen) ∧
    (∀ t, s.pc t = .intrLoop → s.unseen ≠ [] → ∃ u b, run (.intrStep t) s = .ok ((), u) ∧ (s.buf b).disk = true ∧
      (u.buf b).disk = false ∧ u.unseen.length + 1 = s.unseen.length) ∧
    (∀ r r' b b' idx idx' w w', r ≠ r' → s.view r = some (b, idx, w) → s.view r' = some (b', idx', w') →
      ∀ i ∈ Idx.list idx, i ∉ Idx.list idx') ∧
    (∀ a u k, run a s = .ok ((), u) → s.consumed.length ≤ k → k < s.sent.length →
      u.availRing (k % NUM) = s.availRing (k % NUM)) ∧
    (List.range NUM).countP s.free + 3 * s.live.length = NUM ∧
    (∀ a msg, run a s = .error msg → Blocked msg) := by
  have hinv := inv_of_path h
  refine ⟨fun b => ⟨hinv.flow.sets b, ?_, ?_⟩, fun a u b hrun => hinv.cleared hrun, fun t hpc hne => hinv.intr_progress hpc hne,
    fun r r' b b' idx idx' w w' hne hr hr' => (hinv.reqs.apart r r' b b' idx idx' w w' hne hr hr').2,
    fun a u k hrun hlo hhi => hinv.avail_kept hrun hlo hhi, hinv.free_count, fun a msg hrun => (hinv.run_ends a).of_error hrun⟩
  · rw [hinv.flow.reports b]
    exact Nat.le_add_right ..
  · rw [hinv.flow.reports b, hinv.flow.sets b]
    exact Nat.add_le_add_left (hinv.unseen_le b) _

def twoRequests : List Act :=
  [.rw 0 3 true, .rw 1 4 false] ++ List.replicate 5 (.rwStep 0) ++ List.replicate 5 (.rwStep 1) ++
    [.consume, .consume, .finish 3, .report 3, .intr 2, .intrStep 2, .intrStep 2, .intrStep 2, .rwStep 1, .rwStep 1,
      .finish 0]

theorem each_request_once_twoRequests : ∃ s, Path run (fun _ _ => True) (start id) s ∧ s.clears 4 = 1 ∧
    (s.buf 3).disk = true ∧ s.live = [0] ∧ (List.range NUM).countP s.free + 3 * s.live.length = NUM := by
  obtain ⟨s, hrun, hs⟩ := Path.exists_of_follow run (C := fun _ _ => True) twoRequests (start id)
    (fun s => decide (s.clears 4 = 1 ∧ (s.buf 3).disk = true ∧ s.live = [0])) (by decide +kernel)
  obtain ⟨hclears, hdisk, hlive⟩ := of_decide_eq_true hs
  exact ⟨s, hrun, hclears, hdisk, hlive, (each_request_once hrun).2.2.2.2.2.1⟩

/-- A request is with its thread or in one place: in the avail ring, with the device, or in the used ring. The device can
take the next one, also when the indices have wrapped, and can finish and report what it has. -/
theorem no_request_lost {blockno : Nat → Nat} (h : Path run (fun _ _ => True) (start blockno) s) {b : Nat}
    (hb : (s.buf b).disk = true) : ∃ t idx w, s.view t = some (b, idx, w) ∧
      (∀ t' idx' w', s.view t' = some (b, idx', w') → t' = t) ∧ (w = true ∨ s.pending.count idx.1 = 1) ∧
      (∀ k l, s.queued = k :: l → Ends consume s (fun _ u => u.queued = l ∧ u.taken = k :: s.taken) fun _ => False) ∧
      (idx.1 ∈ s.taken → Ends (finish idx.1) s (fun _ u => idx.1 ∈ u.finished) fun _ => False) ∧
      (idx.1 ∈ s.finished → Ends (report idx.1) s (fun _ u => idx.1 ∈ u.unseen) fun _ => False) := by
  have hinv := inv_of_path h
  obtain ⟨t, idx, w, ht⟩ := hinv.flow.busy b hb
  have hc := hinv.reqs.chain t b idx w ht
  simp only [consume, finish, report, ends_bind, ends_gets, ends_ite, ends_update, ends_stop, id]
  refine ⟨t, idx, w, ht, fun t' idx' w' ht' => ?_, ?_, fun k l hq => ⟨fun he => ?_, fun _ => ?_⟩,
    fun hmem => ⟨fun _ => ?_, fun hno => hno hmem⟩, fun hmem => ⟨fun _ => ?_, fun hno => hno hmem⟩⟩
  · by_contra hne
    exact (hinv.reqs.apart t' t b b idx' idx w' w hne ht' ht).1 rfl
  · exact ((hinv.flow.disk t b idx w ht).mp hb).imp_right fun hmem => List.count_eq_one_of_mem hinv.flow.nodup hmem
  · -- The indices are at most `NUM` apart.
    have hroom : s.sent.length ≤ s.consumed.length + NUM := hinv.rings.avail.room
    have hlen := congrArg List.length hq
    rw [hinv.rings.devIdx, hinv.rings.availIdx] at he
    have hmod := congrArg BitVec.toNat he
    simp only [BitVec.toNat_ofNat, NUM, State.queued, List.length_drop, List.length_cons] at hmod hroom hlen
    omega
  · have hlt : s.consumed.length < s.sent.length := by
      by_contra hge
      rw [State.queued, List.drop_eq_nil_of_le (by omega)] at hq
      cases hq
    rw [State.queued, hinv.rings.avail.rest_cons hlt] at hq
    obtain ⟨rfl, rfl⟩ := List.cons.inj hq
    rw [hinv.rings.devIdx, Inv.toNat_mod]
    exact ⟨by simp [State.queued], rfl⟩
  · rw [hc.statusOf]
    exact List.mem_cons_self
  · rw [hc.dataOf, ends_update, State.unseen, List.drop_append_of_le_length hinv.rings.used.le]
    simp

theorem no_request_lost_twoRequests : ∃ s, Path run (fun _ _ => True) (start id) s ∧ (s.buf 3).disk = true ∧
    ∃ t idx w, s.view t = some (3, idx, w) ∧ (w = true ∨ s.pending.count idx.1 = 1) := by
  obtain ⟨s, hrun, hs⟩ := Path.exists_of_follow run (C := fun _ _ => True) twoRequests (start id)
    (fun s => (s.buf 3).disk) (by decide +kernel)
  obtain ⟨t, idx, w, ht, -, hone, -⟩ := no_request_lost hrun hs
  exact ⟨s, hrun, hs, t, idx, w, ht, hone⟩

end Xv6.Disk
