import Xv6.Files.Blocks

/-!
# The contents of a file: `readi` and `writei`
-/

open Xv6.Lib Op

namespace Xv6.Files

open State

variable [Super] {s t u : State} {ip i b k j o off n tot left : Nat} {E : String → Prop} {src : Source}

def State.byteAt (s : State) (i o : Nat) : Byte :=
  match s.owner (i, slotOf (o / BSIZE)) with
  | some b => (s.data b).byte (o % BSIZE)
  | none => 0

section
omit [Super]

theorem byteAt_of_owner (h : s.owner (i, slotOf (o / BSIZE)) = some b) :
    s.byteAt i o = (s.data b).byte (o % BSIZE) := by
  simp only [State.byteAt, h]

def State.slice (s : State) (i off n : Nat) : List Byte := (List.range n).map fun k => s.byteAt i (off + k)

theorem slice_add (m : Nat) : s.slice i off (m + n) = s.slice i off m ++ s.slice i (off + m) n := by
  simp only [State.slice, List.range_add, List.map_append, List.map_map]
  congr 1
  apply List.map_congr_left
  intro k _
  simp only [Function.comp_apply, Nat.add_assoc]

theorem slice_congr (h : ∀ o, off ≤ o → o < off + n → t.byteAt i o = s.byteAt j o) :
    t.slice i off n = s.slice j off n := by
  apply List.map_congr_left
  intro k hk
  have := List.mem_range.mp hk
  exact h _ (by omega) (by omega)

theorem div_mod_block (off k : Nat) (h : off % BSIZE + k < BSIZE) :
    (off + k) / BSIZE = off / BSIZE ∧ (off + k) % BSIZE = off % BSIZE + k := by
  simp only [BSIZE] at *
  omega

theorem block_index_lt (h : off < MAXFILE * BSIZE) : off / BSIZE < MAXFILE := by
  simp only [MAXFILE, NINDIRECT, NDIRECT, BSIZE] at *
  omega

/-! ## Reading -/

theorem slice_block {m : Nat} (hb : s.owner (ip, slotOf (off / BSIZE)) = some b) (hm : off % BSIZE + m ≤ BSIZE) :
    (List.range m).map (fun k => (s.data b).byte (off % BSIZE + k)) = s.slice ip off m := by
  apply List.map_congr_left
  intro k hk
  obtain ⟨h1, h2⟩ := div_mod_block off k (by have := List.mem_range.mp hk; omega)
  rw [byteAt_of_owner (by rw [h1]; exact hb), h2]

end

theorem readi_loop_run (hv : (s.itable ip).valid = true) (hf : Full s ip) (hk : left ≤ k)
    (hoff : off + left ≤ (s.node ip).size) :
    readi_loop ip k off left s = .ok (s.slice ip off left, s) := by
  induction k generalizing off left with
  | zero =>
    obtain rfl : left = 0 := by omega
    rfl
  | succ k ih =>
    unfold readi_loop
    split_ifs with h0
    · rw [h0]
      rfl
    · have hsz := hf.size
      have hdiv : off / BSIZE * BSIZE ≤ off := Nat.div_mul_le_self ..
      obtain ⟨b, hb⟩ := Option.ne_none_iff_exists'.mp (hf.blocks (off / BSIZE) (by omega))
      have hmod : off % BSIZE < BSIZE := Nat.mod_lt _ (by decide)
      rw [run_bind (bmap_found hv hb (block_index_lt (by omega))), if_neg (owner_ne_zero hb)]
      generalize hm : min left (BSIZE - off % BSIZE) = m
      rw [bytes, run_bind (run_gets _), run_bind (ih (by omega) (by omega)), run_pure]
      have hsplit : left = m + (left - m) := by omega
      rw [slice_block hb (by omega), ← slice_add, ← hsplit]

def readResult (s : State) (ip off n : Nat) : List Byte :=
  if off > (s.node ip).size ∨ (off + n) % 2 ^ 32 < off then []
  else s.slice ip off (if off + n > (s.node ip).size then (s.node ip).size - off else n)

theorem readi_run (hv : (s.itable ip).valid = true) (hf : Full s ip) :
    readi ip off n s = .ok (readResult s ip off n, s) := by
  unfold readi readResult
  rw [inode, run_bind (run_gets _), ← node_valid hv]
  split_ifs with h1 h2
  · rfl
  · exact readi_loop_run hv hf (Nat.le_refl _) (by omega)
  · exact readi_loop_run hv hf (Nat.le_refl _) (by omega)

/-! ## Writing -/

theorem Wrote.of_copyin {bn c m : Nat} (h : Sane (some ip) s) (hb : s.owner (ip, slotOf bn) = some b)
    (hn : n ≤ m) (ht : t = s.setData b fun k =>
      if c ≤ k.val ∧ k.val < c + n then src.byte (tot + (k.val - c)) else s.data b k) :
    Wrote ip (bn * BSIZE + c) (bn * BSIZE + c + m) s t ∧ t.owner = s.owner := by
  have howner : t.owner = s.owner := by
    rw [ht]
    refine owner_setData fun i hi => ?_
    exact slotOf_ne_indirect bn (Prod.mk.inj (h.owned.inj _ _ _ hb hi)).2
  have hother : ∀ b', b' ≠ b → t.data b' = s.data b' := fun b' hne => by
    rw [ht]
    exact Function.update_of_ne hne ..
  have hself : t.data b = fun k =>
      if c ≤ k.val ∧ k.val < c + n then src.byte (tot + (k.val - c)) else s.data b k := by
    rw [ht]
    exact Function.update_self ..
  have hnode : t.node = s.node := by rw [ht]; rfl
  have hitable : t.itable = s.itable := by rw [ht]; rfl
  have hsane : Sane (some ip) t := by
    refine ⟨?_, ?_, ?_, ?_, ?_⟩
    · rw [hitable]
      exact h.typed
    · rw [hitable, show t.dinode = s.dinode by rw [ht]; rfl]
      exact h.synced
    · rw [hnode]
      exact h.range
    · rw [howner, show t.used = s.used by rw [ht]; rfl]
      exact h.owned
    · intro i hi hty
      rw [hnode] at hty
      obtain ⟨hsz, hbl⟩ := h.full i hi hty
      exact ⟨by rw [hnode]; exact hsz, by rw [hnode, howner]; exact hbl⟩
  refine ⟨⟨⟨hsane, fun i => by rw [hitable], fun i => by rw [hitable], fun i _ => by rw [hitable],
    ⟨(s.node ip).addrs, by rw [hnode]⟩, by rw [ht]; rfl, by rw [ht]; rfl, by rw [ht]; rfl, fun i sl _ => by rw [howner]⟩,
    fun r b' hr => by rw [howner, hr], ?_, ?_⟩, howner⟩
  · intro i sl b' hi hr
    refine hother b' ?_
    rintro rfl
    exact hi (Prod.mk.inj (h.owned.inj _ _ _ hr hb)).1
  · intro bn' b' hr k hk hno
    by_cases hbb : b' = b
    · subst hbb
      have := slotOf_inj (Prod.mk.inj (h.owned.inj _ _ _ hr hb)).2
      subst this
      rw [hself]
      simp only [Block.byte, dif_pos hk]
      rw [if_neg (by omega)]
    · rw [hother b' hbb]

theorem bmap_block_ends {bn : Nat} (lo hi : Nat) (h : Sane (some ip) s) (hv : (s.itable ip).valid = true)
    (hbn : bn < MAXFILE) : Ends (bmap ip bn) s (fun a t => Wrote ip lo hi s t ∧
      (a = 0 → s.owner (ip, slotOf bn) = none ∧ Exhausted t) ∧ (a ≠ 0 → t.owner (ip, slotOf bn) = some a)) E := by
  cases hb : s.owner (ip, slotOf bn) with
  | none =>
    refine (bmap_ends lo hi h hv hbn).mono ?_
    rintro a t ⟨hw, ha, hfull⟩
    exact ⟨hw, fun h0 => ⟨rfl, hfull h0⟩, ha⟩
  | some b =>
    rw [ends_of_run (bmap_found hv hb hbn)]
    exact ⟨.refl h, fun h0 => absurd h0 (owner_ne_zero hb), fun _ => hb⟩

omit [Super] in
theorem copied_byteAt {a : Nat} (ha : t.owner (ip, slotOf (off / BSIZE)) = some a)
    (ht : t.data a = fun k : Fin BSIZE => if off % BSIZE ≤ k.val ∧ k.val < off % BSIZE + n then
      src.byte (tot + (k.val - off % BSIZE)) else s.data a k) (hn : off % BSIZE + n ≤ BSIZE)
    (h1 : off ≤ o) (h2 : o < off + n) :
    t.owner (ip, slotOf (o / BSIZE)) = some a ∧ t.byteAt ip o = src.byte (tot + (o - off)) := by
  obtain ⟨hd, hmod⟩ := div_mod_block off (o - off) (by omega)
  rw [show off + (o - off) = o by omega] at hd hmod
  have hat : t.owner (ip, slotOf (o / BSIZE)) = some a := by rw [hd, ha]
  have hlt : o % BSIZE < BSIZE := Nat.mod_lt _ (by decide)
  refine ⟨hat, ?_⟩
  rw [byteAt_of_owner hat, ht]
  simp only [Block.byte, dif_pos hlt]
  rw [if_pos (by omega)]
  congr 1
  omega

/-- The bytes from `tot` on could not all be read, and those that could are in the block. -/
structure Spilled (ip : Nat) (src : Source) (tot off left : Nat) (t : State) : Prop where
  len : src.len < tot + min left (BSIZE - off % BSIZE)
  bytes : ∀ o, off ≤ o → o < off + (src.len - tot) →
    t.owner (ip, slotOf (o / BSIZE)) ≠ none ∧ t.byteAt ip o = src.byte (tot + (o - off))

omit [Super] in
theorem Spilled.congr (h : Spilled ip src tot off left t) (ho : u.owner = t.owner) (hd : u.data = t.data) :
    Spilled ip src tot off left u :=
  ⟨h.len, fun o h1 h2 => by rw [ho, State.byteAt, ho, hd]; exact h.bytes o h1 h2⟩

/-- The loop of `writei` went from `tot` and `off` to `tot'` and `off'`, with at most `left` bytes. -/
structure Copied (ip : Nat) (src : Source) (tot off left : Nat) (s : State) (tot' off' : Nat) (t : State) :
    Prop where
  wrote : Wrote ip off (off + min left (src.len - tot)) s t
  le : tot ≤ tot' ∧ tot' ≤ tot + left
  readable : tot' = tot ∨ tot' ≤ src.len
  end_eq : off' = off + (tot' - tot)
  written : ∀ o, off ≤ o → o < off' →
    t.owner (ip, slotOf (o / BSIZE)) ≠ none ∧ t.byteAt ip o = src.byte (tot + (o - off))
  short : tot' < tot + left → (s.owner (ip, slotOf (off' / BSIZE)) = none ∧ Exhausted t) ∨
    Spilled ip src tot' off' (tot + left - tot') t
  step : tot' = tot ∨ tot' = tot + left ∨ off' % BSIZE = 0

theorem Copied.stop (h : Wrote ip off (off + min left (src.len - tot)) s t)
    (hshort : 0 < left → (s.owner (ip, slotOf (off / BSIZE)) = none ∧ Exhausted t) ∨
      Spilled ip src tot off left t) :
    Copied ip src tot off left s tot off t :=
  ⟨h, ⟨Nat.le_refl _, by omega⟩, .inl rfl, by omega, fun o h1 h2 => absurd h2 (by omega),
    fun h => by rw [Nat.add_sub_cancel_left]; exact hshort (by omega), .inl rfl⟩

theorem Copied.cons {m tot' off' a : Nat} (h₁ : Wrote ip off (off + min left (src.len - tot)) s t)
    (ha : t.owner (ip, slotOf (off / BSIZE)) = some a) (hm : m = min left (BSIZE - off % BSIZE))
    (hlen : tot + m ≤ src.len) {t' : State} (ht' : t' = t.setData a fun k =>
      if off % BSIZE ≤ k.val ∧ k.val < off % BSIZE + min m (src.len - tot) then
        src.byte (tot + (k.val - off % BSIZE)) else t.data a k)
    (h₂ : Copied ip src (tot + m) (off + m) (left - m) t' tot' off' u) :
    Copied ip src tot off left s tot' off' u := by
  rw [show min m (src.len - tot) = m by omega] at ht'
  have hmod : off % BSIZE < BSIZE := Nat.mod_lt _ (by decide)
  obtain ⟨hw, howner⟩ := Wrote.of_copyin h₁.sane ha (Nat.le_refl _) ht'
  have hoff : off / BSIZE * BSIZE + off % BSIZE = off := Nat.div_add_mod' ..
  rw [hoff] at hw
  have h₂w := h₂.wrote
  rw [show off + m + min (left - m) (src.len - (tot + m)) = off + min left (src.len - tot) by omega] at h₂w
  have hle := h₂.le
  have heq := h₂.end_eq
  have hself : t'.data a = fun k => if off % BSIZE ≤ k.val ∧ k.val < off % BSIZE + m then
      src.byte (tot + (k.val - off % BSIZE)) else t.data a k := by
    rw [ht']
    exact Function.update_self ..
  have ha' : t'.owner (ip, slotOf (off / BSIZE)) = some a := by rw [howner, ha]
  refine ⟨(h₁.trans (hw.mono (Nat.le_refl _) (by omega))).trans (h₂w.mono (by omega) (Nat.le_refl _)),
    by omega, ?_, by omega, ?_, ?_, ?_⟩
  · rcases h₂.readable with h0 | h0
    · exact .inr (by omega)
    · exact .inr h0
  · intro o h1 h2
    by_cases ho : o < off + m
    · obtain ⟨hat, hbyte⟩ := copied_byteAt ha' hself (by omega) h1 ho
      have hau := h₂.wrote.keeps _ _ hat
      have hlt : o % BSIZE < BSIZE := Nat.mod_lt _ (by decide)
      have hback : o / BSIZE * BSIZE + o % BSIZE = o := Nat.div_add_mod' ..
      refine ⟨by rw [hau]; simp, ?_⟩
      rw [byteAt_of_owner hau, h₂.wrote.bytes (o / BSIZE) a hat _ hlt (by omega), ← byteAt_of_owner hat, hbyte]
    · obtain ⟨h3, h4⟩ := h₂.written o (by omega) h2
      refine ⟨h3, ?_⟩
      rw [h4]
      congr 1
      omega
  · intro hlt
    have hleft : tot + m + (left - m) - tot' = tot + left - tot' := by omega
    rw [← hleft]
    refine (h₂.short (by omega)).imp (And.imp_left fun hnone => ?_) id
    by_contra hno
    obtain ⟨b, hb⟩ := Option.ne_none_iff_exists'.mp hno
    rw [howner, h₁.keeps _ b hb] at hnone
    cases hnone
  · rcases h₂.step with h0 | h0 | h0
    · by_cases hlast : m = left
      · exact .inr (.inl (by omega))
      · -- The block is written to its end.
        refine .inr (.inr ?_)
        have hend : off' = (off / BSIZE + 1) * BSIZE := by
          rw [Nat.add_mul]
          omega
        rw [hend]
        exact Nat.mul_mod_left ..
    · exact .inr (.inl (by omega))
    · exact .inr (.inr h0)

omit [Super] in
theorem Spilled.of_copyin {m a : Nat} (ha : t.owner (ip, slotOf (off / BSIZE)) = some a)
    (hm : m = min left (BSIZE - off % BSIZE)) (hlen : ¬ tot + m ≤ src.len) {t' : State} (howner : t'.owner = t.owner)
    (ht' : t' = t.setData a fun k => if off % BSIZE ≤ k.val ∧ k.val < off % BSIZE + min m (src.len - tot) then
        src.byte (tot + (k.val - off % BSIZE)) else t.data a k) : Spilled ip src tot off left t' := by
  rw [show min m (src.len - tot) = src.len - tot by omega] at ht'
  have hmod : off % BSIZE < BSIZE := Nat.mod_lt _ (by decide)
  have hself : t'.data a = fun k => if off % BSIZE ≤ k.val ∧ k.val < off % BSIZE + (src.len - tot) then
      src.byte (tot + (k.val - off % BSIZE)) else t.data a k := by
    rw [ht']
    exact Function.update_self ..
  refine ⟨by omega, fun o h1 h2 => ?_⟩
  obtain ⟨hat, hbyte⟩ := copied_byteAt (by rw [howner, ha]) hself (by omega) h1 h2
  exact ⟨by rw [hat]; simp, hbyte⟩

theorem writei_loop_ends (h : Sane (some ip) s) (hv : (s.itable ip).valid = true) (hk : left ≤ k)
    (hoff : off + left ≤ MAXFILE * BSIZE) : Ends (writei_loop ip src k tot off left) s
      (fun r t => Copied ip src tot off left s r.1 r.2 t) E := by
  induction k generalizing s tot off left with
  | zero =>
    rw [writei_loop, ends_pure]
    exact .stop (.refl h) (by omega)
  | succ k ih =>
    unfold writei_loop
    simp only [ends_ite, ends_pure, ends_bind]
    refine ⟨fun h0 => .stop (.refl h) (by omega), fun h0 => ?_⟩
    refine (bmap_block_ends off (off + min left (src.len - tot)) h hv (block_index_lt (by omega))).mono ?_
    rintro a t ⟨hw, hzero, ha⟩
    refine ⟨fun ha0 => .stop hw fun _ => .inl (hzero ha0), fun ha0 => ?_⟩
    have hmod : off % BSIZE < BSIZE := Nat.mod_lt _ (by decide)
    generalize hm : min left (BSIZE - off % BSIZE) = m
    rw [copyin_block, ends_update]
    obtain ⟨t', ht'⟩ : ∃ t' : State, t' = t.setData a fun k =>
        if off % BSIZE ≤ k.val ∧ k.val < off % BSIZE + min m (src.len - tot) then
          src.byte (tot + (k.val - off % BSIZE)) else t.data a k := ⟨_, rfl⟩
    rw [← ht']
    obtain ⟨hw', ho'⟩ := Wrote.of_copyin (m := min m (src.len - tot)) hw.sane (ha ha0) (Nat.le_refl _) ht'
    rw [Nat.div_add_mod'] at hw'
    refine ⟨fun hlen => ?_, fun hlen => ?_⟩
    case refine_2 =>
      refine .stop (hw.trans (hw'.mono (Nat.le_refl _) (by omega))) fun _ => .inr ?_
      exact .of_copyin (ha ha0) hm.symm hlen ho' ht'
    refine (ih hw'.sane (by rw [hw'.valid, hw.valid, hv]) (by omega) (by omega)).mono ?_
    rintro ⟨tot', off'⟩ u hc
    exact .cons hw (ha ha0) hm.symm hlen ht' hc

/-- What `writei` leaves behind when `tot` of `n` bytes were written. -/
structure Put (ip : Nat) (src : Source) (off n tot : Nat) (s t : State) : Prop where
  start : off ≤ (s.node ip).size
  bound : off + n ≤ MAXFILE * BSIZE
  sane : Sane none t
  ref : ∀ i, (t.itable i).ref = (s.itable i).ref
  valid : ∀ i, (t.itable i).valid = (s.itable i).valid
  ftable : t.ftable = s.ftable
  proc : t.proc = s.proc
  node : ∃ f, t.node ip = { s.node ip with addrs := f, size := max (s.node ip).size (off + tot) }
  nodes : ∀ i, i ≠ ip → t.node i = s.node i
  others : ∀ i o, i ≠ ip → t.byteAt i o = s.byteAt i o
  written : ∀ o, off ≤ o → o < off + tot → t.byteAt ip o = src.byte (o - off)
  kept : ∀ o, o < (s.node ip).size → ¬ (off ≤ o ∧ o < off + min n src.len) → t.byteAt ip o = s.byteAt ip o
  rest : ∀ bn b, s.owner (ip, slotOf bn) = some b → t.owner (ip, slotOf bn) = some b ∧ ∀ k < BSIZE,
    ¬ (off ≤ bn * BSIZE + k ∧ bn * BSIZE + k < off + min n src.len) → (t.data b).byte k = (s.data b).byte k
  le : tot ≤ n
  readable : tot ≤ src.len
  short : tot < n → (s.owner (ip, slotOf ((off + tot) / BSIZE)) = none ∧ Exhausted t) ∨
    Spilled ip src tot (off + tot) (n - tot) t
  step : tot = 0 ∨ tot = n ∨ (off + tot) % BSIZE = 0

def grow (off : Nat) (n : Dinode) : Dinode := if off > n.size then { n with size := off } else n

omit [Super] in
theorem grow_eq (off : Nat) (n : Dinode) : grow off n = { n with size := max n.size off } := by
  unfold grow
  split_ifs with h
  · rw [Nat.max_eq_right (by omega)]
  · rw [Nat.max_eq_left (by omega)]

theorem Copied.blocks {off' bn : Nat} (h : Copied ip src 0 off n s tot off' t) (hf : Full s ip)
    (hoff : off ≤ (s.node ip).size) (hbn : bn * BSIZE < max (s.node ip).size off') :
    t.owner (ip, slotOf bn) ≠ none := by
  by_cases hlt : bn * BSIZE < (s.node ip).size
  · obtain ⟨b, hb⟩ := Option.ne_none_iff_exists'.mp (hf.blocks bn hlt)
    rw [h.wrote.keeps _ b hb]
    simp
  · have := (h.written (bn * BSIZE) (by omega) (by omega)).1
    rwa [Nat.mul_div_cancel _ (by decide)] at this

theorem Copied.put {off' : Nat} (h : Copied ip src 0 off n s tot off' t) (hs : Sane none s)
    (hv : (s.itable ip).valid = true) (hoff : off ≤ (s.node ip).size) (hn : off + n ≤ MAXFILE * BSIZE) :
    Put ip src off n tot s (t.edit ip (grow off')) := by
  have hf := hs.full ip (by simp) (hs.node_type hv)
  have hvt : (t.itable ip).valid = true := by rw [h.wrote.valid, hv]
  have hend : off' = off + tot := by simpa using h.end_eq
  obtain ⟨-, hle⟩ := h.le
  obtain ⟨f, hnode⟩ := h.wrote.node
  have hgrow : grow off' (t.node ip) = { s.node ip with addrs := f, size := max (s.node ip).size off' } := by
    rw [grow_eq, hnode]
  obtain ⟨hsane, howner⟩ := h.wrote.sane.edit (f := grow off') hvt (by rw [grow_eq]) (by rw [grow_eq])
    (by
      rw [hgrow]
      have := hf.size
      simp only [Nat.max_le]
      omega)
    (fun bn hbn => by
      rw [hgrow] at hbn
      exact h.blocks hf hoff hbn)
  have hbyte : ∀ i o, (t.edit ip (grow off')).byteAt i o = t.byteAt i o := by
    intro i o
    rw [State.byteAt, State.byteAt, howner]
    rfl
  refine ⟨hoff, hn, hsane, fun i => (edit_ref _).trans (h.wrote.ref i), fun i => (edit_valid _).trans (h.wrote.valid i),
    h.wrote.ftable, h.wrote.proc, ⟨f, ?_⟩, ?_, ?_, ?_, ?_, ?_, by omega, ?_, ?_, ?_⟩
  · rw [edit_node _ hvt, hgrow, hend]
  · intro i hi
    rw [edit_node_of_ne _ hi, State.node, State.node, h.wrote.valid, h.wrote.copies i hi, h.wrote.dinode]
  · intro i o hi
    rw [hbyte, State.byteAt, State.byteAt, h.wrote.others i _ hi]
    cases hb : s.owner (i, slotOf (o / BSIZE)) with
    | none => rfl
    | some b =>
      dsimp only
      rw [h.wrote.data i _ b hi hb]
  · intro o h1 h2
    rw [hbyte, (h.written o h1 (by omega)).2, Nat.zero_add]
  · intro o ho hno
    have hlt : o % BSIZE < BSIZE := Nat.mod_lt _ (by decide)
    have hback : o / BSIZE * BSIZE + o % BSIZE = o := Nat.div_add_mod' ..
    obtain ⟨b, hb⟩ := Option.ne_none_iff_exists'.mp (hf.blocks (o / BSIZE) (by omega))
    rw [hbyte, byteAt_of_owner hb, byteAt_of_owner (h.wrote.keeps _ b hb),
      h.wrote.bytes _ b hb _ hlt (by omega)]
  · intro bn b hb
    exact ⟨by rw [howner]; exact h.wrote.keeps _ b hb, h.wrote.bytes bn b hb⟩
  · rcases h.readable with h0 | h0 <;> omega
  · intro hlt
    rw [← hend]
    refine (h.short (by omega)).imp id fun hspill => ?_
    rw [Nat.zero_add] at hspill
    exact ⟨hspill.len, fun o h1 h2 => by rw [howner, hbyte]; exact hspill.bytes o h1 h2⟩
  · rw [← hend]
    simpa only [Nat.zero_add] using h.step

theorem writei_ends (h : Sane none s) (hv : (s.itable ip).valid = true) :
    Ends (writei ip src off n) s (fun r t => (r = -1 ∧ t = s ∧ (off > (s.node ip).size ∨
      (off + n) % 2 ^ 32 < off ∨ off + n > MAXFILE * BSIZE)) ∨ ∃ tot : Nat, r = tot ∧ Put ip src off n tot s t) E := by
  unfold writei
  simp only [ends_bind, inode, ends_gets, ends_ite, ends_pure, ends_edit]
  rw [← node_valid hv]
  refine ⟨fun h1 => .inl (by tauto), fun h1 => ⟨fun h2 => .inl (by tauto), fun h2 => ?_⟩⟩
  refine (writei_loop_ends (h.weaken _) hv (Nat.le_refl _) (by omega)).mono ?_
  rintro ⟨tot, off'⟩ t hc
  exact .inr ⟨tot, rfl, hc.put h hv (by omega) (by omega)⟩

end Xv6.Files
