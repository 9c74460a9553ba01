import Xv6.Files.Fileio

/-!
# A file that processes share

Several processes read and write through one `struct file`. Each step is what one of them does while
it has the inode locked, so that the offset is read and moved on in the same step.
-/

open Xv6.Lib Op

namespace Xv6.Files

open State

/-! ## Reading -/

section reading
variable [Super] {s t : State} {ip k tot off left n cap : Nat} {E : String → Prop}

def delivered (cap tot : Nat) (bs : List Byte) : Int × List Byte :=
  if tot + bs.length ≤ cap then (((tot + bs.length : Nat) : Int), bs) else (-1, bs.take (cap - tot))

omit [Super] in
theorem delivered_append {a b : List Byte} (h : tot + a.length ≤ cap) : delivered cap tot (a ++ b) =
    ((delivered cap (tot + a.length) b).1, a ++ (delivered cap (tot + a.length) b).2) := by
  unfold delivered
  rw [List.length_append, ← Nat.add_assoc]
  split_ifs
  · rfl
  · rw [List.take_append, List.take_of_length_le (by omega), Nat.sub_sub]

omit [Super] in
theorem delivered_broken {a b : List Byte} (h : ¬ tot + a.length ≤ cap) :
    delivered cap tot (a ++ b) = (-1, a.take (cap - tot)) := by
  unfold delivered
  rw [if_neg (by rw [List.length_append]; omega), List.take_append_of_le_length (by omega)]

theorem readi_user_loop_run (hv : (s.itable ip).valid = true) (hf : Full s ip) (hk : left ≤ k)
    (hoff : off + left ≤ (s.node ip).size) (hcap : tot ≤ cap) :
    readi_user_loop ip cap k tot off left s = .ok (delivered cap tot (s.slice ip off left), s) := by
  have hnone : left = 0 → delivered cap tot (s.slice ip off left) = ((tot : Int), []) := by
    rintro rfl
    exact if_pos hcap
  induction k generalizing tot off left with
  | zero => rw [hnone (by omega), readi_user_loop, run_pure]
  | succ k ih =>
    unfold readi_user_loop
    by_cases h0 : left = 0
    · rw [if_pos h0, hnone h0, run_pure]
    · have hsz := hf.size
      have hdiv : off / BSIZE * BSIZE ≤ off := Nat.div_mul_le_self ..
      obtain ⟨b, hb⟩ := Option.ne_none_iff_exists'.mp (hf.blocks (off / BSIZE) (by omega))
      have hmod : off % BSIZE < BSIZE := Nat.mod_lt _ (by decide)
      rw [if_neg h0, run_bind (bmap_found hv hb (block_index_lt (by omega))), if_neg (owner_ne_zero hb)]
      generalize hm : min left (BSIZE - off % BSIZE) = m
      have hsplit : s.slice ip off left = s.slice ip off m ++ s.slice ip (off + m) (left - m) := by
        rw [← slice_add, show m + (left - m) = left by omega]
      have hlen : (s.slice ip off m).length = m := slice_length
      rw [bytes, run_bind (run_gets _), slice_block hb (by omega), hsplit]
      split_ifs with hfit
      · rw [delivered_append (by omega), hlen, run_bind (ih (by omega) (by omega) hfit ?_)]
        · rfl
        · intro h1
          rw [h1]
          exact if_pos hfit
      · rw [delivered_broken (by omega)]
        rfl

theorem readi_user_run (hv : (s.itable ip).valid = true) (hf : Full s ip) :
    readi_user ip off n cap s = .ok (delivered cap 0 (readResult s ip off n), s) := by
  unfold readi_user readResult
  rw [inode, run_bind (run_gets _), ← node_valid hv]
  split_ifs with h1 h2
  · simp [delivered, run_pure]
  · exact readi_user_loop_run hv hf (Nat.le_refl _) (by omega) (Nat.zero_le _)
  · exact readi_user_loop_run hv hf (Nat.le_refl _) (by omega) (Nat.zero_le _)

theorem fileread_locked_ends {f : Nat} {n : Int} (h : Ready f ip s) : Ends (fileread_locked f n cap) s (fun r t =>
    ∃ u, Locked ip s u ∧ r = delivered cap 0 (readResult u ip (s.ftable f).off (n % 2 ^ 32).toNat) ∧
      t = u.advanced f r.1) E := by
  unfold fileread_locked
  simp only [ends_bind, ends_gets, ends_pure, h.inum]
  refine (ilock_ends h.sane h.ref h.live).mono fun _ u hu => ?_
  have hu' := h.locked hu
  rw [hu.ftable, ends_of_run (readi_user_run hu.valid (hu.sane.full ip (by simp) hu'.live)), ends_advance]
  exact iunlock_ends hu'.advanced.ref ⟨u, hu, rfl, rfl⟩

end reading

/-! ## The processes -/

inductive Task where
  | read (n : Int) (cap : Nat)
  | write (src : Source) (n : Int) (i : Nat)

def Task.Fresh : Task → Prop
  | .read _ _ => True
  | .write _ _ i => i = 0

instance (t : Task) : Decidable t.Fresh :=
  match t with
  | .read _ _ => isTrue trivial
  | .write _ _ i => inferInstanceAs (Decidable (i = 0))

/-- What one call of `readi` or `writei` moved: the offset, the number it returned and the bytes. -/
structure Transfer where
  start : Nat
  count : Int
  bytes : List Byte

structure Desk where
  task : Nat → Option Task
  moved : List Transfer

abbrev Sys := (State × Trace) × Desk

def setTask (p : Nat) (t : Option Task) : Op Sys Unit :=
  Op.right (Op.update fun d => { d with task := Function.update d.task p t })

def record (tr : Transfer) : Op Sys Unit := Op.right (Op.update fun d => { d with moved := d.moved ++ [tr] })

inductive Event where
  | call (p : Nat) (t : Task)
  | run (p : Nat)

section machine
variable [Layout]

def advanceTask (f p : Nat) : Op Sys Unit := do
  let e ← Op.left (Op.left (Op.gets fun s => s.ftable f))
  let t ← Op.right (Op.gets fun d => d.task p)
  match t with
  | none => Op.stop "no call"
  | some (.read n cap) =>
    if e.readable = false then setTask p none
    else do
      let r ← Op.left (Op.left (fileread_locked f n cap))
      record ⟨e.off, r.1, r.2⟩
      setTask p none
  | some (.write src n i) =>
    if e.writable = false ∨ n ≤ i then setTask p none
    else do
      let n1 := min (n.toNat - i) MAXWRITE
      let r ← Op.left (filewrite_op f src i n1)
      record ⟨e.off, r, (src.from i).data r.toNat⟩
      if r ≠ n1 then setTask p none else setTask p (some (.write src n (i + n1)))

def turn (f : Nat) : Event → Op Sys Unit
  | .call p t => do
    let cur ← Op.right (Op.gets fun d => d.task p)
    if cur.isNone ∧ t.Fresh then setTask p (some t) else Op.stop "no call"
  | .run p => advanceTask f p

end machine

/-! ## Everything is in its place -/

variable {f ip off₀ : Nat} {moved : List Transfer} {tr : Transfer}

def total (moved : List Transfer) : Nat := (moved.map fun tr => tr.count.toNat).sum

theorem total_append (a b : List Transfer) : total (a ++ b) = total a + total b := by
  simp [total]

theorem total_take_succ {k : Nat} (h : moved[k]? = some tr) :
    total (moved.take (k + 1)) = total (moved.take k) + tr.count.toNat := by
  rw [List.take_add_one, h, total_append]
  simp [total]

theorem total_take_le (k : Nat) : total (moved.take k) ≤ total moved := by
  have : total moved = total (moved.take k) + total (moved.drop k) := by
    rw [← total_append, List.take_append_drop]
  omega

section orderly
variable [Super] {s t : State}

/-- The transfers follow one another from `off₀` on up to the offset, and what they moved is in the file. -/
structure Orderly (f ip off₀ : Nat) (s : State) (moved : List Transfer) : Prop where
  ready : Ready f ip s
  off : (s.ftable f).off = off₀ + total moved
  lt : (s.ftable f).off < 2 ^ 32
  starts : ∀ k tr, moved[k]? = some tr → tr.start = off₀ + total (moved.take k)
  placed : ∀ tr ∈ moved, 0 < tr.count →
    tr.start + tr.count.toNat ≤ (s.node ip).size ∧ s.slice ip tr.start tr.count.toNat = tr.bytes

theorem Orderly.end_le (h : Orderly f ip off₀ s moved) (htr : tr ∈ moved) :
    tr.start + tr.count.toNat ≤ (s.ftable f).off := by
  obtain ⟨k, hk⟩ := List.mem_iff_getElem?.mp htr
  have h1 := h.starts k tr hk
  have h2 := total_take_succ hk
  have h3 : total (moved.take (k + 1)) ≤ total moved := total_take_le (k + 1)
  rw [h.off]
  omega

theorem Orderly.snoc (h : Orderly f ip off₀ s moved) (ht : Ready f ip t) (hstart : tr.start = (s.ftable f).off)
    (hoff : (t.ftable f).off = (s.ftable f).off + tr.count.toNat) (hlt : (t.ftable f).off < 2 ^ 32)
    (hsize : (s.node ip).size ≤ (t.node ip).size)
    (hkept : ∀ o < (s.node ip).size, o < (s.ftable f).off → t.byteAt ip o = s.byteAt ip o)
    (hnew : 0 < tr.count → tr.start + tr.count.toNat ≤ (t.node ip).size ∧
      t.slice ip tr.start tr.count.toNat = tr.bytes) : Orderly f ip off₀ t (moved ++ [tr]) where
  ready := ht
  off := by
    rw [hoff, h.off, total_append]
    simp [total, Nat.add_assoc]
  lt := hlt
  starts := by
    intro k tr' hk
    rcases Nat.lt_trichotomy k moved.length with hlt | rfl | hgt
    · rw [List.getElem?_append_left hlt] at hk
      rw [List.take_append_of_le_length hlt.le]
      exact h.starts k tr' hk
    · rw [List.getElem?_concat_length] at hk
      cases hk
      rw [hstart, h.off, List.take_left']
      rfl
    · rw [List.getElem?_eq_none (by simp; omega)] at hk
      cases hk
  placed := by
    intro tr' htr' hpos
    rcases List.mem_append.mp htr' with hold | hlast
    · obtain ⟨h1, h2⟩ := h.placed tr' hold hpos
      have h3 := h.end_le hold
      refine ⟨by omega, ?_⟩
      rw [← h2]
      apply List.map_congr_left
      intro k hk
      have := List.mem_range.mp hk
      exact hkept _ (by omega) (by omega)
    · cases List.mem_singleton.mp hlast
      exact hnew hpos

end orderly

section advanced
variable {s : State} {r : Int}

theorem advanced_node : (s.advanced f r).node = s.node := by
  unfold State.advanced
  split_ifs <;> rfl

theorem advanced_byteAt {o : Nat} : (s.advanced f r).byteAt ip o = s.byteAt ip o := by
  unfold State.advanced
  split_ifs <;> rfl

theorem advanced_off (h : (s.ftable f).off + r.toNat < 2 ^ 32) :
    ((s.advanced f r).ftable f).off = (s.ftable f).off + r.toNat := by
  unfold State.advanced
  split_ifs with h0
  · simp only [State.setFile, Function.update_self]
    exact Nat.mod_eq_of_lt h
  · rw [show r.toNat = 0 by omega, Nat.add_zero]

end advanced

theorem Locked.byteAt [Super] {s t : State} {i o : Nat} (h : Locked ip s t) : t.byteAt i o = s.byteAt i o := by
  rw [State.byteAt, State.byteAt, h.owner, h.data]

section steps
variable [Layout] {s t : State} {src : Source} {i n1 cap : Nat} {r n : Int} {l : Trace} {d : Desk} {E : String → Prop}

theorem Orderly.round (h : Orderly f ip off₀ s moved) (hr : Round f ip src i n1 r s t) :
    Orderly f ip off₀ t (moved ++ [⟨(s.ftable f).off, r, (src.from i).data r.toNat⟩]) := by
  have hready := h.ready.round hr
  have hlt := h.lt
  obtain ⟨u, v, hu, rfl, ⟨rfl, rfl⟩ | ⟨tot, rfl, hput⟩⟩ := hr
  · have hoff := advanced_off (s := v) (f := f) (r := -1) (by rw [hu.ftable]; exact h.lt)
    refine h.snoc hready rfl (by rw [hoff, hu.ftable]) (by rw [hoff, hu.ftable]; exact h.lt) ?_ ?_ (by simp)
    · rw [advanced_node, hu.node]
    · intro o _ _
      rw [advanced_byteAt, hu.byteAt]
  · have hft : v.ftable = s.ftable := hput.ftable.trans hu.ftable
    have hle := hput.le
    have hbound := hput.bound
    obtain ⟨g, hnode⟩ := hput.node
    have hsize : ((v.advanced f tot).node ip).size = max (s.node ip).size ((s.ftable f).off + tot) := by
      rw [advanced_node, hnode, hu.node]
    have hfits : (v.ftable f).off + (tot : Int).toNat < 2 ^ 32 := by
      rw [hft]
      simp only [MAXFILE, NINDIRECT, NDIRECT, BSIZE] at hbound
      omega
    have hoff := advanced_off hfits
    refine h.snoc hready rfl (by rw [hoff, hft]) (by rw [hoff]; exact hfits) (by rw [hsize]; omega) ?_ fun _ => ⟨?_, ?_⟩
    · intro o ho hlt
      rw [advanced_byteAt, hput.kept o (by rw [hu.node]; exact ho) (by omega), hu.byteAt]
    · rw [hsize]
      dsimp only
      omega
    · apply List.map_congr_left
      intro k hk
      have := List.mem_range.mp hk
      dsimp only at this ⊢
      rw [advanced_byteAt, hput.written _ (by omega) (by omega), Nat.add_sub_cancel_left]

omit [Layout] in
theorem readResult_slice (s : State) (ip off n : Nat) : ∃ k, readResult s ip off n = s.slice ip off k ∧
    (k = 0 ∨ off + k ≤ (s.node ip).size) := by
  unfold readResult
  split_ifs with h1 h2
  · exact ⟨0, rfl, .inl rfl⟩
  · exact ⟨_, rfl, .inr (by omega)⟩
  · exact ⟨_, rfl, .inr (by omega)⟩

theorem Orderly.fileread_locked (h : Orderly f ip off₀ s moved) : Ends (fileread_locked f n cap) s
    (fun r t => Orderly f ip off₀ t (moved ++ [⟨(s.ftable f).off, r.1, r.2⟩])) E := by
  refine (fileread_locked_ends h.ready).mono ?_
  rintro r _ ⟨u, hu, hr, rfl⟩
  have hu' := h.ready.locked hu
  obtain ⟨k, hres, hk⟩ : ∃ k, readResult u ip (s.ftable f).off (n % 2 ^ 32).toNat = u.slice ip (s.ftable f).off k ∧ _ :=
    readResult_slice ..
  rw [hres] at hr
  -- Either all the bytes arrive or the call fails.
  have hcount : r.1.toNat ≤ k ∧ (0 < r.1 → r.1.toNat = k ∧ r.2 = u.slice ip (s.ftable f).off k) := by
    rw [hr, delivered, slice_length]
    split_ifs <;> simp
  have hsize := (hu.sane.full ip (by simp) hu'.live).size
  have hlt := h.lt
  have hfits : (u.ftable f).off + r.1.toNat < 2 ^ 32 := by
    rw [hu.ftable]
    simp only [MAXFILE, NINDIRECT, NDIRECT, BSIZE] at hsize
    omega
  have hoff := advanced_off hfits
  refine h.snoc hu'.advanced rfl (by rw [hoff, hu.ftable]) (by rw [hoff]; exact hfits) ?_ ?_ fun hpos => ?_
  · rw [advanced_node, hu.node]
  · intro o _ _
    rw [advanced_byteAt, hu.byteAt]
  · obtain ⟨hall, hbytes⟩ := hcount.2 hpos
    dsimp only at hpos ⊢
    rw [advanced_node]
    refine ⟨by omega, ?_⟩
    rw [hbytes, hall]
    exact List.map_congr_left fun k _ => advanced_byteAt

theorem Orderly.turn {m : Sys} {e : Event} (h : Orderly f ip off₀ m.1.1 m.2.moved) :
    Ends (turn f e) m (fun _ m' => Orderly f ip off₀ m'.1.1 m'.2.moved) (· = "no call") := by
  cases e with
  | call p t =>
    simp only [Files.turn, setTask, ends_bind, ends_right, ends_gets, ends_ite, ends_update, ends_stop]
    exact ⟨fun _ => h, fun _ => trivial⟩
  | run p =>
    simp only [Files.turn, advanceTask, ends_bind, ends_left, ends_right, ends_gets]
    cases m.2.task p with
    | none => exact ends_stop.mpr rfl
    | some t =>
      cases t with
      | read n cap =>
        simp only [setTask, record, ends_ite, ends_bind, ends_left, ends_right, ends_update]
        exact ⟨fun _ => h, fun _ => h.fileread_locked⟩
      | write src n i =>
        simp only [setTask, record, ends_ite, ends_bind, ends_left, ends_right, ends_update]
        refine ⟨fun _ => h, fun _ => ?_⟩
        refine (filewrite_op_ends h.ready (Nat.min_le_right ..)).mono ?_
        rintro r q ⟨hround, -⟩
        exact ⟨fun _ => h.round hround, fun _ => h.round hround⟩

/-- In any order of the turns, the ranges that calls of `readi` and `writei` move follow one another from the first offset
on without a gap, the offset is where the last one ends, and every byte that was moved is in the file at its place. -/
theorem shared_offset {m₀ m : Sys} (hready : Ready f ip m₀.1.1) (hlt : (m₀.1.1.ftable f).off < 2 ^ 32)
    (hmoved : m₀.2.moved = []) (hrun : Path (Files.turn f) (fun _ _ => True) m₀ m) :
    (m.1.1.ftable f).off = (m₀.1.1.ftable f).off + total m.2.moved ∧
    (∀ k tr, m.2.moved[k]? = some tr → tr.start = (m₀.1.1.ftable f).off + total (m.2.moved.take k)) ∧
    (∀ (j k : Nat) (tr tr' : Transfer), j < k → m.2.moved[j]? = some tr → m.2.moved[k]? = some tr' →
      tr.start + tr.count.toNat ≤ tr'.start) ∧
    (∀ tr ∈ m.2.moved, 0 < tr.count → tr.start + tr.count.toNat ≤ (m.1.1.node ip).size ∧
      m.1.1.slice ip tr.start tr.count.toNat = tr.bytes) ∧
    ∀ e msg, Files.turn f e m = .error msg → msg = "no call" := by
  have h : Orderly f ip (m₀.1.1.ftable f).off m.1.1 m.2.moved := by
    refine hrun.invariant (I := fun m => Orderly f ip (m₀.1.1.ftable f).off m.1.1 m.2.moved) ?_ ?_
    · rw [hmoved]
      exact ⟨hready, by simp [total], hlt, (by simp), (by simp)⟩
    · exact fun e _ _ h _ hstep => h.turn.of_ok hstep
  refine ⟨h.off, h.starts, fun j k tr tr' hjk hj hk => ?_, h.placed, fun e msg he => h.turn.of_error he⟩
  rw [h.starts j tr hj, h.starts k tr' hk, Nat.add_assoc, ← total_take_succ hj]
  have : total ((m.2.moved.take k).take (j + 1)) ≤ _ := total_take_le (j + 1)
  rw [List.take_take, Nat.min_eq_left (by omega)] at this
  omega

/-! ## A write by one process -/

theorem Round.writable (h : Round f ip src i n1 r s t) : (t.ftable f).writable = (s.ftable f).writable := by
  have hadv : ∀ v : State, ((v.advanced f r).ftable f).writable = (v.ftable f).writable := by
    intro v
    unfold State.advanced
    split_ifs
    · simp [State.setFile]
    · rfl
  obtain ⟨u, v, hu, rfl, ⟨-, rfl⟩ | ⟨tot, -, hput⟩⟩ := h
  · rw [hadv, hu.ftable]
  · rw [hadv, hput.ftable, hu.ftable]

theorem turn_write {p : Nat} (htask : d.task p = some (.write src n i)) :
    Files.turn f (.run p) ((s, l), d) = (if (s.ftable f).writable = false ∨ n ≤ i then setTask p none
      else do
        let r ← Op.left (filewrite_op f src i (min (n.toNat - i) MAXWRITE))
        record ⟨(s.ftable f).off, r, (src.from i).data r.toNat⟩
        if r ≠ (min (n.toNat - i) MAXWRITE : Nat) then setTask p none
        else setTask p (some (.write src n (i + min (n.toNat - i) MAXWRITE)))) ((s, l), d) := by
  have hfile : (Op.left (Op.left (Op.gets fun s => s.ftable f)) : Op Sys _) ((s, l), d) =
      .ok (s.ftable f, ((s, l), d)) := rfl
  have htask' : (Op.right (Op.gets fun d => d.task p) : Op Sys _) ((s, l), d) =
      .ok (some (.write src n i), ((s, l), d)) := right_ok.mpr ⟨by rw [run_gets, htask], rfl⟩
  rw [Files.turn, advanceTask, run_bind hfile, run_bind htask']

theorem filewrite_loop_turns {m₀ : Sys} {p j k : Nat} {q : State × Trace}
    (h : Path (Files.turn f) (fun e _ => e = .run p) m₀ ((s, l), d)) (htask : d.task p = some (.write src n i))
    (hready : Ready f ip s) (hw : (s.ftable f).writable = true) (hk : n.toNat ≤ i + k)
    (hrun : filewrite_loop f src n.toNat (fun _ s => s) k i (s, l) = .ok (j, q)) :
    ∃ d', Path (Files.turn f) (fun e _ => e = .run p) m₀ (q, d') ∧ d'.task p = none := by
  have hend : ∀ {s l d i}, Path (Files.turn f) (fun e _ => e = .run p) m₀ ((s, l), d) →
      d.task p = some (.write src n i) → n ≤ i →
      ∃ d', Path (Files.turn f) (fun e _ => e = .run p) m₀ ((s, l), d') ∧ d'.task p = none := by
    intro s l d i h htask hle
    refine ⟨{ d with task := Function.update d.task p none }, h.step (a := .run p) rfl ?_, Function.update_self ..⟩
    rw [turn_write htask, if_pos (.inr hle)]
    rfl
  induction k generalizing s l d i with
  | zero =>
    obtain ⟨rfl, rfl⟩ := pure_ok.mp hrun
    exact hend h htask (by omega)
  | succ k ih =>
    unfold filewrite_loop at hrun
    split_ifs at hrun with hlt
    · have hlim : min (n.toNat - i) MAXWRITE ≤ MAXWRITE := Nat.min_le_right ..
      have hpos : 1 ≤ min (n.toNat - i) MAXWRITE := by
        simp only [MAXWRITE, MAXOPBLOCKS, BSIZE]
        omega
      generalize hn1 : min (n.toNat - i) MAXWRITE = n1 at hrun hlim hpos
      have hothers : (Op.left (Op.update fun s => s) : T Unit) (s, l) = .ok ((), (s, l)) := rfl
      rw [run_bind hothers] at hrun
      obtain ⟨r, ⟨t, l'⟩, hop, hrun⟩ := (bind_ok _ _).mp hrun
      have hround := ((filewrite_op_ends (E := fun _ => True) hready hlim).of_ok hop).1
      have hop' : (Op.left (filewrite_op f src i n1) : Op Sys Int) ((s, l), d) = .ok (r, ((t, l'), d)) :=
        left_ok.mpr ⟨hop, rfl⟩
      have hturn := turn_write (f := f) (s := s) (l := l) htask
      rw [if_neg (by rw [hw]; simp only [Bool.true_eq_false, false_or]; omega), hn1, run_bind hop'] at hturn
      split_ifs at hrun hturn with hne
      · obtain ⟨rfl, rfl⟩ := pure_ok.mp hrun
        exact ⟨_, h.step (a := .run p) rfl hturn, Function.update_self ..⟩
      · exact ih (h.step (a := .run p) rfl hturn) (Function.update_self ..) (hready.round hround)
          (by rw [hround.writable, hw]) (by omega) hrun
    · obtain ⟨rfl, rfl⟩ := pure_ok.mp hrun
      exact hend h htask (by omega)

/-- The turns of a process that writes do what `filewrite` does. -/
theorem turns_of_filewrite_loop {p j k : Nat} {q : State × Trace} (htask : d.task p = some (.write src n i))
    (hready : Ready f ip s) (hw : (s.ftable f).writable = true) (hk : n.toNat ≤ i + k)
    (hrun : filewrite_loop f src n.toNat (fun _ s => s) k i (s, l) = .ok (j, q)) :
    ∃ d', Path (Files.turn f) (fun e _ => e = .run p) ((s, l), d) (q, d') ∧ d'.task p = none :=
  filewrite_loop_turns .refl htask hready hw hk hrun

end steps

section twoBytes

def shareEvents : List Event :=
  [.call 0 (.write (.kernel [4, 5, 6]) 3 0), .call 1 (.read 1 1), .run 1, .run 0]

theorem shared_offset_two : ∃ s m, @Ready smallDisk 0 1 (openFile s) ∧
    Path (@turn smallLayout 0) (fun _ _ => True) ((openFile s, {}), ⟨fun _ => none, []⟩) m ∧
    m.2.moved.map (fun tr => (tr.start, tr.count)) = [(0, 1), (1, 3)] ∧
    (m.1.1.ftable 0).off = 0 + total m.2.moved := by
  obtain ⟨s, hsane, hs⟩ := exists_sane twoBytes (fun s => decide ((0 < (s.itable 1).ref ∧ (s.node 1).type ≠ .free ∧
    ((openFile s).ftable 0).off = 0) ∧
    (Path.follow (@turn smallLayout 0) (fun _ _ => True) shareEvents ((openFile s, {}), ⟨fun _ => none, []⟩)).toOption.map
      (fun r => decide (r.2.2.moved.map (fun tr => (tr.start, tr.count)) = [(0, 1), (1, 3)])) = some true))
    (by decide +kernel)
  obtain ⟨⟨href, hty, hoff⟩, hrun⟩ := of_decide_eq_true hs
  obtain ⟨m, hpath, hm⟩ := Path.exists_of_follow (@turn smallLayout 0) (C := fun _ _ => True) shareEvents _
    (fun m => decide (m.2.moved.map (fun tr => (tr.start, tr.count)) = [(0, 1), (1, 3)])) hrun
  have hready : @Ready smallDisk 0 1 (openFile s) :=
    @Ready.mk smallDisk 0 1 (openFile s) (@Sane.setFile smallDisk s 0 none _ hsane) rfl rfl href hty
  have hlt : ((openFile s).ftable 0).off < 2 ^ 32 := by rw [hoff]; decide
  refine ⟨s, m, hready, hpath, of_decide_eq_true hm, ?_⟩
  rw [(@shared_offset 0 1 smallLayout _ m hready hlt rfl hpath).1]
  dsimp only
  rw [hoff]

/-- Process 0 writes three bytes. -/
def writing : Desk := ⟨Function.update (fun _ => none) 0 (some (.write (.kernel [4, 5, 6]) 3 0)), []⟩

theorem turns_of_filewrite_loop_three : ∃ s j q d',
    @filewrite_loop smallLayout 0 (.kernel [4, 5, 6]) 3 (fun _ s => s) 3 0 (openFile s, {}) = .ok (j, q) ∧
    Path (@turn smallLayout 0) (fun e _ => e = .run 0) ((openFile s, {}), writing) (q, d') ∧ d'.task 0 = none := by
  obtain ⟨s, hsane, hs⟩ := exists_sane twoBytes (fun s => decide (0 < (s.itable 1).ref ∧ (s.node 1).type ≠ .free ∧
    (@filewrite_loop smallLayout 0 (.kernel [4, 5, 6]) 3 (fun _ s => s) 3 0 (openFile s, {})).toOption.isSome))
    (by decide +kernel)
  obtain ⟨href, hty, hrun⟩ := of_decide_eq_true hs
  obtain ⟨⟨j, q⟩, hrun⟩ := Option.isSome_iff_exists.mp hrun
  have hrun := toOption_eq_some.mp hrun
  have hready : @Ready smallDisk 0 1 (openFile s) :=
    @Ready.mk smallDisk 0 1 (openFile s) (@Sane.setFile smallDisk s 0 none _ hsane) rfl rfl href hty
  obtain ⟨d', hpath, hd'⟩ := @turns_of_filewrite_loop 0 1 smallLayout _ _ 0 3 _ writing 0 j 3 q rfl hready rfl
    (by decide) hrun
  exact ⟨s, j, q, d', hrun, hpath, hd'⟩

end twoBytes

end Xv6.Files
