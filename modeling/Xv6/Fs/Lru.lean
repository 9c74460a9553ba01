import Xv6.Fs.Bio
import Xv6.Lib.Links
import Xv6.Lib.Path

/-!
# The list of buffers

`bcache` keeps its buffers on a ring of pointers through `bcache.head`, which is `NBUF` here. The ring shows the list
that `Bio` has in its place, and that list is in the order in which the buffers were last put at its front.
-/

open Xv6.Lib Op

namespace Xv6.Fs

structure Bcache where
  buf : Nat → Buf
  links : Links Nat
  -- Ghosts: when each buffer was last put at the front, and the time.
  moved : Nat → Nat
  clock : Nat

namespace Bcache

def setBuf (c : Bcache) (i : Nat) (f : Buf → Buf) : Bcache :=
  { c with buf := fun j => if j = i then f (c.buf j) else c.buf j }

def toFront (c : Bcache) (i : Nat) : Bcache :=
  { c with links := c.links.push NBUF i, moved := Function.update c.moved i c.clock, clock := c.clock + 1 }

def binit : Bcache :=
  (List.range NBUF).foldl toFront ⟨fun _ => {}, ⟨fun _ => NBUF, fun _ => NBUF⟩, fun _ => 0, 0⟩

def bget_ref (dev blockno : Nat) : Op Bcache Nat := do
  let c ← Op.gets id
  let cached := fun i => (c.buf i).dev == dev && (c.buf i).blockno == blockno
  match Links.search c.links.next NBUF cached (NBUF + 1) (c.links.next NBUF) with
  | none => Op.stop "the loop does not end"
  | some (some i) => do
    Op.update (·.setBuf i fun b => { b with refcnt := b.refcnt + 1 })
    pure i
  | some none =>
    match Links.search c.links.prev NBUF (fun i => (c.buf i).refcnt == 0) (NBUF + 1) (c.links.prev NBUF) with
    | none => Op.stop "the loop does not end"
    | some (some i) => do
      Op.update (·.setBuf i fun b => { b with dev, blockno, valid := false, refcnt := 1 })
      pure i
    | some none => Op.stop "bget: no buffers"

def brelse (p i : Nat) : Op Bcache Unit := do
  let c ← Op.gets id
  if (c.buf i).lock = some p then do
    Op.update (·.setBuf i fun b => { b with lock := none, refcnt := b.refcnt - 1 })
    let c ← Op.gets id
    if (c.buf i).refcnt = 0 then Op.update fun c => toFront { c with links := c.links.unlink i } i
    else pure ()
  else Op.stop "brelse"

structure Order (c : Bcache) (l : List Nat) : Prop where
  ring : c.links.Ring NBUF l
  sorted : l.Pairwise fun i j => c.moved j < c.moved i
  before : ∀ i ∈ l, c.moved i < c.clock

variable {c c' : Bcache} {s s' : Store} {l : List Nat} {i : Nat}

theorem Order.toFront (h : Order c l) (hi : i ∉ NBUF :: l) : Order (c.toFront i) (i :: l) := by
  have hself : (c.toFront i).moved i = c.clock := Function.update_self ..
  have hother : ∀ j ∈ l, (c.toFront i).moved j = c.moved j := by
    intro j hj
    have hji : j ≠ i := fun he => hi (List.mem_cons_of_mem _ (he ▸ hj))
    exact Function.update_of_ne hji ..
  refine ⟨h.ring.push hi, List.pairwise_cons.mpr ⟨fun j hj => ?_, ?_⟩, fun j hj => ?_⟩
  · rw [hself, hother j hj]
    exact h.before j hj
  · refine h.sorted.imp_of_mem fun ha hb hab => ?_
    rw [hother _ ha, hother _ hb]
    exact hab
  · obtain rfl | hj := List.mem_cons.mp hj
    · exact hself.trans_lt c.clock.lt_succ_self
    · exact (hother j hj).trans_lt (Nat.lt_succ_of_lt (h.before j hj))

theorem Order.unlink (h : Order c l) (hi : i ∈ l) : Order { c with links := c.links.unlink i } (l.erase i) :=
  ⟨h.ring.unlink hi, h.sorted.sublist List.erase_sublist, fun j hj => h.before j (List.mem_of_mem_erase hj)⟩

theorem binit_order (n : Nat) (hn : n ≤ NBUF) : Order ((List.range n).foldl Bcache.toFront
    ⟨fun _ => {}, ⟨fun _ => NBUF, fun _ => NBUF⟩, fun _ => 0, 0⟩) (List.range n).reverse := by
  induction n with
  | zero => exact ⟨⟨by simp, by simp [Links.Step]⟩, by simp, by simp⟩
  | succ n ih =>
    rw [List.range_succ, List.foldl_append, List.reverse_append]
    exact (ih (by omega)).toFront (by rw [List.mem_cons, List.mem_reverse, List.mem_range]; omega)

theorem binit_buf (l : List Nat) (c : Bcache) : (l.foldl Bcache.toFront c).buf = c.buf := by
  induction l generalizing c with
  | nil => rfl
  | cons i l ih => exact ih _

structure Shows (c : Bcache) (s : Store) : Prop where
  buf : c.buf = s.buf
  order : Order c s.lru
  perm : s.lru.Perm (List.range NBUF)

theorem Shows.mem (h : Shows c s) : i ∈ s.lru ↔ i < NBUF := by rw [h.perm.mem_iff, List.mem_range]

theorem Shows.setBuf (h : Shows c s) (f : Buf → Buf) : Shows (c.setBuf i f) (s.setBuf i f) :=
  ⟨by rw [Bcache.setBuf, Store.setBuf, h.buf], ⟨h.order.ring, h.order.sorted, h.order.before⟩, h.perm⟩

theorem Shows.toFront (h : Shows c s) (hi : i < NBUF) :
    Shows (Bcache.toFront { c with links := c.links.unlink i } i) { s with lru := i :: s.lru.erase i } := by
  have hm := h.mem.mpr hi
  have hnd := (List.nodup_cons.mp h.order.ring.nodup).2
  refine ⟨h.buf, (h.order.unlink hm).toFront ?_, (List.perm_cons_erase hm).symm.trans h.perm⟩
  rw [List.mem_cons, not_or]
  exact ⟨hi.ne, hnd.not_mem_erase⟩

theorem Shows.searches (h : Shows c s) (dev blockno : Nat) :
    Links.search c.links.next NBUF (fun i => (c.buf i).dev == dev && (c.buf i).blockno == blockno) (NBUF + 1)
      (c.links.next NBUF) = some (s.lookup dev blockno) ∧
    Links.search c.links.prev NBUF (fun i => (c.buf i).refcnt == 0) (NBUF + 1) (c.links.prev NBUF) =
      some s.unused := by
  have hlen : s.lru.length < NBUF + 1 := by rw [h.perm.length_eq, List.length_range]; omega
  rw [h.buf]
  exact ⟨h.order.ring.search hlen, h.order.ring.search_prev hlen⟩

/-- Both return the same, in states of which one shows the other, or both stop with the same message. -/
def Alike {α : Type} (x : Op Bcache α) (y : F α) (c : Bcache) (s : Store) : Prop :=
  Ends x c (fun a c' => Ends y s (fun b s' => b = a ∧ Shows c' s') fun _ => False)
    (fun msg => Ends y s (fun _ _ => False) (· = msg))

theorem bget_ref_alike (h : Shows c s) (dev blockno : Nat) :
    Alike (bget_ref dev blockno) (Fs.bget_ref dev blockno) c s := by
  obtain ⟨hnext, hprev⟩ := h.searches dev blockno
  unfold Alike bget_ref Fs.bget_ref
  simp only [ends_bind, ends_gets, id, hnext, hprev]
  cases s.lookup dev blockno with
  | some i => exact ⟨rfl, h.setBuf _⟩
  | none =>
    cases s.unused with
    | some i => exact ⟨rfl, h.setBuf _⟩
    | none => exact rfl

theorem brelse_alike (h : Shows c s) (p : Nat) (hi : i < NBUF) : Alike (brelse p i) (Fs.brelse p i) c s := by
  have h' := h.setBuf (i := i) fun b => { b with lock := none, refcnt := b.refcnt - 1 }
  unfold Alike brelse Fs.brelse
  simp only [ends_bind, ends_gets, id_eq, h.buf]
  by_cases hl : (s.buf i).lock = some p
  · simp only [if_pos hl, ends_bind, ends_update, ends_gets, id_eq, h'.buf]
    split_ifs
    · exact ⟨trivial, h'.toFront hi⟩
    · exact ⟨trivial, h'⟩
  · simp only [if_neg hl]
    exact rfl

theorem Alike.of_ok {α : Type} {x : Op Bcache α} {y : F α} {a : α} (h : Alike x y c s) (hx : x c = .ok (a, c')) :
    ∃ s', y s = .ok (a, s') ∧ Shows c' s' := by
  have hy := Ends.of_ok h hx
  cases hys : y s with
  | ok r =>
    obtain ⟨b, s'⟩ := r
    obtain ⟨rfl, hs⟩ := hy.of_ok hys
    exact ⟨s', rfl, hs⟩
  | error msg => exact (hy.of_error hys).elim

theorem Shows.unused_oldest (h : Shows c s) (hi : s.unused = some i) : i < NBUF ∧ (c.buf i).refcnt = 0 ∧
    ∀ j < NBUF, j ≠ i → (c.buf j).refcnt = 0 → c.moved i < c.moved j := by
  obtain ⟨hzero, as, bs, hl, has⟩ := List.find?_eq_some_iff_append.mp hi
  have hsorted : (as ++ i :: bs).Pairwise fun a b => c.moved a < c.moved b := by
    rw [← hl, List.pairwise_reverse]
    exact h.order.sorted
  have hmem : ∀ j, j ∈ as ++ i :: bs ↔ j < NBUF := fun j => by rw [← hl, List.mem_reverse, h.mem]
  refine ⟨(hmem i).mp (by simp), by simpa [h.buf] using hzero, fun j hj hne hj0 => ?_⟩
  obtain hj | hj := List.mem_append.mp ((hmem j).mpr hj)
  · rw [h.buf] at hj0
    simpa [hj0] using has j hj
  · have hj : j ∈ bs := (List.mem_cons.mp hj).resolve_left hne
    exact List.rel_of_pairwise_cons (List.pairwise_append.mp hsorted).2.1 hj

/-! ## Runs -/

/-- The other functions of `bio.c` and their callers change a buffer in any way, but not the list. -/
inductive Act
  | bget (dev blockno : Nat)
  | brelse (p i : Nat)
  | change (i : Nat) (f : Buf → Buf)

/-- The buffers are those of `bcache.buf`. -/
def Act.Known : Act → Prop
  | .brelse _ i => i < NBUF
  | _ => True

instance : DecidablePred Act.Known
  | .brelse _ i => inferInstanceAs (Decidable (i < NBUF))
  | .bget .. | .change .. => isTrue trivial

def act : Act → Op Bcache Unit
  | .bget dev blockno => do let _ ← bget_ref dev blockno
  | .brelse p i => brelse p i
  | .change i f => Op.update (·.setBuf i f)

def listAct : Act → F Unit
  | .bget dev blockno => do let _ ← Fs.bget_ref dev blockno
  | .brelse p i => Fs.brelse p i
  | .change i f => Op.update (·.setBuf i f)

theorem binit_shows (disk : Nat → Data) (log : Log) : Shows binit (Fs.binit disk log) :=
  ⟨binit_buf _ _, binit_order NBUF le_rfl, List.reverse_perm _⟩

theorem act_shows {a : Act} (h : Shows c s) (ha : a.Known) (hrun : act a c = .ok ((), c')) :
    ∃ s', listAct a s = .ok ((), s') ∧ Shows c' s' := by
  cases a with
  | bget dev blockno =>
    obtain ⟨i, _, hget, hrun⟩ := (bind_ok _ _).mp hrun
    obtain ⟨s', hs', hshows⟩ := (bget_ref_alike h dev blockno).of_ok hget
    obtain ⟨-, rfl⟩ := pure_ok.mp hrun
    exact ⟨s', run_bind hs', hshows⟩
  | brelse p i => exact (brelse_alike h p ha).of_ok hrun
  | change i f =>
    rw [act, update_ok] at hrun
    subst hrun
    exact ⟨_, rfl, h.setBuf f⟩

theorem reach_shows (hp : Path act (fun a _ => a.Known) binit c) (disk : Nat → Data) (log : Log) :
    ∃ s, Path listAct (fun a _ => a.Known) (Fs.binit disk log) s ∧ Shows c s := by
  refine hp.invariant (I := fun c => ∃ s, Path listAct _ _ s ∧ Shows c s) ⟨_, .refl, binit_shows disk log⟩ ?_
  rintro a c c' ⟨s, hs, h⟩ ha hrun
  obtain ⟨s', hrun', h'⟩ := act_shows h ha hrun
  exact ⟨s', hs.step ha hrun', h'⟩

/-- Every run on the pointers is a run of `Bio` on its list: the ring goes through the buffers of the list in both
directions, and `bget` and `brelse` do the same there. -/
theorem pointers_show_list (hp : Path act (fun a _ => a.Known) binit c) (disk : Nat → Data) (log : Log) :
    ∃ s, Path listAct (fun a _ => a.Known) (Fs.binit disk log) s ∧ c.buf = s.buf ∧
      c.links.Ring NBUF s.lru ∧ s.lru.Perm (List.range NBUF) ∧
      (∀ dev blockno, Alike (bget_ref dev blockno) (Fs.bget_ref dev blockno) c s) ∧
      ∀ p, ∀ i < NBUF, Alike (brelse p i) (Fs.brelse p i) c s := by
  obtain ⟨s, hs, h⟩ := reach_shows hp disk log
  exact ⟨s, hs, h.buf, h.order.ring, h.perm, fun dev blockno => bget_ref_alike h dev blockno,
    fun p i hi => brelse_alike h p hi⟩

def oneBlock : List Act := [.bget 1 5, .change 0 fun b => { b with lock := some 7 }, .brelse 7 0]

theorem pointers_show_list_released : ∃ c, Path act (fun a _ => a.Known) binit c ∧ c.links.next NBUF = 0 ∧
    ∃ s, Path listAct (fun a _ => a.Known) (Fs.binit (fun _ _ => 0) ⟨0, 0, 0, false, []⟩) s ∧
      c.links.Ring NBUF s.lru := by
  obtain ⟨c, hp, hc⟩ := Path.exists_of_follow act (C := fun a _ => a.Known) oneBlock binit
    (fun c => c.links.next NBUF = 0) (by decide +kernel)
  obtain ⟨s, hs, -, hring, -⟩ := pointers_show_list hp (fun _ _ => 0) ⟨0, 0, 0, false, []⟩
  exact ⟨c, hp, of_decide_eq_true hc, s, hs, hring⟩

/-- In every reachable state `bget` returns the buffer of the block, or else it recycles of the unused buffers the one
that was put at the front of the list the longest time ago. -/
theorem bget_recycles_oldest (hp : Path act (fun a _ => a.Known) binit c) (dev blockno : Nat) :
    Ends (bget_ref dev blockno) c
      (fun i c' => (∀ j, j ≠ i → c'.buf j = c.buf j) ∧
        ((c.buf i).dev = dev ∧ (c.buf i).blockno = blockno ∧
            c'.buf i = { c.buf i with refcnt := (c.buf i).refcnt + 1 } ∨
          (∀ j < NBUF, ¬ ((c.buf j).dev = dev ∧ (c.buf j).blockno = blockno)) ∧
            c'.buf i = { c.buf i with dev, blockno, valid := false, refcnt := 1 } ∧
            i < NBUF ∧ (c.buf i).refcnt = 0 ∧
            ∀ j < NBUF, j ≠ i → (c.buf j).refcnt = 0 → c.moved i < c.moved j))
      (fun msg => msg = "bget: no buffers" ∧ ∀ j < NBUF, (c.buf j).refcnt ≠ 0) := by
  obtain ⟨s, -, h⟩ := reach_shows hp (fun _ _ => 0) ⟨0, 0, 0, false, []⟩
  obtain ⟨hnext, hprev⟩ := h.searches dev blockno
  unfold bget_ref
  simp only [ends_bind, ends_gets, id, hnext, hprev]
  cases hi : s.lookup dev blockno with
  | some i =>
    have hkey := List.find?_some hi
    simp only [Bool.and_eq_true, beq_iff_eq] at hkey
    exact ⟨fun j hj => if_neg hj, .inl ⟨by rw [h.buf, hkey.1], by rw [h.buf, hkey.2], if_pos rfl⟩⟩
  | none =>
    have hnone : ∀ j < NBUF, ¬ ((c.buf j).dev = dev ∧ (c.buf j).blockno = blockno) := by
      intro j hj
      simpa [h.buf] using List.find?_eq_none.mp hi j (h.mem.mpr hj)
    cases hfree : s.unused with
    | some i => exact ⟨fun j hj => if_neg hj, .inr ⟨hnone, if_pos rfl, h.unused_oldest hfree⟩⟩
    | none =>
      refine ⟨rfl, fun j hj => ?_⟩
      simpa [h.buf] using List.find?_eq_none.mp hfree j (List.mem_reverse.mpr (h.mem.mpr hj))

theorem bget_recycles_oldest_second : ∃ c c', Path act (fun a _ => a.Known) binit c ∧
    bget_ref 1 6 c = .ok (1, c') ∧ ∀ j < NBUF, j ≠ 1 → (c.buf j).refcnt = 0 → c.moved 1 < c.moved j := by
  obtain ⟨c, hp, hc⟩ := Path.exists_of_follow act (C := fun a _ => a.Known) oneBlock binit
    (fun c => (bget_ref 1 6 c).toOption.map Prod.fst = some 1 ∧ (c.buf 1).dev = 0) (by decide +kernel)
  obtain ⟨hget, hdev⟩ := of_decide_eq_true hc
  obtain ⟨⟨i, c'⟩, hrun, rfl⟩ := Option.map_eq_some_iff.mp hget
  have hrun := toOption_eq_some.mp hrun
  obtain ⟨-, ⟨hkey, -⟩ | ⟨-, -, -, -, holdest⟩⟩ := (bget_recycles_oldest hp 1 6).of_ok hrun
  · rw [hdev] at hkey
    contradiction
  · exact ⟨c, c', hp, hrun, holdest⟩

end Bcache

end Xv6.Fs
