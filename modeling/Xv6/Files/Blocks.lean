import Xv6.Files.Inode
import Xv6.Lib.Owner

/-!
# Who owns a block

Block numbers stand in the inodes and in their indirect blocks. Each block has at most one owner,
and the bitmap marks the blocks that have one.
-/

open Xv6.Lib Op

namespace Xv6.Files

variable {s t u : State} {ip i b k j bn a : Nat} {n : Dinode} {E : String → Prop}
  {x : Option Nat}

inductive Slot where
  | addr (k : Nat)
  | entry (j : Nat)
  deriving DecidableEq

def nonzero (a : Nat) : Option Nat := if a = 0 then none else some a

theorem nonzero_eq_some : nonzero a = some b ↔ a = b ∧ a ≠ 0 := by
  unfold nonzero
  split_ifs with h
  · simp [h]
  · simp [h]

theorem nonzero_eq_none : nonzero a = none ↔ a = 0 := by
  unfold nonzero
  split_ifs with h <;> simp [h]

def Dinode.slot (n : Dinode) (data : Nat → Data) : Slot → Option Nat
  | .addr k => if n.type ≠ .free ∧ k ≤ NDIRECT then nonzero (n.addrs k) else none
  | .entry j =>
    if n.type ≠ .free ∧ j < NINDIRECT ∧ n.addrs NDIRECT ≠ 0 then
      nonzero ((data (n.addrs NDIRECT)).word j).toNat
    else none

def slotOf (bn : Nat) : Slot := if bn < NDIRECT then .addr bn else .entry (bn - NDIRECT)

theorem slotOf_ne_indirect (bn : Nat) : slotOf bn ≠ .addr NDIRECT := by
  unfold slotOf
  split_ifs with h
  · intro he
    cases he
    exact absurd h (Nat.lt_irrefl _)
  · simp

theorem slotOf_inj {bn bn' : Nat} (h : slotOf bn = slotOf bn') : bn = bn' := by
  unfold slotOf at h
  split_ifs at h with h1 h2 h2
  · exact Slot.addr.inj h
  · have := Slot.entry.inj h
    omega

namespace State

def node (s : State) (i : Nat) : Dinode := if (s.itable i).valid then (s.itable i).copy else s.dinode i

def owner (s : State) (r : Nat × Slot) : Option Nat := (s.node r.1).slot s.data r.2

def withAddr (s : State) (ip k a : Nat) : State :=
  s.setInode ip fun e => { e with copy := { e.copy with addrs := Function.update e.copy.addrs k a } }

def edit (s : State) (ip : Nat) (f : Dinode → Dinode) : State :=
  { s with
    itable := Function.update s.itable ip { s.itable ip with copy := f (s.itable ip).copy }
    dinode := Function.update s.dinode ip (f (s.itable ip).copy) }

theorem node_valid (h : (s.itable i).valid = true) : s.node i = (s.itable i).copy := by
  simp [node, h]

theorem node_invalid (h : (s.itable i).valid = false) : s.node i = s.dinode i := by
  simp [node, h]

@[simp] theorem setInode_dinode (f : Inode → Inode) : (s.setInode i f).dinode = s.dinode := rfl

theorem setInode_self (f : Inode → Inode) : (s.setInode i f).itable i = f (s.itable i) :=
  Function.update_self ..

theorem setInode_of_ne (f : Inode → Inode) (h : j ≠ i) : (s.setInode i f).itable j = s.itable j :=
  Function.update_of_ne h ..

theorem node_setInode_of_ne (f : Inode → Inode) (h : j ≠ i) : (s.setInode i f).node j = s.node j := by
  rw [node, setInode_of_ne f h]
  rfl

theorem node_withAddr (h : (s.itable ip).valid = true) :
    (s.withAddr ip k a).node ip = { s.node ip with addrs := Function.update (s.node ip).addrs k a } := by
  rw [node_valid h, node_valid] <;> simp [withAddr, setInode_self, h]

section edit
variable (f : Dinode → Dinode)

theorem edit_self : (s.edit ip f).itable ip = { s.itable ip with copy := f (s.itable ip).copy } :=
  Function.update_self ..

theorem edit_of_ne (h : i ≠ ip) : (s.edit ip f).itable i = s.itable i := Function.update_of_ne h ..

theorem edit_disk : (s.edit ip f).dinode ip = f (s.itable ip).copy := Function.update_self ..

theorem edit_disk_of_ne (h : i ≠ ip) : (s.edit ip f).dinode i = s.dinode i := Function.update_of_ne h ..

theorem edit_ref : ((s.edit ip f).itable i).ref = (s.itable i).ref := by
  by_cases h : i = ip
  · subst h
    rw [edit_self]
  · rw [edit_of_ne f h]

theorem edit_valid : ((s.edit ip f).itable i).valid = (s.itable i).valid := by
  by_cases h : i = ip
  · subst h
    rw [edit_self]
  · rw [edit_of_ne f h]

theorem edit_node (h : (s.itable ip).valid = true) : (s.edit ip f).node ip = f (s.node ip) := by
  rw [node_valid h, node_valid (by rw [edit_valid, h]), edit_self]

theorem edit_node_of_ne (h : i ≠ ip) : (s.edit ip f).node i = s.node i := by
  rw [node, node, edit_of_ne f h, edit_disk_of_ne f h]

end edit

end State

open State

theorem ends_edit {f : Dinode → Dinode} {Q : Unit → State → Prop} :
    Ends (modifyInode ip f) s (fun _ t => Ends (iupdate ip) t Q E) E ↔ Q () (s.edit ip f) := by
  rw [modifyInode, ends_update, iupdate, ends_update, setInode_self]
  rfl

/-! ## Owners -/

theorem slot_congr {data data' : Nat → Data}
    (h : ∀ b, n.slot data (.addr NDIRECT) = some b → data' b = data b) : n.slot data' = n.slot data := by
  funext sl
  cases sl with
  | addr k => rfl
  | entry j =>
    simp only [Dinode.slot]
    split_ifs with hc
    · rw [h]
      simp [Dinode.slot, hc.1, nonzero_eq_some, hc.2.2]
    · rfl

theorem owner_ne_zero {r : Nat × Slot} (h : s.owner r = some b) : b ≠ 0 := by
  rintro rfl
  obtain ⟨i, sl⟩ := r
  cases sl <;> simp only [State.owner, Dinode.slot] at h <;> split_ifs at h <;>
    exact (nonzero_eq_some.mp h).2 (nonzero_eq_some.mp h).1

theorem owner_congr (hn : t.node i = s.node i)
    (hd : ∀ b, s.owner (i, .addr NDIRECT) = some b → t.data b = s.data b) (sl : Slot) :
    t.owner (i, sl) = s.owner (i, sl) := by
  unfold State.owner
  dsimp only
  rw [hn, slot_congr hd]

theorem owner_setData {d : Data} (h : ∀ i, s.owner (i, .addr NDIRECT) ≠ some b) :
    (s.setData b d).owner = s.owner := by
  funext x
  obtain ⟨i, sl⟩ := x
  have hn : (s.setData b d).node i = s.node i := rfl
  refine owner_congr hn (fun b' hb' => ?_) sl
  have hne : b' ≠ b := by
    rintro rfl
    exact h i hb'
  exact Function.update_of_ne hne ..

theorem owner_withAddr (hv : (s.itable ip).valid = true) (ht : (s.node ip).type ≠ .free) (hk : k ≤ NDIRECT)
    (hz : k = NDIRECT → (s.node ip).addrs NDIRECT = 0 ∧ ∀ j, (s.data a).word j = 0) :
    (s.withAddr ip k a).owner = Function.update s.owner (ip, .addr k) (nonzero a) := by
  funext x
  obtain ⟨i, sl⟩ := x
  by_cases hi : i = ip
  · subst hi
    unfold State.owner
    dsimp only
    rw [node_withAddr hv]
    cases sl with
    | addr k' =>
      by_cases hkk : k' = k
      · subst hkk
        simp [Dinode.slot, ht, hk]
      · rw [Function.update_of_ne (by simp [hkk])]
        simp [Dinode.slot, Function.update_of_ne hkk]
    | entry j =>
      rw [Function.update_of_ne (by simp)]
      by_cases hkk : k = NDIRECT
      · subst hkk
        obtain ⟨h0, hz⟩ := hz rfl
        simp [Dinode.slot, h0, withAddr, setInode, hz, nonzero]
      · have hne : NDIRECT ≠ k := Ne.symm hkk
        simp only [Dinode.slot, Function.update_of_ne hne]
        rfl
  · rw [Function.update_of_ne (by simp [hi])]
    exact owner_congr (node_setInode_of_ne _ hi) (fun _ _ => rfl) sl

/-! ## The invariant -/

variable [Super]

/-- Every block of the file up to its size is there. -/
structure Full (s : State) (i : Nat) : Prop where
  size : (s.node i).size ≤ MAXFILE * BSIZE
  blocks : ∀ bn, bn * BSIZE < (s.node i).size → s.owner (i, slotOf bn) ≠ none

/-- The inode table agrees with the disk and the blocks are in order, except for the inode `x` that
is being changed. -/
structure Sane (x : Option Nat) (s : State) : Prop where
  typed : ∀ i, (s.itable i).valid = true → (s.itable i).copy.type ≠ .free
  synced : ∀ i, some i ≠ x → (s.itable i).valid = true → (s.itable i).copy = s.dinode i
  range : ∀ i, (s.node i).type ≠ .free → 1 ≤ i ∧ i < ninodes
  owned : Owns (· < size) (· < nmeta) s.used s.owner
  full : ∀ i, some i ≠ x → (s.node i).type ≠ .free → Full s i

theorem Sane.node_type (h : Sane x s) (hv : (s.itable i).valid = true) : (s.node i).type ≠ .free := by
  rw [node_valid hv]
  exact h.typed i hv

theorem Sane.weaken (h : Sane none s) (x : Option Nat) : Sane x s :=
  ⟨h.typed, fun i _ => h.synced i (by simp), h.range, h.owned, fun i _ => h.full i (by simp)⟩

theorem Sane.node_eq (h : Sane none s) (i : Nat) : s.node i = s.dinode i := by
  cases hv : (s.itable i).valid with
  | true => rw [node_valid hv, h.synced i (by simp) hv]
  | false => rw [node_invalid hv]

theorem Sane.of_disk (h : Sane none s) (hu : t.used = s.used) (hd : t.data = s.data) (hn : t.dinode = s.dinode)
    (hv : ∀ i, (t.itable i).valid = true → (t.itable i).copy = s.dinode i ∧ (s.dinode i).type ≠ .free) :
    Sane none t ∧ t.node = s.node ∧ t.owner = s.owner := by
  have hnode : t.node = s.node := by
    funext i
    rw [h.node_eq i]
    cases hvi : (t.itable i).valid with
    | true => rw [node_valid hvi, (hv i hvi).1]
    | false => rw [node_invalid hvi, hn]
  have howner : t.owner = s.owner := by
    funext r
    rw [State.owner, State.owner, hnode, hd]
  refine ⟨⟨?_, ?_, ?_, ?_, ?_⟩, hnode, howner⟩
  · intro i hvi
    rw [(hv i hvi).1]
    exact (hv i hvi).2
  · intro i _ hvi
    rw [(hv i hvi).1, hn]
  · rw [hnode]
    exact h.range
  · rw [hu, howner]
    exact h.owned
  · intro i hx hty
    rw [hnode] at hty
    obtain ⟨hsz, hb⟩ := h.full i hx hty
    exact ⟨by rw [hnode]; exact hsz, by rw [hnode, howner]; exact hb⟩

theorem Sane.valid_disk (h : Sane none s) (hv : (s.itable i).valid = true) :
    (s.itable i).copy = s.dinode i ∧ (s.dinode i).type ≠ .free := by
  have hc := h.synced i (by simp) hv
  exact ⟨hc, hc ▸ h.typed i hv⟩

theorem Sane.addr_pos (h : Sane x s) {r : Nat × Slot} (hr : s.owner r = some b) :
    nmeta ≤ b ∧ b < size ∧ b ≠ 0 := by
  obtain ⟨h1, h2⟩ := h.owned.range r b hr
  have := Super.nmeta_pos
  exact ⟨by omega, h1, by omega⟩

omit [Super] in
theorem owner_edit {f : Dinode → Dinode} (hv : (s.itable ip).valid = true)
    (hty : (f (s.node ip)).type = (s.node ip).type) (haddrs : (f (s.node ip)).addrs = (s.node ip).addrs) :
    (s.edit ip f).owner = s.owner := by
  funext x
  obtain ⟨i, sl⟩ := x
  by_cases hi : i = ip
  · subst hi
    rw [State.owner, State.owner, edit_node f hv]
    cases sl with
    | addr k => simp only [Dinode.slot, hty, haddrs]
    | entry j =>
      simp only [Dinode.slot, hty, haddrs]
      rfl
  · exact owner_congr (edit_node_of_ne f hi) (fun _ _ => rfl) sl

theorem Sane.edit {f : Dinode → Dinode} (h : Sane (some ip) s) (hv : (s.itable ip).valid = true)
    (hty : (f (s.node ip)).type = (s.node ip).type) (haddrs : (f (s.node ip)).addrs = (s.node ip).addrs)
    (hsize : (f (s.node ip)).size ≤ MAXFILE * BSIZE)
    (hblocks : ∀ bn, bn * BSIZE < (f (s.node ip)).size → s.owner (ip, slotOf bn) ≠ none) :
    Sane none (s.edit ip f) ∧ (s.edit ip f).owner = s.owner := by
  have howner := owner_edit hv hty haddrs
  refine ⟨⟨?_, ?_, ?_, ?_, ?_⟩, howner⟩
  · intro i hvi
    rw [edit_valid] at hvi
    by_cases hi : i = ip
    · subst hi
      rw [edit_self, ← node_valid hv, hty]
      exact h.node_type hv
    · rw [edit_of_ne f hi]
      exact h.typed i hvi
  · intro i _ hvi
    rw [edit_valid] at hvi
    by_cases hi : i = ip
    · subst hi
      rw [edit_self, edit_disk]
    · rw [edit_of_ne f hi, edit_disk_of_ne f hi]
      exact h.synced i (by simpa using hi) hvi
  · intro i hti
    by_cases hi : i = ip
    · subst hi
      rw [edit_node f hv, hty] at hti
      exact h.range i hti
    · rw [edit_node_of_ne f hi] at hti
      exact h.range i hti
  · rw [howner]
    exact h.owned
  · intro i _ hti
    by_cases hi : i = ip
    · subst hi
      refine ⟨by rw [edit_node f hv]; exact hsize, fun bn hbn => ?_⟩
      rw [edit_node f hv] at hbn
      rw [howner]
      exact hblocks bn hbn
    · rw [edit_node_of_ne f hi] at hti
      obtain ⟨hsz, hb⟩ := h.full i (by simpa using hi) hti
      refine ⟨by rw [edit_node_of_ne f hi]; exact hsz, fun bn hbn => ?_⟩
      rw [edit_node_of_ne f hi] at hbn
      rw [howner]
      exact hb bn hbn

/-- From `s` to `t` nothing changes but the addresses and blocks of the inode `ip`. -/
structure Confined (ip : Nat) (s t : State) : Prop where
  sane : Sane (some ip) t
  ref : ∀ i, (t.itable i).ref = (s.itable i).ref
  valid : ∀ i, (t.itable i).valid = (s.itable i).valid
  copies : ∀ i, i ≠ ip → (t.itable i).copy = (s.itable i).copy
  node : ∃ f, t.node ip = { s.node ip with addrs := f }
  dinode : t.dinode = s.dinode
  ftable : t.ftable = s.ftable
  proc : t.proc = s.proc
  others : ∀ i sl, i ≠ ip → t.owner (i, sl) = s.owner (i, sl)

namespace Confined

theorem refl (h : Sane (some ip) s) : Confined ip s s :=
  ⟨h, fun _ => rfl, fun _ => rfl, fun _ _ => rfl, ⟨(s.node ip).addrs, rfl⟩, rfl, rfl, rfl, fun _ _ _ => rfl⟩

theorem trans (h : Confined ip s t) (h' : Confined ip t u) : Confined ip s u where
  sane := h'.sane
  ref := fun i => (h'.ref i).trans (h.ref i)
  valid := fun i => (h'.valid i).trans (h.valid i)
  copies := fun i hi => (h'.copies i hi).trans (h.copies i hi)
  node := by
    obtain ⟨f, hf⟩ := h.node
    obtain ⟨g, hg⟩ := h'.node
    exact ⟨g, by rw [hg, hf]⟩
  dinode := h'.dinode.trans h.dinode
  ftable := h'.ftable.trans h.ftable
  proc := h'.proc.trans h.proc
  others := fun i sl hi => (h'.others i sl hi).trans (h.others i sl hi)

theorem of_addrs {f : Nat → Nat} (h : Sane (some ip) s) (hv : (s.itable ip).valid = true)
    (hself : t.itable ip = { s.itable ip with copy := { (s.itable ip).copy with addrs := f } })
    (hother : ∀ i, i ≠ ip → t.itable i = s.itable i) (hdinode : t.dinode = s.dinode)
    (hftable : t.ftable = s.ftable) (hproc : t.proc = s.proc)
    (howned : Owns (· < size) (· < nmeta) t.used t.owner)
    (hothers : ∀ i sl, i ≠ ip → t.owner (i, sl) = s.owner (i, sl)) : Confined ip s t := by
  have hnode : t.node ip = { s.node ip with addrs := f } := by
    rw [node_valid hv, node_valid (by rw [hself]; exact hv), hself]
  have hnodes : ∀ i, i ≠ ip → t.node i = s.node i := by
    intro i hi
    rw [State.node, State.node, hother i hi, hdinode]
  have hentries : ∀ i, (t.itable i).valid = (s.itable i).valid ∧ (t.itable i).ref = (s.itable i).ref ∧
      (t.itable i).copy.type = (s.itable i).copy.type := by
    intro i
    by_cases hi : i = ip
    · subst hi
      rw [hself]
      exact ⟨rfl, rfl, rfl⟩
    · rw [hother i hi]
      exact ⟨rfl, rfl, rfl⟩
  refine ⟨⟨?_, ?_, ?_, howned, ?_⟩, fun i => (hentries i).2.1, fun i => (hentries i).1,
    fun i hi => by rw [hother i hi], ⟨f, hnode⟩, hdinode, hftable, hproc, hothers⟩
  · intro i hv
    rw [(hentries i).2.2]
    exact h.typed i (by rw [← (hentries i).1, hv])
  · intro i hi hv
    have hne : i ≠ ip := fun he => hi (by rw [he])
    rw [hother i hne] at hv ⊢
    rw [hdinode]
    exact h.synced i hi hv
  · intro i ht
    by_cases hi : i = ip
    · subst hi
      rw [hnode] at ht
      exact h.range i ht
    · rw [hnodes i hi] at ht
      exact h.range i ht
  · intro i hi ht
    have hne : i ≠ ip := fun he => hi (by rw [he])
    rw [hnodes i hne] at ht
    obtain ⟨hsz, hb⟩ := h.full i hi ht
    refine ⟨by rw [hnodes i hne]; exact hsz, fun bn hbn => ?_⟩
    rw [hnodes i hne] at hbn
    rw [hothers i _ hne]
    exact hb bn hbn

end Confined

/-- The inode `ip` may get blocks, and its bytes from `lo` up to `hi` may change. -/
structure Wrote (ip lo hi : Nat) (s t : State) : Prop extends Confined ip s t where
  keeps : ∀ r b, s.owner r = some b → t.owner r = some b
  data : ∀ i sl b, i ≠ ip → s.owner (i, sl) = some b → t.data b = s.data b
  bytes : ∀ bn b, s.owner (ip, slotOf bn) = some b → ∀ k < BSIZE, ¬ (lo ≤ bn * BSIZE + k ∧ bn * BSIZE + k < hi) →
    (t.data b).byte k = (s.data b).byte k

namespace Wrote

variable {lo hi : Nat}

theorem refl (h : Sane (some ip) s) : Wrote ip lo hi s s :=
  ⟨.refl h, fun _ _ h => h, fun _ _ _ _ _ => rfl, fun _ _ _ _ _ _ => rfl⟩

theorem trans (h : Wrote ip lo hi s t) (h' : Wrote ip lo hi t u) : Wrote ip lo hi s u where
  toConfined := h.toConfined.trans h'.toConfined
  keeps := fun r b hr => h'.keeps r b (h.keeps r b hr)
  data := fun i sl b hi hr => (h'.data i sl b hi (h.keeps _ b hr)).trans (h.data i sl b hi hr)
  bytes := fun bn b hr k hk hno => (h'.bytes bn b (h.keeps _ b hr) k hk hno).trans (h.bytes bn b hr k hk hno)

theorem mono {lo' hi' : Nat} (h : Wrote ip lo hi s t) (hlo : lo' ≤ lo) (hhi : hi ≤ hi') :
    Wrote ip lo' hi' s t :=
  { h with bytes := fun bn b hr k hk hno => h.bytes bn b hr k hk (by omega) }

end Wrote

/-! ## Allocation -/

structure Fresh (s : State) (a : Nat) : Prop where
  lo : nmeta ≤ a
  hi : a < size
  unused : s.used a = false

theorem Fresh.ne_zero (h : Fresh s a) : a ≠ 0 := by
  have := h.lo
  have := Super.nmeta_pos
  omega

def Exhausted (s : State) : Prop := ∀ b < size, s.used b = true

theorem balloc_ends (h : Sane x s) : Ends balloc s (fun a t => (a = 0 ∧ t = s ∧ Exhausted s) ∨
    (Fresh s a ∧ t = (s.setUsed a true).setData a fun _ => 0)) E := by
  unfold balloc
  simp only [ends_bind, ends_gets]
  cases hf : (List.range size).find? fun b => !s.used b with
  | none =>
    refine .inl ⟨rfl, rfl, fun b hb => ?_⟩
    simpa using List.find?_eq_none.mp hf b (List.mem_range.mpr hb)
  | some b =>
    have hlt : b < size := List.mem_range.mp (List.mem_of_find?_eq_some hf)
    have hu : s.used b = false := by simpa using List.find?_some hf
    have hlo := h.owned.not_fixed hlt hu
    exact .inr ⟨⟨by omega, hlt, hu⟩, rfl⟩

theorem Wrote.of_take (lo hi : Nat) (sl : Slot) {f : Nat → Nat} (h : Sane (some ip) s)
    (hv : (s.itable ip).valid = true) (ha : Fresh s a) (hnone : s.owner (ip, sl) = none)
    (hused : t.used = Function.update s.used a true)
    (howner : t.owner = Function.update s.owner (ip, sl) (some a))
    (hself : t.itable ip = { s.itable ip with copy := { (s.itable ip).copy with addrs := f } })
    (hother : ∀ i, i ≠ ip → t.itable i = s.itable i) (hdinode : t.dinode = s.dinode)
    (hftable : t.ftable = s.ftable) (hproc : t.proc = s.proc)
    (hdata : ∀ r b, r ≠ (ip, .addr NDIRECT) → s.owner r = some b → t.data b = s.data b) : Wrote ip lo hi s t where
  toConfined := by
    refine .of_addrs h hv hself hother hdinode hftable hproc ?_ fun i sl' hi => ?_
    · rw [hused, howner]
      exact h.owned.take ha.hi ha.unused hnone
    · rw [howner, Function.update_of_ne (by simp [hi])]
  keeps := by
    intro r b hr
    have hne : r ≠ (ip, sl) := by
      rintro rfl
      rw [hnone] at hr
      cases hr
    rw [howner, Function.update_of_ne hne, hr]
  data i sl' b hi hr := hdata _ b (by simp [hi]) hr
  bytes bn b hr k hk _ := by rw [hdata _ b (by simp [slotOf_ne_indirect]) hr]

theorem Wrote.of_addr (lo hi : Nat) (h : Sane (some ip) s) (hv : (s.itable ip).valid = true) (hk : k ≤ NDIRECT)
    (h0 : (s.node ip).addrs k = 0) (ha : Fresh s a)
    (ht : t = ((s.setUsed a true).setData a fun _ => 0).withAddr ip k a) :
    Wrote ip lo hi s t ∧ t.owner = Function.update s.owner (ip, .addr k) (some a) := by
  subst ht
  have hown : ∀ i, s.owner (i, .addr NDIRECT) ≠ some a := fun i => h.owned.unowned ha.unused _
  have howner : (((s.setUsed a true).setData a fun _ => 0).withAddr ip k a).owner =
      Function.update s.owner (ip, .addr k) (some a) := by
    have hz : ((s.setUsed a true).setData a fun _ => 0).data a = fun _ => 0 := Function.update_self ..
    have hd : ((s.setUsed a true).setData a fun _ => 0).owner = s.owner :=
      owner_setData (s := s.setUsed a true) hown
    refine (owner_withAddr (s := (s.setUsed a true).setData a fun _ => 0) hv (h.node_type hv) hk ?_).trans ?_
    · rintro rfl
      refine ⟨h0, fun j => ?_⟩
      rw [hz]
      simp [Block.word, Block.byte]
    · rw [hd, nonzero, if_neg ha.ne_zero]
  refine ⟨Wrote.of_take lo hi (.addr k) h hv ha (by simp [State.owner, Dinode.slot, h0, nonzero]) rfl howner
    (by rw [State.withAddr, setInode_self]; rfl) (fun i hi => setInode_of_ne _ hi) rfl rfl rfl ?_, howner⟩
  intro r b _ hr
  refine Function.update_of_ne ?_ ..
  rintro rfl
  exact h.owned.unowned ha.unused r hr

/-- From `s` to `t` the inode `ip` gets the block `a` for its slot `sl`. -/
structure Gets (ip : Nat) (sl : Slot) (a : Nat) (s t : State) : Prop where
  fresh : Fresh s a
  used : t.used = Function.update s.used a true
  owner : t.owner = Function.update s.owner (ip, sl) (some a)
  wrote : ∀ lo hi, Wrote ip lo hi s t

/-- The slot was empty: it gets a block, or there is none. -/
def Filled (ip : Nat) (sl : Slot) (s : State) (a : Nat) (t : State) : Prop :=
  (a = 0 ∧ t = s ∧ Exhausted s) ∨ Gets ip sl a s t

theorem ends_of_slot {x : F Nat} {sl : Slot} (lo hi : Nat) (h : Sane (some ip) s)
    (hnone : s.owner (ip, sl) = none → Ends x s (Filled ip sl s) E)
    (hsome : ∀ b, s.owner (ip, sl) = some b → x s = .ok (b, s)) : Ends x s (fun a t => Wrote ip lo hi s t ∧
      (a ≠ 0 → t.owner (ip, sl) = some a) ∧ (a = 0 → Exhausted t)) E := by
  cases hs : s.owner (ip, sl) with
  | none =>
    refine (hnone hs).mono ?_
    rintro a t (⟨rfl, rfl, hall⟩ | hg)
    · exact ⟨.refl h, fun hne => absurd rfl hne, fun _ => hall⟩
    · exact ⟨hg.wrote lo hi, fun _ => by rw [hg.owner, Function.update_self], fun h0 => absurd h0 hg.fresh.ne_zero⟩
  | some b =>
    rw [ends_of_run (hsome b hs)]
    exact ⟨.refl h, fun _ => hs, fun h0 => absurd h0 (owner_ne_zero hs)⟩

omit [Super] in
theorem owner_addr (hty : (s.node ip).type ≠ .free) (hk : k ≤ NDIRECT) :
    s.owner (ip, .addr k) = nonzero ((s.node ip).addrs k) := if_pos ⟨hty, hk⟩

theorem bmap_addr_filled (h : Sane (some ip) s) (hv : (s.itable ip).valid = true) (hk : k ≤ NDIRECT)
    (hnone : s.owner (ip, .addr k) = none) : Ends (bmap_addr ip k) s (Filled ip (.addr k) s) E := by
  rw [owner_addr (h.node_type hv) hk, nonzero_eq_none] at hnone
  unfold bmap_addr
  simp only [ends_bind, inode, ends_gets, ends_ite, ends_pure]
  rw [← node_valid hv]
  refine ⟨fun _ => (balloc_ends h).mono ?_, fun hc => absurd hnone hc⟩
  rintro a t (⟨rfl, rfl, hall⟩ | ⟨ha, rfl⟩)
  · exact ⟨fun _ => .inl ⟨rfl, rfl, hall⟩, fun hne => absurd rfl hne⟩
  · have hw := fun lo hi => Wrote.of_addr lo hi h hv hk hnone ha rfl
    exact ⟨fun ha0 => absurd ha0 ha.ne_zero, fun _ => .inr ⟨ha, rfl, (hw 0 0).2, fun lo hi => (hw lo hi).1⟩⟩

theorem bmap_addr_found (hv : (s.itable ip).valid = true) (hb : s.owner (ip, .addr k) = some b) :
    bmap_addr ip k s = .ok (b, s) := by
  simp only [State.owner, Dinode.slot] at hb
  split_ifs at hb
  obtain ⟨rfl, h0⟩ := nonzero_eq_some.mp hb
  rw [node_valid hv] at h0 ⊢
  unfold bmap_addr
  rw [inode, run_bind (run_gets _), if_neg h0]
  rfl

theorem bmap_addr_ends (lo hi : Nat) (h : Sane (some ip) s) (hv : (s.itable ip).valid = true)
    (hk : k ≤ NDIRECT) : Ends (bmap_addr ip k) s (fun a t => Wrote ip lo hi s t ∧
      (a ≠ 0 → t.owner (ip, .addr k) = some a) ∧ (a = 0 → Exhausted t)) E :=
  ends_of_slot lo hi h (bmap_addr_filled h hv hk) fun _ => bmap_addr_found hv

omit [Super] in
theorem owner_indirect : s.owner (ip, .addr NDIRECT) = some b ↔
    (s.node ip).type ≠ .free ∧ (s.node ip).addrs NDIRECT = b ∧ b ≠ 0 := by
  simp only [State.owner, Dinode.slot]
  split_ifs with hc
  · rw [nonzero_eq_some]
    constructor
    · rintro ⟨rfl, h0⟩
      exact ⟨hc.1, rfl, h0⟩
    · rintro ⟨-, rfl, h0⟩
      exact ⟨rfl, h0⟩
  · refine iff_of_false (by simp) fun h => hc ⟨h.1, Nat.le_refl _⟩

omit [Super] in
theorem owner_entry (hb : s.owner (ip, .addr NDIRECT) = some b) (hj : j < NINDIRECT) :
    s.owner (ip, .entry j) = nonzero ((s.data b).word j).toNat := by
  obtain ⟨ht, rfl, h0⟩ := owner_indirect.mp hb
  simp only [State.owner, Dinode.slot]
  rw [if_pos ⟨ht, hj, h0⟩]

theorem toNat_addr (h : a < size) : (BitVec.ofNat 32 a).toNat = a := by
  have := Super.size_lt
  rw [BitVec.toNat_ofNat]
  exact Nat.mod_eq_of_lt (by omega)

theorem owner_setIndirect (hinj : ∀ i, s.owner (i, .addr NDIRECT) = some b → i = ip)
    (hb : s.owner (ip, .addr NDIRECT) = some b) (hj : j < NINDIRECT) (ha : a < size) : (s.setData b ((s.data b).setWord j (BitVec.ofNat 32 a))).owner =
      Function.update s.owner (ip, .entry j) (nonzero a) := by
  have hj4 : ∀ j < NINDIRECT, 4 * j + 4 ≤ BSIZE := by
    intro j hj
    simp only [NINDIRECT, BSIZE] at *
    omega
  have hself : (s.setData b ((s.data b).setWord j (BitVec.ofNat 32 a))).data b =
      (s.data b).setWord j (BitVec.ofNat 32 a) := Function.update_self ..
  have hb' : (s.setData b ((s.data b).setWord j (BitVec.ofNat 32 a))).owner (ip, .addr NDIRECT) = some b := hb
  funext x
  obtain ⟨i, sl⟩ := x
  by_cases hi : i = ip
  · subst hi
    cases sl with
    | addr k =>
      rw [Function.update_of_ne (by simp)]
      rfl
    | entry j' =>
      by_cases hj' : j' < NINDIRECT
      · rw [owner_entry hb' hj', hself]
        by_cases hjj : j' = j
        · subst hjj
          rw [Function.update_self, Block.word_setWord (hj4 _ hj'), toNat_addr ha]
        · rw [Function.update_of_ne (by simp [hjj]), Block.word_setWord_of_ne (hj4 _ hj') hjj,
            owner_entry hb hj']
      · rw [Function.update_of_ne (by simp only [ne_eq, Prod.mk.injEq, Slot.entry.injEq]; omega)]
        simp only [State.owner, Dinode.slot]
        rw [if_neg (by omega), if_neg (by omega)]
  · rw [Function.update_of_ne (by simp [hi])]
    have hn : (s.setData b ((s.data b).setWord j (BitVec.ofNat 32 a))).node i = s.node i := rfl
    refine owner_congr hn (fun b' hr => ?_) sl
    have hne : b' ≠ b := by
      rintro rfl
      exact hi (hinj i hr)
    exact Function.update_of_ne hne ..

theorem Wrote.of_entry (lo hi : Nat) (h : Sane (some ip) s) (hv : (s.itable ip).valid = true)
    (hb : s.owner (ip, .addr NDIRECT) = some b) (hj : j < NINDIRECT) (h0 : ((s.data b).word j).toNat = 0)
    (ha : Fresh s a) (hu : u = (s.setUsed a true).setData a fun _ => 0)
    (ht : t = u.setData b ((u.data b).setWord j (BitVec.ofNat 32 a))) :
    Wrote ip lo hi s t ∧ t.owner = Function.update s.owner (ip, .entry j) (some a) := by
  have hown : ∀ r, s.owner r ≠ some a := fun r => h.owned.unowned ha.unused r
  have hot : u.owner = s.owner := by
    rw [hu]
    exact owner_setData (s := s.setUsed a true) fun i => hown _
  have hbt : u.owner (ip, .addr NDIRECT) = some b := by rw [hot, hb]
  have hinj : ∀ i, u.owner (i, .addr NDIRECT) = some b → i = ip := by
    intro i hr
    rw [hot] at hr
    exact (Prod.mk.inj (h.owned.inj _ _ _ hr hb)).1
  have howner : t.owner = Function.update s.owner (ip, .entry j) (some a) := by
    rw [ht, owner_setIndirect hinj hbt hj ha.hi, hot, nonzero, if_neg ha.ne_zero]
  refine ⟨Wrote.of_take lo hi (.entry j) h hv ha (by rw [owner_entry hb hj, h0]; rfl) (by rw [ht, hu]; rfl) howner
    (f := (s.itable ip).copy.addrs) (by rw [ht, hu]; rfl) (fun i _ => by rw [ht, hu]; rfl) (by rw [ht, hu]; rfl)
    (by rw [ht, hu]; rfl) (by rw [ht, hu]; rfl) ?_, howner⟩
  intro r b' hr hb'
  have hne : b' ≠ b := by
    rintro rfl
    exact hr (h.owned.inj _ _ _ hb' hb)
  have hne' : b' ≠ a := by
    rintro rfl
    exact hown r hb'
  rw [ht, hu]
  exact (Function.update_of_ne hne ..).trans (Function.update_of_ne hne' ..)

theorem bmap_entry_filled (h : Sane (some ip) s) (hv : (s.itable ip).valid = true)
    (hb : s.owner (ip, .addr NDIRECT) = some b) (hj : j < NINDIRECT) (hnone : s.owner (ip, .entry j) = none) :
    Ends (bmap_entry b j) s (Filled ip (.entry j) s) E := by
  rw [owner_entry hb hj, nonzero_eq_none] at hnone
  unfold bmap_entry
  simp only [ends_bind, indirect, ends_gets, ends_ite, ends_pure]
  refine ⟨fun _ => (balloc_ends h).mono ?_, fun hc => absurd hnone hc⟩
  rintro a t (⟨rfl, rfl, hall⟩ | ⟨ha, ht⟩)
  · exact ⟨fun _ => .inl ⟨rfl, rfl, hall⟩, fun hne => absurd rfl hne⟩
  · have hw := fun lo hi => Wrote.of_entry lo hi h hv hb hj hnone ha ht rfl
    exact ⟨fun ha0 => absurd ha0 ha.ne_zero, fun _ => .inr ⟨ha, by rw [ht]; rfl, (hw 0 0).2, fun lo hi => (hw lo hi).1⟩⟩

theorem bmap_entry_found (hb : s.owner (ip, .addr NDIRECT) = some b) (hj : j < NINDIRECT)
    (ha : s.owner (ip, .entry j) = some a) : bmap_entry b j s = .ok (a, s) := by
  rw [owner_entry hb hj] at ha
  obtain ⟨rfl, h0⟩ := nonzero_eq_some.mp ha
  unfold bmap_entry
  rw [indirect, run_bind (run_gets _), if_neg h0]
  rfl

theorem bmap_entry_ends (lo hi : Nat) (h : Sane (some ip) s) (hv : (s.itable ip).valid = true)
    (hb : s.owner (ip, .addr NDIRECT) = some b) (hj : j < NINDIRECT) :
    Ends (bmap_entry b j) s (fun a t => Wrote ip lo hi s t ∧
      (a ≠ 0 → t.owner (ip, .entry j) = some a) ∧ (a = 0 → Exhausted t)) E :=
  ends_of_slot lo hi h (bmap_entry_filled h hv hb hj) fun _ => bmap_entry_found hb hj

theorem bmap_ends (lo hi : Nat) (h : Sane (some ip) s) (hv : (s.itable ip).valid = true) (hbn : bn < MAXFILE) :
    Ends (bmap ip bn) s (fun a t => Wrote ip lo hi s t ∧ (a ≠ 0 → t.owner (ip, slotOf bn) = some a) ∧
      (a = 0 → Exhausted t)) E := by
  unfold bmap slotOf
  simp only [ends_ite, ends_bind, ends_pure]
  refine ⟨fun hd => ?_, fun hd => ⟨fun hj => ?_, fun hj => absurd hbn (by simp only [MAXFILE]; omega)⟩⟩
  · rw [if_pos hd]
    exact bmap_addr_ends lo hi h hv hd.le
  · rw [if_neg hd]
    refine (bmap_addr_ends lo hi h hv (Nat.le_refl _)).mono ?_
    rintro b t ⟨hw, hb, hfull⟩
    refine ⟨fun h0 => ⟨hw, fun hne => absurd rfl hne, fun _ => hfull h0⟩, fun h0 => ?_⟩
    refine (bmap_entry_ends lo hi hw.sane (by rw [hw.valid, hv]) (hb h0) hj).mono ?_
    rintro a u ⟨hw', ha⟩
    exact ⟨hw.trans hw', ha⟩

omit [Super] in
theorem indirect_of_entry (hb : s.owner (ip, .entry j) = some b) : ∃ c, s.owner (ip, .addr NDIRECT) = some c := by
  simp only [State.owner, Dinode.slot] at hb
  split_ifs at hb with hc
  exact ⟨_, owner_indirect.mpr ⟨hc.1, rfl, hc.2.2⟩⟩

theorem bmap_found (hv : (s.itable ip).valid = true) (hb : s.owner (ip, slotOf bn) = some b)
    (hbn : bn < MAXFILE) : bmap ip bn s = .ok (b, s) := by
  unfold slotOf at hb
  unfold bmap
  split_ifs at hb ⊢ with hd hj
  · exact bmap_addr_found hv hb
  · obtain ⟨c, hc⟩ := indirect_of_entry hb
    rw [run_bind (bmap_addr_found hv hc), if_neg (owner_ne_zero hc)]
    exact bmap_entry_found hc hj hb
  · simp only [MAXFILE] at hbn
    omega

theorem bmap_filled (h : Sane (some ip) s) (hv : (s.itable ip).valid = true) (hbn : bn < MAXFILE)
    (hnone : s.owner (ip, slotOf bn) = none) (hind : NDIRECT ≤ bn → s.owner (ip, .addr NDIRECT) ≠ none) :
    Ends (bmap ip bn) s (Filled ip (slotOf bn) s) E := by
  unfold slotOf at *
  unfold bmap
  simp only [ends_ite, ends_bind, ends_pure]
  refine ⟨fun hd => ?_, fun hd => ⟨fun hj => ?_, fun hj => absurd hbn (by simp only [MAXFILE]; omega)⟩⟩
  · rw [if_pos hd] at hnone ⊢
    exact bmap_addr_filled h hv hd.le hnone
  · rw [if_neg hd] at hnone ⊢
    obtain ⟨c, hc⟩ := Option.ne_none_iff_exists'.mp (hind (by omega))
    rw [ends_of_run (bmap_addr_found hv hc)]
    exact ⟨fun h0 => absurd h0 (owner_ne_zero hc), fun _ => bmap_entry_filled h hv hc hj hnone⟩

/-! ## Truncation -/

structure Trimmed (ip : Nat) (s t : State) : Prop extends Confined ip s t where
  data : t.data = s.data

theorem Trimmed.refl (h : Sane (some ip) s) : Trimmed ip s s := ⟨.refl h, rfl⟩

theorem Trimmed.trans (h : Trimmed ip s t) (h' : Trimmed ip t u) : Trimmed ip s u :=
  ⟨h.toConfined.trans h'.toConfined, h'.data.trans h.data⟩

omit [Super] in
theorem bfree_run (h : s.used b = true) : bfree b s = .ok ((), s.setUsed b false) := by
  unfold bfree
  rw [run_bind (run_gets _), if_neg (by simp [h])]
  rfl

theorem Trimmed.of_clear {used : Nat → Bool} (h : Sane (some ip) s) (hv : (s.itable ip).valid = true)
    (ht : t = ({ s with used := used } : State).withAddr ip k 0)
    (hown : Owns (· < size) (· < nmeta) used t.owner) : Trimmed ip s t := by
  have hother : ∀ i, i ≠ ip → t.itable i = s.itable i := fun i hi => by
    rw [ht]
    exact setInode_of_ne _ hi
  have hself : t.itable ip = { s.itable ip with
      copy := { (s.itable ip).copy with addrs := Function.update (s.itable ip).copy.addrs k 0 } } := by
    rw [ht]
    exact setInode_self _
  have hdinode : t.dinode = s.dinode := by rw [ht]; rfl
  have hdata : t.data = s.data := by rw [ht]; rfl
  refine ⟨.of_addrs h hv hself hother hdinode (by rw [ht]; rfl) (by rw [ht]; rfl) ?_ fun i sl hi => ?_, hdata⟩
  · rw [show t.used = used by rw [ht]; rfl]
    exact hown
  · refine owner_congr ?_ (fun b _ => by rw [hdata]) sl
    rw [State.node, State.node, hother i hi, hdinode]

theorem itrunc_direct_ends (m : Nat) (h : Sane (some ip) s) (hv : (s.itable ip).valid = true)
    (hm : m ≤ NDIRECT) : Ends (itrunc_direct ip m) s (fun _ t => Trimmed ip s t ∧
      (∀ k, NDIRECT - m ≤ k → k < NDIRECT → (t.node ip).addrs k = 0) ∧
      ∀ k, k < NDIRECT - m ∨ NDIRECT ≤ k → (t.node ip).addrs k = (s.node ip).addrs k) E := by
  induction m generalizing s with
  | zero =>
    rw [itrunc_direct, ends_pure]
    exact ⟨.refl h, fun k h1 h2 => absurd h2 (by omega), fun _ _ => rfl⟩
  | succ m ih =>
    simp only [itrunc_direct, ends_bind, inode, ends_gets, ends_when]
    have hlt : NDIRECT - (m + 1) < NDIRECT := by
      simp only [NDIRECT] at *
      omega
    generalize hk : NDIRECT - (m + 1) = k at hlt ⊢
    rw [← node_valid hv]
    constructor
    · intro h0
      have hb : s.owner (ip, .addr k) = some ((s.node ip).addrs k) := by
        simp only [State.owner, Dinode.slot]
        rw [if_pos ⟨h.node_type hv, hlt.le⟩, nonzero, if_neg h0]
      rw [ends_of_run (bfree_run (h.owned.used_of_own hb))]
      obtain ⟨t, ht⟩ : ∃ t : State, t = (s.setUsed ((s.node ip).addrs k) false).withAddr ip k 0 := ⟨_, rfl⟩
      have htrim : Trimmed ip s t := by
        have hown : t.owner = Function.update s.owner (ip, .addr k) none := by
          rw [ht]
          exact owner_withAddr (s := s.setUsed ((s.node ip).addrs k) false) hv (h.node_type hv) hlt.le (by omega)
        refine Trimmed.of_clear h hv ht ?_
        rw [hown]
        exact h.owned.drop hb
      have hnode : (t.node ip).addrs = Function.update (s.node ip).addrs k 0 := by
        rw [ht, node_withAddr (by exact hv)]
        rfl
      rw [setAddr, modifyInode, ends_update]
      change Ends _ ((s.setUsed ((s.node ip).addrs k) false).withAddr ip k 0) _ _
      rw [← ht]
      refine (ih htrim.sane (by rw [htrim.valid, hv]) (by omega)).mono ?_
      rintro _ u ⟨hu, hz, hsame⟩
      refine ⟨htrim.trans hu, fun k' h1 h2 => ?_, fun k' h1 => ?_⟩
      · by_cases hkk : k' = k
        · rw [hsame k' (by omega), hnode, hkk, Function.update_self]
        · exact hz k' (by omega) h2
      · rw [hsame k' (by omega), hnode, Function.update_of_ne (by omega)]
    · intro h0
      have h0 : (s.node ip).addrs k = 0 := by simpa using h0
      refine (ih h hv (by omega)).mono ?_
      rintro _ u ⟨hu, hz, hsame⟩
      refine ⟨hu, fun k' h1 h2 => ?_, fun k' h1 => hsame k' (by omega)⟩
      by_cases hkk : k' = k
      · rw [hsame k' (by omega), hkk, h0]
      · exact hz k' (by omega) h2

def without (ip m : Nat) (own : Nat × Slot → Option Nat) : Nat × Slot → Option Nat
  | (i, .addr k) => own (i, .addr k)
  | (i, .entry j) => if i = ip ∧ j < m then none else own (i, .entry j)

omit [Super] in
theorem without_succ (own : Nat × Slot → Option Nat) (m : Nat) :
    without ip (m + 1) own = Function.update (without ip m own) (ip, .entry m) none := by
  funext x
  obtain ⟨i, sl⟩ := x
  cases sl with
  | addr k =>
    rw [Function.update_of_ne (by simp)]
    rfl
  | entry j =>
    by_cases h : (i, Slot.entry j) = (ip, .entry m)
    · cases h
      rw [Function.update_self, without, if_pos ⟨rfl, Nat.lt_succ_self _⟩]
    · rw [Function.update_of_ne h]
      simp only [Prod.mk.injEq, Slot.entry.injEq] at h
      simp only [without]
      split_ifs <;> first | rfl | omega

omit [Super] in
theorem without_zero (own : Nat × Slot → Option Nat) : without ip 0 own = own := by
  funext x
  obtain ⟨i, sl⟩ := x
  cases sl with
  | addr k => rfl
  | entry j => rw [without, if_neg (by omega)]

omit [Super] in
theorem owner_clear_indirect {used : Nat → Bool} (hv : (s.itable ip).valid = true) :
    (({ s with used := used } : State).withAddr ip NDIRECT 0).owner =
      Function.update (without ip NINDIRECT s.owner) (ip, .addr NDIRECT) none := by
  have hn : (({ s with used := used } : State).withAddr ip NDIRECT 0).node ip =
      { s.node ip with addrs := Function.update (s.node ip).addrs NDIRECT 0 } :=
    node_withAddr (s := { s with used := used }) hv
  funext x
  obtain ⟨i, sl⟩ := x
  by_cases hi : i = ip
  · subst hi
    rw [State.owner, hn]
    cases sl with
    | addr k =>
      by_cases hk : k = NDIRECT
      · subst hk
        simp [Dinode.slot, nonzero]
      · rw [Function.update_of_ne (by simp [hk])]
        simp [Dinode.slot, without, State.owner, Function.update_of_ne hk]
    | entry j =>
      rw [Function.update_of_ne (by simp)]
      by_cases hj : j < NINDIRECT
      · simp [Dinode.slot, without, hj]
      · simp [Dinode.slot, without, hj, State.owner]
  · rw [Function.update_of_ne (by simp [hi])]
    have hother : (({ s with used := used } : State).withAddr ip NDIRECT 0).owner (i, sl) = s.owner (i, sl) :=
      owner_congr (node_setInode_of_ne _ hi) (fun _ _ => rfl) sl
    rw [hother]
    cases sl with
    | addr k => rfl
    | entry j => rw [without, if_neg (fun hc => hi hc.1)]

theorem itrunc_indirect_ends (m : Nat) (own : Nat × Slot → Option Nat) (hm : m ≤ NINDIRECT)
    (hentry : ∀ j < NINDIRECT, own (ip, .entry j) = nonzero ((s.data b).word j).toNat)
    (h : Owns (· < size) (· < nmeta) s.used (without ip (NINDIRECT - m) own)) :
    Ends (itrunc_indirect b m) s (fun _ t => ∃ used, t = { s with used := used } ∧
      Owns (· < size) (· < nmeta) used (without ip NINDIRECT own)) E := by
  induction m generalizing s with
  | zero =>
    rw [itrunc_indirect, ends_pure]
    exact ⟨s.used, rfl, by simpa using h⟩
  | succ m ih =>
    simp only [itrunc_indirect, ends_bind, indirect, ends_gets, ends_when]
    have hlt : NINDIRECT - (m + 1) < NINDIRECT := by omega
    have hnext : NINDIRECT - m = NINDIRECT - (m + 1) + 1 := by omega
    generalize hj : NINDIRECT - (m + 1) = j at hlt hnext h ⊢
    have hself : without ip j own (ip, .entry j) = nonzero ((s.data b).word j).toNat := by
      rw [← hentry j hlt, without, if_neg (by omega)]
    constructor
    · intro h0
      rw [nonzero, if_neg h0] at hself
      rw [ends_of_run (bfree_run (h.used_of_own hself))]
      refine (ih (s := s.setUsed ((s.data b).word j).toNat false) (by omega) hentry ?_).mono ?_
      · rw [hnext, without_succ]
        exact h.drop hself
      · rintro _ t ⟨used, rfl, ht⟩
        exact ⟨used, rfl, ht⟩
    · intro h0
      have h0 : ((s.data b).word j).toNat = 0 := by simpa using h0
      rw [h0] at hself
      refine ih (by omega) hentry ?_
      rw [hnext, without_succ, show (none : Option Nat) = without ip j own (ip, .entry j) from hself.symm,
        Function.update_eq_self]
      exact h

structure Truncated (ip : Nat) (s t : State) : Prop where
  sane : Sane none t
  ref : ∀ i, (t.itable i).ref = (s.itable i).ref
  valid : ∀ i, (t.itable i).valid = (s.itable i).valid
  copies : ∀ i, i ≠ ip → (t.itable i).copy = (s.itable i).copy
  copy : ∃ f, (t.itable ip).copy = { (s.itable ip).copy with addrs := f, size := 0 } ∧ ∀ k ≤ NDIRECT, f k = 0
  disk : t.dinode ip = (t.itable ip).copy
  dinode : ∀ i, i ≠ ip → t.dinode i = s.dinode i
  ftable : t.ftable = s.ftable
  proc : t.proc = s.proc
  data : t.data = s.data

theorem itrunc_ends (h : Sane none s) (hv : (s.itable ip).valid = true) :
    Ends (itrunc ip) s (fun _ t => Truncated ip s t) E := by
  unfold itrunc
  simp only [ends_bind, ends_when, inode, ends_gets, ends_edit]
  have hend : ∀ t, Trimmed ip s t → (∀ k ≤ NDIRECT, (t.node ip).addrs k = 0) →
      Truncated ip s (t.edit ip fun n => { n with size := 0 }) := by
    intro t htrim hz
    have hvt : (t.itable ip).valid = true := by rw [htrim.valid, hv]
    obtain ⟨hsane, -⟩ := htrim.sane.edit (f := fun n => { n with size := 0 }) hvt rfl rfl (Nat.zero_le _)
      fun bn hbn => absurd hbn (Nat.not_lt_zero _)
    obtain ⟨f, hf⟩ := htrim.node
    rw [node_valid hvt, node_valid hv] at hf
    refine ⟨hsane, fun i => (edit_ref _).trans (htrim.ref i), fun i => (edit_valid _).trans (htrim.valid i),
      fun i hi => by rw [edit_of_ne _ hi, htrim.copies i hi], ⟨f, ?_, ?_⟩, ?_,
      fun i hi => by rw [edit_disk_of_ne _ hi, htrim.dinode], htrim.ftable, htrim.proc, htrim.data⟩
    · rw [edit_self, hf]
    · intro k hk
      have := hz k hk
      rwa [node_valid hvt, hf] at this
    · rw [edit_disk, edit_self]
  refine (itrunc_direct_ends NDIRECT (h.weaken _) hv (Nat.le_refl _)).mono ?_
  rintro _ t ⟨htrim, hz, hsame⟩
  have hvt : (t.itable ip).valid = true := by rw [htrim.valid, hv]
  rw [← node_valid hvt]
  constructor
  · intro h0
    have hb : t.owner (ip, .addr NDIRECT) = some ((t.node ip).addrs NDIRECT) :=
      owner_indirect.mpr ⟨htrim.sane.node_type hvt, rfl, h0⟩
    have hentry := fun j hj => owner_entry (j := j) hb hj
    refine (itrunc_indirect_ends NINDIRECT t.owner (Nat.le_refl _) hentry ?_).mono ?_
    · rw [Nat.sub_self, without_zero]
      exact htrim.sane.owned
    · rintro _ u ⟨used, rfl, hown⟩
      have hb' : without ip NINDIRECT t.owner (ip, .addr NDIRECT) = some ((t.node ip).addrs NDIRECT) := hb
      rw [ends_of_run (bfree_run (hown.used_of_own hb'))]
      obtain ⟨v, hve⟩ : ∃ v : State, v = ({ t with
          used := Function.update used ((t.node ip).addrs NDIRECT) false } : State).withAddr ip NDIRECT 0 :=
        ⟨_, rfl⟩
      have htrim' : Trimmed ip t v := by
        refine Trimmed.of_clear htrim.sane hvt hve ?_
        rw [hve, owner_clear_indirect hvt]
        exact hown.drop hb'
      have hnode : (v.node ip).addrs = Function.update (t.node ip).addrs NDIRECT 0 := by
        rw [hve]
        exact congrArg Dinode.addrs (node_withAddr (s := { t with used := _ }) hvt)
      have := hend v (htrim.trans htrim') fun k hk => by
        rw [hnode]
        rcases Nat.lt_or_eq_of_le hk with hlt | rfl
        · rw [Function.update_of_ne hlt.ne]
          exact hz k (by omega) hlt
        · exact Function.update_self ..
      rw [hve] at this
      exact this
  · intro h0
    have h0 : (t.node ip).addrs NDIRECT = 0 := by simpa using h0
    refine hend t htrim fun k hk => ?_
    rcases Nat.lt_or_eq_of_le hk with hlt | rfl
    · exact hz k (by omega) hlt
    · exact h0

/-! ## References -/

def Last (s : State) (ip : Nat) : Prop :=
  (s.itable ip).ref = 1 ∧ (s.itable ip).valid = true ∧ (s.itable ip).copy.nlink = 0

def State.dropRef (s : State) (ip : Nat) : State := s.setInode ip fun e => { e with ref := e.ref - 1 }

structure Freed (ip : Nat) (s t : State) : Prop where
  sane : Sane none t
  entry : (t.itable ip).ref = 0 ∧ (t.itable ip).valid = false
  disk : (t.dinode ip).type = .free
  itable : ∀ i, i ≠ ip → t.itable i = s.itable i
  dinode : ∀ i, i ≠ ip → t.dinode i = s.dinode i
  ftable : t.ftable = s.ftable
  proc : t.proc = s.proc
  data : t.data = s.data

theorem Sane.free (h : Sane none s) (hnone : ∀ sl, s.owner (ip, sl) = none) (hu : t.used = s.used)
    (hd : t.data = s.data) (hself : (t.dinode ip).type = .free) (hv : (t.itable ip).valid = false)
    (hother : ∀ i, i ≠ ip → t.dinode i = s.dinode i ∧ t.itable i = s.itable i) : Sane none t := by
  have hnode : (t.node ip).type = .free := by rw [node_invalid hv, hself]
  have hnodes : ∀ i, i ≠ ip → t.node i = s.node i := by
    intro i hi
    rw [State.node, State.node, (hother i hi).1, (hother i hi).2]
  have howner : t.owner = s.owner := by
    funext x
    obtain ⟨i, sl⟩ := x
    by_cases hi : i = ip
    · subst hi
      rw [hnone]
      cases sl <;> simp [State.owner, Dinode.slot, hnode]
    · exact owner_congr (hnodes i hi) (fun b _ => by rw [hd]) sl
  refine ⟨?_, ?_, ?_, ?_, ?_⟩
  · intro i hvi
    have hi : i ≠ ip := by
      rintro rfl
      rw [hv] at hvi
      cases hvi
    rw [(hother i hi).2] at hvi ⊢
    exact h.typed i hvi
  · intro i _ hvi
    have hi : i ≠ ip := by
      rintro rfl
      rw [hv] at hvi
      cases hvi
    rw [(hother i hi).2] at hvi ⊢
    rw [(hother i hi).1]
    exact h.synced i (by simp) hvi
  · intro i hty
    have hi : i ≠ ip := fun he => hty (he ▸ hnode)
    rw [hnodes i hi] at hty
    exact h.range i hty
  · rw [hu, howner]
    exact h.owned
  · intro i _ hty
    have hi : i ≠ ip := fun he => hty (he ▸ hnode)
    rw [hnodes i hi] at hty
    obtain ⟨hsz, hb⟩ := h.full i (by simp) hty
    exact ⟨by rw [hnodes i hi]; exact hsz, by rw [hnodes i hi, howner]; exact hb⟩

theorem Truncated.owner_none (h : Truncated ip s t) (hv : (t.itable ip).valid = true) (sl : Slot) :
    t.owner (ip, sl) = none := by
  obtain ⟨f, hf, hz⟩ := h.copy
  rw [State.owner, node_valid hv, hf]
  cases sl with
  | addr k =>
    simp only [Dinode.slot]
    split_ifs with hk
    · exact nonzero_eq_none.mpr (hz k hk.2)
    · rfl
  | entry j =>
    simp only [Dinode.slot]
    rw [if_neg (fun hc => hc.2.2 (hz _ (Nat.le_refl _)))]

theorem iput_ends (h : Sane none s) : Ends (iput ip) s (fun _ t =>
    (¬ Last s ip ∧ t = s.dropRef ip) ∨ (Last s ip ∧ Freed ip s t)) E := by
  unfold iput
  simp only [ends_bind, ends_gets, ends_when]
  refine ⟨fun hlast => ?_, fun hlast => .inl ⟨hlast, rfl⟩⟩
  obtain ⟨href, hv, hnl⟩ := hlast
  refine (itrunc_ends h hv).mono ?_
  intro _ t ht
  have hvt : (t.itable ip).valid = true := by rw [ht.valid, hv]
  rw [ends_edit]
  simp only [ends_update]
  obtain ⟨u, hu⟩ : ∃ u : State, u = ((t.edit ip fun n => { n with type := .free }).setInode ip
    fun e => { e with valid := false }).setInode ip fun e => { e with ref := e.ref - 1 } := ⟨_, rfl⟩
  rw [← hu]
  have hself : (u.itable ip).ref = (t.itable ip).ref - 1 ∧ (u.itable ip).valid = false := by
    rw [hu, setInode_self, setInode_self, edit_self]
    exact ⟨rfl, rfl⟩
  have hitable : ∀ i, i ≠ ip → u.itable i = t.itable i := by
    intro i hi
    rw [hu, setInode_of_ne _ hi, setInode_of_ne _ hi, edit_of_ne _ hi]
  have hdisk : (u.dinode ip).type = .free := by
    rw [hu, setInode_dinode, setInode_dinode, edit_disk]
  have hdinode : ∀ i, i ≠ ip → u.dinode i = t.dinode i := by
    intro i hi
    rw [hu, setInode_dinode, setInode_dinode, edit_disk_of_ne _ hi]
  have hdata : u.data = t.data := by rw [hu]; rfl
  refine .inr ⟨⟨href, hv, hnl⟩, ht.sane.free (ht.owner_none hvt) (by rw [hu]; rfl) hdata hdisk hself.2
    fun i hi => ⟨hdinode i hi, hitable i hi⟩, ⟨by rw [hself.1, ht.ref, href], hself.2⟩, hdisk, ?_, ?_, ?_, ?_,
    hdata.trans ht.data⟩
  · intro i hi
    rw [hitable i hi]
    exact Inode.ext (ht.ref i) (ht.valid i) (ht.copies i hi)
  · intro i hi
    rw [hdinode i hi, ht.dinode i hi]
  · rw [hu]
    exact ht.ftable
  · rw [hu]
    exact ht.proc

end Xv6.Files
