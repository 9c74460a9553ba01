import Xv6.Fs.Cache

/-!
# What `commit` and `recover_from_log` do to the cache

Each round of `write_log` and of `install_trans` writes one block, and apart from that block nothing changes.
-/

open Xv6.Lib Op

namespace Xv6.Fs

open Store

variable {s s' t : Store} {u : Users} {P : List Nat} {last : Nat → Data} {p i j a b tail : Nat} {v : Unit}

theorem Users.mark_mark (h : u.changed i = false) : (u.mark i true).mark i false = u := by
  unfold mark
  rw [Function.update_idem, ← h, Function.update_eq_self]

namespace Coherent

theorem setLog (h : Coherent s u P last) (f : Log → Log) : Coherent (s.setLog f) u P last :=
  ⟨⟨h.lru, h.unique⟩, h.refs, h.used, h.small, h.waits, h.pinned, h.spare, h.cached, h.valid, h.changed, h.clean, h.left⟩

theorem bread (h : Coherent s u P last) (hb32 : b < 2 ^ 32) (hrun : Fs.bread p ROOTDEV b s = .ok (i, s')) :
    Coherent s' u P last ∧ Quiet s s' ∧ (s'.buf i).lock = some p ∧ (s'.buf i).blockno = b ∧
      (s'.buf i).data = last b ∧ (s.buf i).lock = none ∧ ∀ j, j ≠ i → s'.buf j = s.buf j := by
  unfold Fs.bread Fs.bget at hrun
  simp only [bind_ok, pure_ok] at hrun
  obtain ⟨k, t₂, ⟨k', t₁, hget, _, t, hacq, rfl, rfl⟩, _, t₃, hread, rfl, rfl⟩ := hrun
  obtain ⟨hc₁, hi₁, hq₁⟩ := h.bget_ref hb32 hget p
  obtain ⟨hc₂, hq₂, hl, hb, hd⟩ := hc₁.lock List.mem_cons_self hacq hread
  rw [hi₁.2.2] at hb hd
  have hkeep₁ : ∀ j, j ≠ i → t₁.buf j = s.buf j := by
    intro j hj
    obtain ⟨-, rfl⟩ | ⟨-, -, rfl⟩ := bget_ref_ok.mp hget <;> exact setBuf_buf_of_ne _ _ _ _ hj
  obtain ⟨hfree, rfl⟩ := acquiresleep_ok.mp hacq
  unfold bread_disk at hread
  rw [update_ok, setBuf_setBuf] at hread
  refine ⟨by simpa using hc₂, trans_of Quiet hq₁ hq₂, hl, hb, hd, ?_, ?_⟩
  · rw [← hfree]
    obtain ⟨-, rfl⟩ | ⟨-, -, rfl⟩ := bget_ref_ok.mp hget <;> rw [setBuf_buf]
  · intro j hj
    rw [hread, setBuf_buf_of_ne _ _ _ _ hj, hkeep₁ j hj]

theorem overwrite (h : Coherent s u P last) (hl : (s.buf i).lock = some p) (hch : u.changed i = false) {d : Data}
    (hset : set_data i d s = .ok (v, t)) (hwrite : Fs.bwrite p i t = .ok (v, s')) :
    Coherent s' u P last ∧ (∀ b, s'.view b = if b = (s.buf i).blockno then d else s.view b) ∧
      (∀ b, s'.disk b = if b = (s.buf i).blockno then d else s.disk b) ∧ s'.log = s.log ∧
      (∀ j, (s'.buf j).lock = (s.buf j).lock ∧ (s'.buf j).blockno = (s.buf j).blockno) ∧
      ∀ j, j ≠ i → s'.buf j = s.buf j := by
  unfold set_data at hset
  rw [update_ok] at hset
  obtain ⟨hc₁, hview₁⟩ := h.change hl d
  rw [← hset] at hc₁ hview₁
  have hbuf : t.buf i = { s.buf i with data := d } := by rw [hset, setBuf_buf]
  have hother : ∀ j, j ≠ i → t.buf j = s.buf j := fun j hj => by rw [hset, setBuf_buf_of_ne _ _ _ _ hj]
  obtain ⟨hl', rfl⟩ := bwrite_ok.mp hwrite
  obtain ⟨hc₂, hview₂⟩ := hc₁.write hl'
  rw [Users.mark_mark hch] at hc₂
  refine ⟨hc₂, ?_, ?_, by rw [hset]; rfl, ?_, ?_⟩
  · intro b
    rw [hview₂, hview₁]
  · intro b
    rw [hbuf]
    by_cases hb : b = (s.buf i).blockno
    · rw [if_pos hb, hb, setDisk_disk]
    · rw [if_neg hb, setDisk_disk_of_ne _ _ _ _ hb, hset]
      rfl
  · intro j
    by_cases hj : j = i
    · rw [hj, setDisk_buf, hbuf]
      exact ⟨rfl, rfl⟩
    · rw [setDisk_buf, hother j hj]
      exact ⟨rfl, rfl⟩
  · exact hother

end Coherent

structure Puts (a : Nat) (d : Data) (s s' : Store) : Prop where
  disk : ∀ b, s'.disk b = if b = a then d else s.disk b
  view : ∀ b, s'.view b = if b = a then d else s.view b
  log : s'.log = s.log

theorem Quiet.puts {d : Data} (h : Quiet s t) (h' : Puts a d t s') : Puts a d s s' :=
  ⟨fun b => by rw [h'.disk, h.disk], fun b => by rw [h'.view, h.view], h'.log.trans h.log⟩

theorem Puts.quiet {d : Data} (h : Puts a d s t) (h' : Quiet t s') : Puts a d s s' :=
  ⟨fun b => by rw [h'.disk, h.disk], fun b => by rw [h'.view, h.view], h'.log.trans h.log⟩

/-- The buffer `j` of the block `b` has a reference: from the log, from a process that waits for it, or
from a pin. -/
def Needed (u : Users) (P : List Nat) (j b : Nat) : Prop := b ∈ P ∨ j ∈ u.waits.map Prod.snd ∨ j ∈ u.pins

/-- The buffers that are held or needed keep their block, and no lock is taken. -/
structure Leaves (u : Users) (P : List Nat) (s s' : Store) : Prop where
  lock : ∀ j, (s'.buf j).lock = (s.buf j).lock
  held : ∀ j, (s.buf j).lock ≠ none → s'.buf j = s.buf j
  stays : ∀ j b, Needed u P j b → s.Holds j b → s'.Holds j b

theorem Leaves.of_two {k l : Nat} (hk : (s.buf k).lock = none) (hl : (s.buf l).lock = none)
    (hk' : (s'.buf k).lock = none) (hl' : (s'.buf l).lock = none)
    (hother : ∀ j, j ≠ k → j ≠ l → s'.buf j = s.buf j) (hstays : ∀ j b, Needed u P j b → s.Holds j b → s'.Holds j b) :
    Leaves u P s s' := by
  refine ⟨?_, ?_, hstays⟩
  · intro j
    by_cases hjk : j = k
    · rw [hjk, hk', hk]
    · by_cases hjl : j = l
      · rw [hjl, hl', hl]
      · rw [hother j hjk hjl]
  · intro j hj
    refine hother j ?_ ?_
    · rintro rfl
      exact hj hk
    · rintro rfl
      exact hj hl

/-- A run that recycles no buffer. -/
def SameKeys (s s' : Store) : Prop := ∀ j, (s'.buf j).dev = (s.buf j).dev ∧ (s'.buf j).blockno = (s.buf j).blockno

instance : IsPreorder Store SameKeys where
  refl _ _ := ⟨rfl, rfl⟩
  trans _ _ _ h h' j := ⟨(h' j).1.trans (h j).1, (h' j).2.trans (h j).2⟩

theorem SameKeys.holds (h : SameKeys s s') : s'.Holds j b ↔ s.Holds j b := by
  unfold Holds
  rw [(h j).1, (h j).2]

theorem SameKeys.setBuf {f : Buf → Buf} (h : (f (s.buf i)).dev = (s.buf i).dev ∧ (f (s.buf i)).blockno = (s.buf i).blockno) :
    SameKeys s (s.setBuf i f) := by
  intro j
  by_cases hj : j = i
  · rw [hj, setBuf_buf]
    exact h
  · rw [setBuf_buf_of_ne _ _ _ _ hj]
    exact ⟨rfl, rfl⟩

section keys
variable (p i : Nat)

theorem set_data_keys (d : Data) : Keeps SameKeys (set_data i d) := .update fun _ => .setBuf ⟨rfl, rfl⟩

theorem bunpin_keys : Keeps SameKeys (bunpin i) := .update fun _ => .setBuf ⟨rfl, rfl⟩

theorem bwrite_keys : Keeps SameKeys (bwrite p i) := by
  intro s v s' h
  rw [(bwrite_ok.mp h).2]
  exact fun _ => ⟨rfl, rfl⟩

theorem brelse_keys : Keeps SameKeys (brelse p i) := by
  intro s v s' h
  obtain ⟨-, lru, -, hs'⟩ := brelse_ok h
  have hbuf : s'.buf = (s.setBuf i fun x => { x with lock := none, refcnt := x.refcnt - 1 }).buf := by rw [hs']
  intro j
  rw [hbuf]
  exact SameKeys.setBuf (s := s) (i := i) (f := fun x => { x with lock := none, refcnt := x.refcnt - 1 }) ⟨rfl, rfl⟩ j

end keys

namespace Coherent

theorem bget_ref_keys (h : Coherent s u P last) (hrun : Fs.bget_ref ROOTDEV b s = .ok (i, s'))
    (hj : (s.buf j).refcnt ≠ 0) : (s'.buf j).dev = (s.buf j).dev ∧ (s'.buf j).blockno = (s.buf j).blockno := by
  obtain ⟨-, rfl⟩ | ⟨-, hu, rfl⟩ := bget_ref_ok.mp hrun
  · exact SameKeys.setBuf (s := s) ⟨rfl, rfl⟩ j
  · have hne : j ≠ i := by
      rintro rfl
      exact hj (h.unused_some hu).2
    rw [setBuf_buf_of_ne _ _ _ _ hne]
    exact ⟨rfl, rfl⟩

theorem needed_refcnt (h : Coherent s u P last) (hb : Needed u P j b) (hj : s.Holds j b) : (s.buf j).refcnt ≠ 0 := by
  intro hz
  obtain ⟨hw, -, hp, hP⟩ := h.unreferenced hj.1 hz
  obtain hb | hb | hb := hb
  · exact hP b hj hb
  · exact List.count_eq_zero.mp hw hb
  · exact List.count_eq_zero.mp hp hb

theorem locked_refcnt (h : Coherent s u P last) (hl : (s.buf j).lock ≠ none) : (s.buf j).refcnt ≠ 0 :=
  fun hz => hl (h.unreferenced (h.lock_holder hl).1 hz).2.1

theorem bget_ref_stays (h : Coherent s u P last) (hrun : Fs.bget_ref ROOTDEV a s = .ok (i, s')) (hb : Needed u P j b)
    (hj : s.Holds j b) : s'.Holds j b := by
  obtain ⟨hd, hbno⟩ := h.bget_ref_keys hrun (h.needed_refcnt hb hj)
  unfold Holds
  rw [hd, hbno]
  exact hj

theorem bread_disk_keys (i : Nat) : Keeps SameKeys (bread_disk i) := by
  refine .update fun s => .setBuf ?_
  split <;> exact ⟨rfl, rfl⟩

theorem acquiresleep_keys (p i : Nat) : Keeps SameKeys (Fs.acquiresleep p i) := by
  intro s v s' h
  rw [(acquiresleep_ok.mp h).2]
  exact .setBuf ⟨rfl, rfl⟩

theorem bread_stays (h : Coherent s u P last) (hrun : Fs.bread p ROOTDEV a s = .ok (i, s')) (hb : Needed u P j b)
    (hj : s.Holds j b) : s'.Holds j b := by
  unfold Fs.bread Fs.bget at hrun
  simp only [bind_ok, pure_ok] at hrun
  obtain ⟨k, t₂, ⟨k', t₁, hget, _, t, hacq, rfl, rfl⟩, _, t₃, hread, rfl, rfl⟩ := hrun
  have hkeys := trans_of SameKeys (acquiresleep_keys _ _ _ _ _ hacq) (bread_disk_keys _ _ _ _ hread)
  exact hkeys.holds.mpr (h.bget_ref_stays hget hb hj)

theorem brelse_same (h : Coherent s u P last) (hch : u.changed i = false) (hrun : Fs.brelse p i s = .ok (v, s'))
    (hsame : s.view (s.buf i).blockno = last (s.buf i).blockno) : Coherent s' u P last ∧ Quiet s s' := by
  obtain ⟨hc, hq⟩ := h.brelse hch hrun
  rw [hsame, Function.update_eq_self] at hc
  exact ⟨hc, hq⟩

theorem brelse_buf (hrun : Fs.brelse p i s = .ok (v, s')) (hj : j ≠ i) : s'.buf j = s.buf j := by
  obtain ⟨-, lru, -, hs'⟩ := brelse_ok hrun
  have hbuf : s'.buf = (s.setBuf i fun x => { x with lock := none, refcnt := x.refcnt - 1 }).buf := by rw [hs']
  rw [hbuf, setBuf_buf_of_ne _ _ _ _ hj]

theorem brelse_free (hrun : Fs.brelse p i s = .ok (v, s')) : (s'.buf i).lock = none := by
  obtain ⟨-, lru, -, hs'⟩ := brelse_ok hrun
  have hbuf : s'.buf = (s.setBuf i fun x => { x with lock := none, refcnt := x.refcnt - 1 }).buf := by rw [hs']
  rw [hbuf, setBuf_buf]

theorem write_head (h : Coherent s u P last) (hdev : s.log.dev = ROOTDEV) (hstart : s.log.start < 2 ^ 32)
    (hrun : Fs.write_head p s = .ok (v, s')) :
    Coherent s' u P (Function.update last s.log.start (header_fill s.log.lh (last s.log.start))) ∧
      Puts s.log.start (header_fill s.log.lh (last s.log.start)) s s' ∧ Leaves u P s s' := by
  unfold Fs.write_head getLog at hrun
  simp only [bind_ok, gets_ok, id] at hrun
  obtain ⟨_, _, ⟨rfl, rfl⟩, k, t, hread, _, _, ⟨rfl, rfl⟩, _, t₁, hset, _, t₂, hwrite, hrel⟩ := hrun
  rw [hdev] at hread
  obtain ⟨hc, hq, hl, hb, hd, hfree, hkeep⟩ := h.bread hstart hread
  have hch : u.changed k = false := h.unchanged hfree
  rw [hd] at hset
  obtain ⟨hc₂, hview, hdisk, hlog, hsame, hother⟩ := hc.overwrite hl hch hset hwrite
  rw [hb] at hview hdisk
  obtain ⟨hc₃, hq₃⟩ := hc₂.brelse hch hrel
  rw [(hsame k).2, hb, hview, if_pos rfl] at hc₃
  refine ⟨hc₃, (hq.puts ⟨hdisk, hview, hlog⟩).quiet hq₃, ?_⟩
  apply Leaves.of_two hfree hfree (brelse_free hrel) (brelse_free hrel)
  · intro j hj _
    rw [brelse_buf hrel hj, hother j hj, hkeep j hj]
  · intro j b hbP hj
    have hkeys := trans_of SameKeys (set_data_keys _ _ _ _ _ hset)
      (trans_of SameKeys (bwrite_keys _ _ _ _ _ hwrite) (brelse_keys _ _ _ _ _ hrel))
    exact hkeys.holds.mpr (h.bread_stays hread hbP hj)

theorem read_head (h : Coherent s u P last) (hdev : s.log.dev = ROOTDEV) (hstart : s.log.start < 2 ^ 32)
    (hrun : Fs.read_head p s = .ok (v, s')) :
    Coherent s' u P last ∧ s'.disk = s.disk ∧ (∀ b, s'.view b = s.view b) ∧
      s'.log = { s.log with lh := header_blocks (last s.log.start) } ∧ Leaves u P s s' := by
  unfold Fs.read_head getLog Fs.setLog at hrun
  simp only [bind_ok, gets_ok, id, update_ok] at hrun
  obtain ⟨_, _, ⟨rfl, rfl⟩, k, t, hread, _, t₁, ⟨rfl, rfl⟩, _, t₂, ht₂, hrel⟩ := hrun
  rw [hdev] at hread
  obtain ⟨hc, hq, hl, hb, hd, hfree, hkeep⟩ := h.bread hstart hread
  have hc₂ : Coherent t₂ u P last := by
    rw [ht₂]
    exact hc.setLog _
  have hbno : (t₂.buf k).blockno = (t₁.buf k).blockno := by rw [ht₂]; rfl
  have hv₂ : ∀ b, t₂.view b = t₁.view b := by
    intro b
    rw [ht₂]
    rfl
  obtain ⟨hc₃, hq₃⟩ := hc₂.brelse_same (h.unchanged hfree) hrel (by rw [hbno, hv₂, hc.view_held hl, hd, hb])
  refine ⟨hc₃, ?_, ?_, ?_, ?_⟩
  · rw [hq₃.disk, ht₂]
    exact hq.disk
  · intro b
    rw [hq₃.view, hv₂, hq.view]
  · rw [hq₃.log, ht₂, Store.setLog_log, hd, hq.log]
  · apply Leaves.of_two hfree hfree (brelse_free hrel) (brelse_free hrel)
    · intro j hj _
      rw [brelse_buf hrel hj, ht₂, setLog_buf, hkeep j hj]
    · intro j b hbP hj
      have hkeys : SameKeys t₁ t₂ := by
        rw [ht₂]
        exact fun _ => ⟨rfl, rfl⟩
      exact (trans_of SameKeys hkeys (brelse_keys _ _ _ _ _ hrel)).holds.mpr (h.bread_stays hread hbP hj)

theorem copy_data_ok : copy_data i j s = .ok (v, s') ↔ set_data i (s.buf j).data s = .ok (v, s') := by
  unfold copy_data
  simp only [bind_ok, gets_ok, id]
  constructor
  · rintro ⟨_, _, ⟨rfl, rfl⟩, h⟩
    exact h
  · intro h
    exact ⟨s, s, ⟨rfl, rfl⟩, h⟩

/-- The buffer `k` was free, and is held with what the block `b` was left with. -/
structure Taken (u : Users) (last : Nat → Data) (p b k : Nat) (s t : Store) : Prop where
  lock : (t.buf k).lock = some p
  block : (t.buf k).blockno = b
  data : (t.buf k).data = last b
  changed : u.changed k = false
  free : (s.buf k).lock = none

theorem Taken.view {k : Nat} (h : Taken u last p b k s t) (hc : Coherent t u P last) : t.view b = last b := by
  rw [← h.block, hc.view_held h.lock, h.data, h.block]

structure Fetched (u : Users) (P : List Nat) (last : Nat → Data) (p a b k l : Nat) (s t : Store) : Prop where
  coherent : Coherent t u P last
  quiet : Quiet s t
  ne : k ≠ l
  fst : Taken u last p a k s t
  snd : Taken u last p b l s t
  other : ∀ j, j ≠ k → j ≠ l → t.buf j = s.buf j
  stays : ∀ j b, Needed u P j b → s.Holds j b → t.Holds j b

theorem bread_two {k l : Nat} (h : Coherent s u P last) (ha32 : a < 2 ^ 32) (hb32 : b < 2 ^ 32)
    (hread₁ : Fs.bread p ROOTDEV a s = .ok (k, t)) (hread₂ : Fs.bread p ROOTDEV b t = .ok (l, s')) :
    Fetched u P last p a b k l s s' := by
  obtain ⟨hc₁, hq₁, hl₁, hb₁, hd₁, hfree₁, hkeep₁⟩ := h.bread ha32 hread₁
  obtain ⟨hc₂, hq₂, hl₂, hb₂, hd₂, hfree₂, hkeep₂⟩ := hc₁.bread hb32 hread₂
  have hne : k ≠ l := by
    rintro rfl
    rw [hl₁] at hfree₂
    cases hfree₂
  refine ⟨hc₂, trans_of Quiet hq₁ hq₂, hne, ?_, ?_, fun j hjk hjl => (hkeep₂ j hjl).trans (hkeep₁ j hjk),
    fun j b' hb' hj => hc₁.bread_stays hread₂ hb' (h.bread_stays hread₁ hb' hj)⟩
  · rw [← hkeep₂ k hne] at hl₁ hb₁ hd₁
    exact ⟨hl₁, hb₁, hd₁, h.unchanged hfree₁, hfree₁⟩
  · refine ⟨hl₂, hb₂, hd₂, hc₁.unchanged hfree₂, ?_⟩
    rw [← hkeep₁ l hne.symm, hfree₂]

theorem Fetched.leaves {k l : Nat} (h : Fetched u P last p a b k l s t) (hkeys : SameKeys t s')
    (hk : (s'.buf k).lock = none) (hl : (s'.buf l).lock = none)
    (hother : ∀ j, j ≠ k → j ≠ l → s'.buf j = t.buf j) : Leaves u P s s' :=
  Leaves.of_two h.fst.free h.snd.free hk hl (fun j hjk hjl => (hother j hjk hjl).trans (h.other j hjk hjl))
    fun j b hb hj => hkeys.holds.mpr (h.stays j b hb hj)

theorem write_log_body (h : Coherent s u P last) (hdev : s.log.dev = ROOTDEV)
    (ha : a = s.log.start + tail + 1) (ha32 : a < 2 ^ 32) (hb32 : b < 2 ^ 32) (hb : b = s.log.lh.getD tail 0) (hab : a ≠ b)
    (hrun : Fs.write_log_body p tail s = .ok (v, s')) :
    Coherent s' u P (Function.update last a (last b)) ∧ Puts a (last b) s s' ∧ s.view b = last b ∧ Leaves u P s s' := by
  unfold Fs.write_log_body getLog at hrun
  simp only [bind_ok, gets_ok] at hrun
  obtain ⟨_, _, ⟨rfl, rfl⟩, k, t₁, hread₁, l, t₂, hread₂, _, t₃, hcopy, _, t₄, hwrite, _, t₅, hrel₁, hrel₂⟩ := hrun
  rw [hdev, ← ha] at hread₁
  rw [hdev, ← hb] at hread₂
  have hf := h.bread_two ha32 hb32 hread₁ hread₂
  have hvb := hf.snd.view hf.coherent
  rw [copy_data_ok, hf.snd.data] at hcopy
  obtain ⟨hc₄, hview, hdisk, hlog, hsame, hother⟩ := hf.coherent.overwrite hf.fst.lock hf.fst.changed hcopy hwrite
  rw [hf.fst.block] at hview hdisk
  have hl₄ : (t₄.buf l).blockno = b := by rw [(hsame l).2, hf.snd.block]
  obtain ⟨hc₅, hq₅⟩ := hc₄.brelse_same hf.snd.changed hrel₁ (by rw [hl₄, hview, if_neg (Ne.symm hab), hvb])
  obtain ⟨hc₆, hq₆⟩ := hc₅.brelse hf.fst.changed hrel₂
  have hk₅ : (t₅.buf k).blockno = a := by rw [brelse_buf hrel₁ hf.ne, (hsame k).2, hf.fst.block]
  rw [hk₅, hq₅.view, hview, if_pos rfl] at hc₆
  have hkeys := trans_of SameKeys (trans_of SameKeys (set_data_keys _ _ _ _ _ hcopy) (bwrite_keys _ _ _ _ _ hwrite))
    (trans_of SameKeys (brelse_keys _ _ _ _ _ hrel₁) (brelse_keys _ _ _ _ _ hrel₂))
  refine ⟨hc₆, hf.quiet.puts (Puts.quiet ⟨hdisk, hview, hlog⟩ (trans_of Quiet hq₅ hq₆)),
    (hf.quiet.view b).symm.trans hvb, hf.leaves hkeys (brelse_free hrel₂) ?_ fun j hjk hjl => ?_⟩
  · rw [brelse_buf hrel₂ hf.ne.symm]
    exact brelse_free hrel₁
  · rw [brelse_buf hrel₂ hjk, brelse_buf hrel₁ hjl, hother j hjk]

/-- `install_trans` during a commit: the log block `a` has what was left in `b`, so that only the
disk changes. -/
theorem install_trans_body (h : Coherent s u (b :: P) last) (hdev : s.log.dev = ROOTDEV) (hP : b ∉ P)
    (ha : a = s.log.start + tail + 1) (ha32 : a < 2 ^ 32) (hb32 : b < 2 ^ 32) (hb : b = s.log.lh.getD tail 0) (hcopy : last a = last b)
    (hrun : Fs.install_trans_body p false tail s = .ok (v, s')) :
    Coherent s' u P last ∧ (∀ x, s'.view x = s.view x) ∧
      (∀ x, s'.disk x = if x = b then last b else s.disk x) ∧ s'.log = s.log ∧ Leaves u (b :: P) s s' := by
  unfold Fs.install_trans_body getLog at hrun
  simp only [bind_ok, gets_ok, Bool.false_eq_true, if_false] at hrun
  obtain ⟨_, _, ⟨rfl, rfl⟩, k, t₁, hread₁, l, t₂, hread₂, _, t₃, hmove, _, t₄, hwrite, _, t₅, ht₅, _, t₆, hrel₁,
    hrel₂⟩ := hrun
  have hkeys₅ := bunpin_keys _ _ _ _ ht₅
  unfold bunpin at ht₅
  rw [update_ok] at ht₅
  rw [hdev, ← ha] at hread₁
  rw [hdev, ← hb] at hread₂
  have hf := h.bread_two ha32 hb32 hread₁ hread₂
  have hva := hf.fst.view hf.coherent
  have hvb := hf.snd.view hf.coherent
  rw [copy_data_ok, hf.fst.data, hcopy] at hmove
  obtain ⟨hc₄, hview, hdisk, hlog, hsame, hother⟩ := hf.coherent.overwrite hf.snd.lock hf.snd.changed hmove hwrite
  rw [hf.snd.block] at hview hdisk
  have hview' : ∀ x, t₄.view x = t₂.view x := by
    intro x
    rw [hview]
    split
    · rename_i hx
      rw [hx, hvb]
    · rfl
  have hl₄ : (t₄.buf l).lock = some p := by rw [(hsame l).1, hf.snd.lock]
  have hhold : t₄.Holds l b := by
    have := hc₄.held hl₄
    rwa [(hsame l).2, hf.snd.block] at this
  have hc₅ : Coherent t₅ u P last := by
    rw [ht₅]
    refine hc₄.log_unpin hP hhold ?_
    rw [hview, hdisk, if_pos rfl, if_pos rfl]
  have hv₅ : ∀ x, t₅.view x = t₂.view x := by
    intro x
    rw [← hview', ht₅]
    exact hc₄.view_setBuf rfl rfl rfl rfl
  have hk₅ : (t₅.buf k).blockno = a := by
    rw [ht₅, setBuf_buf_of_ne _ _ _ _ hf.ne, hother k hf.ne, hf.fst.block]
  obtain ⟨hc₆, hq₆⟩ := hc₅.brelse_same hf.fst.changed hrel₁ (by rw [hk₅, hv₅, hva])
  have hl₆ : (t₆.buf l).blockno = b := by
    rw [brelse_buf hrel₁ hf.ne.symm, ht₅, setBuf_buf, (hsame l).2, hf.snd.block]
  obtain ⟨hc₇, hq₇⟩ := hc₆.brelse_same hf.snd.changed hrel₂ (by rw [hl₆, hq₆.view, hv₅, hvb])
  have hkeys := trans_of SameKeys (trans_of SameKeys (set_data_keys _ _ _ _ _ hmove) (bwrite_keys _ _ _ _ _ hwrite))
    (trans_of SameKeys hkeys₅ (trans_of SameKeys (brelse_keys _ _ _ _ _ hrel₁) (brelse_keys _ _ _ _ _ hrel₂)))
  refine ⟨hc₇, ?_, ?_, ?_, hf.leaves hkeys ?_ (brelse_free hrel₂) fun j hjk hjl => ?_⟩
  · intro x
    rw [hq₇.view, hq₆.view, hv₅, hf.quiet.view]
  · intro x
    rw [hq₇.disk, hq₆.disk, ht₅, setBuf_disk, hdisk, hf.quiet.disk]
  · rw [hq₇.log, hq₆.log, ht₅, setBuf_log, hlog, hf.quiet.log]
  · rw [brelse_buf hrel₂ hf.ne]
    exact brelse_free hrel₁
  · rw [brelse_buf hrel₂ hjl, brelse_buf hrel₁ hjk, ht₅, setBuf_buf_of_ne _ _ _ _ hjl, hother j hjl]

theorem recover_body (h : Coherent s u P last) (hdev : s.log.dev = ROOTDEV)
    (ha : a = s.log.start + tail + 1) (ha32 : a < 2 ^ 32) (hb32 : b < 2 ^ 32) (hb : b = s.log.lh.getD tail 0) (hab : a ≠ b)
    (hrun : Fs.install_trans_body p true tail s = .ok (v, s')) :
    Coherent s' u P (Function.update last b (last a)) ∧ Puts b (last a) s s' ∧ Leaves u P s s' := by
  unfold Fs.install_trans_body getLog at hrun
  simp only [bind_ok, gets_ok, if_true] at hrun
  obtain ⟨_, _, ⟨rfl, rfl⟩, k, t₁, hread₁, l, t₂, hread₂, _, t₃, hmove, _, t₄, hwrite, _, t₅, hrel₁, hrel₂⟩ := hrun
  rw [hdev, ← ha] at hread₁
  rw [hdev, ← hb] at hread₂
  have hf := h.bread_two ha32 hb32 hread₁ hread₂
  rw [copy_data_ok, hf.fst.data] at hmove
  obtain ⟨hc₄, hview, hdisk, hlog, hsame, hother⟩ := hf.coherent.overwrite hf.snd.lock hf.snd.changed hmove hwrite
  rw [hf.snd.block] at hview hdisk
  have hk₄ : (t₄.buf k).blockno = a := by rw [(hsame k).2, hf.fst.block]
  obtain ⟨hc₅, hq₅⟩ := hc₄.brelse_same hf.fst.changed hrel₁
    (by rw [hk₄, hview, if_neg hab, hf.fst.view hf.coherent])
  obtain ⟨hc₆, hq₆⟩ := hc₅.brelse hf.snd.changed hrel₂
  have hl₅ : (t₅.buf l).blockno = b := by rw [brelse_buf hrel₁ hf.ne.symm, (hsame l).2, hf.snd.block]
  rw [hl₅, hq₅.view, hview, if_pos rfl] at hc₆
  have hkeys := trans_of SameKeys (trans_of SameKeys (set_data_keys _ _ _ _ _ hmove) (bwrite_keys _ _ _ _ _ hwrite))
    (trans_of SameKeys (brelse_keys _ _ _ _ _ hrel₁) (brelse_keys _ _ _ _ _ hrel₂))
  refine ⟨hc₆, hf.quiet.puts (Puts.quiet ⟨hdisk, hview, hlog⟩ (trans_of Quiet hq₅ hq₆)),
    hf.leaves hkeys ?_ (brelse_free hrel₂) fun j hjk hjl => ?_⟩
  · rw [brelse_buf hrel₂ hf.ne]
    exact brelse_free hrel₁
  · rw [brelse_buf hrel₂ hjl, brelse_buf hrel₁ hjk, hother j hjl]

end Coherent

end Xv6.Fs
