import Xv6.Fs.Journal

/-!
# The buffer cache keeps contents

No block has two buffers, and a buffer without a reference has what is on disk. What the cache and the disk say together,
`view`, changes only where a holder changes its buffer.
-/

open Xv6.Lib

namespace Xv6.Fs

def Store.Holds (s : Store) (i b : Nat) : Prop :=
  i < NBUF ∧ (s.buf i).dev = ROOTDEV ∧ (s.buf i).blockno = b

open Store

section keyed
variable {s s' t : Store} {i j b : Nat} {f : Buf → Buf}

structure Keyed (s : Store) : Prop where
  lru : ∀ i, i ∈ s.lru ↔ i < NBUF
  unique : ∀ i j b, s.Holds i b → s.Holds j b → i = j

theorem Keyed.lookup_some (h : Keyed s) : s.lookup ROOTDEV b = some i ↔ s.Holds i b := by
  constructor
  · intro hl
    have hmem := List.mem_of_find?_eq_some hl
    have hkey := List.find?_some hl
    simp only [Bool.and_eq_true, beq_iff_eq] at hkey
    exact ⟨(h.lru i).mp hmem, hkey⟩
  · intro hi
    cases hl : s.lookup ROOTDEV b with
    | none =>
      unfold lookup at hl
      rw [List.find?_eq_none] at hl
      exact absurd (by simp [hi.2.1, hi.2.2]) (hl i ((h.lru i).mpr hi.1))
    | some j =>
      have hmem := List.mem_of_find?_eq_some hl
      have hkey := List.find?_some hl
      simp only [Bool.and_eq_true, beq_iff_eq] at hkey
      rw [h.unique i j b hi ⟨(h.lru j).mp hmem, hkey⟩]

theorem Keyed.lookup_none (h : Keyed s) : s.lookup ROOTDEV b = none ↔ ∀ i, ¬ s.Holds i b := by
  rw [Option.eq_none_iff_forall_ne_some]
  exact forall_congr' fun i => not_congr h.lookup_some

theorem Keyed.unused_some (h : Keyed s) (hu : s.unused = some i) : i < NBUF ∧ (s.buf i).refcnt = 0 := by
  have hmem := List.mem_of_find?_eq_some hu
  have hzero := List.find?_some hu
  rw [List.mem_reverse, h.lru] at hmem
  exact ⟨hmem, by simpa using hzero⟩

theorem Keyed.unused_none (h : Keyed s) : s.unused = none ↔ ∀ i < NBUF, (s.buf i).refcnt ≠ 0 := by
  unfold unused
  rw [List.find?_eq_none]
  simp only [List.mem_reverse, h.lru, beq_iff_eq, ne_eq]

theorem Keyed.view_of_holds (h : Keyed s) (hi : s.Holds i b) :
    s.view b = if (s.buf i).valid then (s.buf i).data else s.disk b := by
  unfold view
  rw [h.lookup_some.mpr hi]

theorem Keyed.view_of_none (h : Keyed s) (hno : ∀ i, ¬ s.Holds i b) : s.view b = s.disk b := by
  unfold view
  rw [h.lookup_none.mpr hno]

theorem Keyed.view_congr (h : Keyed s) (h' : Keyed s') (hH : ∀ j, s'.Holds j b ↔ s.Holds j b)
    (hbuf : ∀ j, s.Holds j b → (s'.buf j).valid = (s.buf j).valid ∧ (s'.buf j).data = (s.buf j).data)
    (hdisk : s'.disk b = s.disk b) : s'.view b = s.view b := by
  by_cases hex : ∃ j, s.Holds j b
  · obtain ⟨j, hj⟩ := hex
    obtain ⟨hv, hd⟩ := hbuf j hj
    rw [h.view_of_holds hj, h'.view_of_holds ((hH j).mpr hj), hv, hd, hdisk]
  · have hno : ∀ j, ¬ s.Holds j b := fun j hj => hex ⟨j, hj⟩
    rw [h.view_of_none hno, h'.view_of_none fun j hj => hno j ((hH j).mp hj), hdisk]

theorem holds_setBuf (hd : (f (s.buf i)).dev = (s.buf i).dev) (hb : (f (s.buf i)).blockno = (s.buf i).blockno) :
    (s.setBuf i f).Holds j b ↔ s.Holds j b := by
  unfold Holds
  by_cases hj : j = i
  · rw [hj, setBuf_buf, hd, hb]
  · rw [setBuf_buf_of_ne _ _ _ _ hj]

theorem Keyed.setBuf (h : Keyed s) (hd : (f (s.buf i)).dev = (s.buf i).dev)
    (hb : (f (s.buf i)).blockno = (s.buf i).blockno) : Keyed (s.setBuf i f) := by
  refine ⟨h.lru, ?_⟩
  intro j k b hj hk
  rw [holds_setBuf hd hb] at hj hk
  exact h.unique j k b hj hk

theorem Keyed.view_setBuf (h : Keyed s) (hd : (f (s.buf i)).dev = (s.buf i).dev)
    (hb : (f (s.buf i)).blockno = (s.buf i).blockno) (hv : (f (s.buf i)).valid = (s.buf i).valid)
    (hdata : (f (s.buf i)).data = (s.buf i).data) : (s.setBuf i f).view b = s.view b := by
  refine h.view_congr (h.setBuf hd hb) (fun j => holds_setBuf hd hb) ?_ rfl
  intro j _
  by_cases hj : j = i
  · rw [hj, setBuf_buf]
    exact ⟨hv, hdata⟩
  · rw [setBuf_buf_of_ne _ _ _ _ hj]
    exact ⟨rfl, rfl⟩

end keyed

def Users.shares (u : Users) (i : Nat) : Nat := (u.waits.map Prod.snd).count i + u.pins.count i

/-- The references to the buffer `i`: processes that wait for it, its holder, pins, and the log. -/
def references (s : Store) (u : Users) (P : List Nat) (i : Nat) : Nat :=
  (u.waits.map Prod.snd).count i + (if (s.buf i).lock = none then 0 else 1) + u.pins.count i +
    (if (s.buf i).dev = ROOTDEV ∧ (s.buf i).blockno ∈ P then 1 else 0)

/-- The cache with its users, the blocks `P` that the log has pinned, and what was left in each
block. -/
structure Coherent (s : Store) (u : Users) (P : List Nat) (last : Nat → Data) : Prop extends Keyed s where
  refs : ∀ i < NBUF, (s.buf i).refcnt = references s u P i
  used : ∀ i < NBUF, (s.buf i).refcnt ≠ 0 → (s.buf i).dev = ROOTDEV
  small : ∀ i, (s.buf i).blockno < 2 ^ 32
  waits : ∀ w ∈ u.waits, w.2 < NBUF
  pinned : ∀ i ∈ u.pins, i < NBUF
  spare : ∀ i, NBUF ≤ i → (s.buf i).lock = none
  cached : ∀ b ∈ P, ∃ i, s.Holds i b ∧ (s.buf i).valid = true
  valid : ∀ i, (s.buf i).lock ≠ none → (s.buf i).valid = true
  changed : ∀ i, u.changed i = true → (s.buf i).lock ≠ none
  clean : ∀ b, b ∉ P → (∀ i, s.Holds i b → u.changed i = false) → s.view b = s.disk b
  left : ∀ b, (∀ i, s.Holds i b → (s.buf i).lock = none) → s.view b = last b

namespace Coherent

variable {s s' t : Store} {u : Users} {P : List Nat} {last : Nat → Data} {p i j b : Nat} {d : Data} {v : Unit}

theorem held (h : Coherent s u P last) (hl : (s.buf i).lock = some p) : s.Holds i (s.buf i).blockno := by
  have hne : (s.buf i).lock ≠ none := by
    rw [hl]
    simp
  have hi : i < NBUF := by
    by_contra hge
    exact hne (h.spare i (by omega))
  refine ⟨hi, h.used i hi ?_, rfl⟩
  rw [h.refs i hi, references, if_neg hne]
  omega

theorem view_held (h : Coherent s u P last) (hl : (s.buf i).lock = some p) :
    s.view (s.buf i).blockno = (s.buf i).data := by
  rw [h.view_of_holds (h.held hl), if_pos (h.valid i (by rw [hl]; simp))]

theorem unreferenced (h : Coherent s u P last) (hi : i < NBUF) (hz : (s.buf i).refcnt = 0) :
    (u.waits.map Prod.snd).count i = 0 ∧ (s.buf i).lock = none ∧ u.pins.count i = 0 ∧
      ∀ b, s.Holds i b → b ∉ P := by
  have hrefs := h.refs i hi
  rw [hz, references] at hrefs
  refine ⟨by omega, ?_, by omega, ?_⟩
  · by_contra hne
    simp only [if_neg hne] at hrefs
    omega
  · intro b hb hP
    have hin : (s.buf i).dev = ROOTDEV ∧ (s.buf i).blockno ∈ P := ⟨hb.2.1, by rw [hb.2.2]; exact hP⟩
    rw [if_pos hin] at hrefs
    omega

theorem unchanged (h : Coherent s u P last) (hl : (s.buf i).lock = none) : u.changed i = false := by
  rw [← Bool.not_eq_true]
  exact fun hc => h.changed i hc hl

/-! ## References, locks and pins -/

section held
variable (h : Coherent s u P last) (hi : s.Holds i b)
include h hi

theorem refs_held : (s.buf i).refcnt =
    u.shares i + (if (s.buf i).lock = none then 0 else 1) + if b ∈ P then 1 else 0 := by
  rw [h.refs i hi.1, references, Users.shares]
  simp only [hi.2.1, hi.2.2, true_and]
  omega

theorem valid_held (hl : (s.buf i).lock ≠ none ∨ b ∈ P) : (s.buf i).valid = true := by
  rcases hl with hl | hb
  · exact h.valid i hl
  · obtain ⟨j, hj, hv⟩ := h.cached b hb
    rwa [h.unique i j b hi hj]

theorem clean_held (hb : b ∉ P) (hch : u.changed i = false) (hv : (s.buf i).valid = true) :
    (s.buf i).data = s.disk b := by
  have := h.clean b hb fun j hj => by rw [h.unique j i b hj hi]; exact hch
  rwa [h.view_of_holds hi, if_pos hv] at this

theorem left_held (hl : (s.buf i).lock = none) : (if (s.buf i).valid then (s.buf i).data else s.disk b) = last b := by
  rw [← h.view_of_holds hi]
  exact h.left b fun j hj => by rw [h.unique j i b hj hi]; exact hl

theorem one (u' : Users) (P' : List Nat) (last' : Nat → Data) {x : Buf} (hself : s'.buf i = x)
    (hother : ∀ j ≠ i, s'.buf j = s.buf j) (hx : x.dev = (s.buf i).dev ∧ x.blockno = (s.buf i).blockno)
    (hlru : ∀ j, j ∈ s'.lru ↔ j ∈ s.lru) (hdisk : ∀ b' ≠ b, s'.disk b' = s.disk b')
    (hu : ∀ j ≠ i, u'.shares j = u.shares j ∧ u'.changed j = u.changed j) (hP : ∀ b' ≠ b, (b' ∈ P' ↔ b' ∈ P))
    (hlast : ∀ b' ≠ b, last' b' = last b') (hwaits : ∀ w ∈ u'.waits, w.2 < NBUF) (hpinned : ∀ i ∈ u'.pins, i < NBUF)
    (hrefs : x.refcnt = u'.shares i + (if x.lock = none then 0 else 1) + if b ∈ P' then 1 else 0)
    (hvalid : x.lock ≠ none ∨ b ∈ P' → x.valid = true) (hchanged : u'.changed i = true → x.lock ≠ none)
    (hclean : b ∉ P' → u'.changed i = false → x.valid = true → x.data = s'.disk b)
    (hleft : x.lock = none → (if x.valid then x.data else s'.disk b) = last' b) :
    Coherent s' u' P' last' ∧ s'.view b = (if x.valid then x.data else s'.disk b) ∧
      ∀ b' ≠ b, s'.view b' = s.view b' := by
  have hall : ∀ Q : Nat → Buf → Prop, Q i x → (∀ j ≠ i, Q j (s.buf j)) → ∀ j, Q j (s'.buf j) := by
    intro Q hq hr j
    by_cases hj : j = i
    · rwa [hj, hself]
    · rw [hother j hj]
      exact hr j hj
  have hH : ∀ j b', s'.Holds j b' ↔ s.Holds j b' := by
    intro j b'
    refine hall (fun j y => (j < NBUF ∧ y.dev = ROOTDEV ∧ y.blockno = b') ↔ s.Holds j b') ?_ (fun _ _ => Iff.rfl) j
    rw [hx.1, hx.2]
    exact Iff.rfl
  have hkey : Keyed s' := ⟨fun j => (hlru j).trans (h.lru j), fun j k b' hj hk =>
    h.unique j k b' ((hH j b').mp hj) ((hH k b').mp hk)⟩
  have hne : ∀ {j b'}, s.Holds j b' → b' ≠ b → j ≠ i := by
    rintro j b' hj hb rfl
    exact hb (hj.2.2.symm.trans hi.2.2)
  have hhere : s'.view b = if x.valid then x.data else s'.disk b := by
    rw [hkey.view_of_holds ((hH i b).mpr hi), hself]
  have hview : ∀ b' ≠ b, s'.view b' = s.view b' := fun b' hb => h.view_congr hkey (fun j => hH j b')
    (fun j hj => by rw [hother j (hne hj hb)]; exact ⟨rfl, rfl⟩) (hdisk b' hb)
  refine ⟨⟨hkey, ?_, ?_, ?_, hwaits, hpinned, ?_, fun b' hb' => ?_, ?_, ?_, fun b' hb' hch => ?_, fun b' hl => ?_⟩, hhere,
    hview⟩
  · refine hall (fun j y => j < NBUF → y.refcnt = (u'.waits.map Prod.snd).count j + (if y.lock = none then 0 else 1) +
      u'.pins.count j + if y.dev = ROOTDEV ∧ y.blockno ∈ P' then 1 else 0) (fun _ => ?_) fun j hj hlt => ?_
    · rw [hrefs, Users.shares, hx.1, hx.2]
      simp only [hi.2.1, hi.2.2, true_and]
      omega
    · have hin : (s.buf j).dev = ROOTDEV ∧ (s.buf j).blockno ∈ P' ↔ (s.buf j).dev = ROOTDEV ∧ (s.buf j).blockno ∈ P :=
        and_congr_right fun hd => hP _ fun hb => hj (h.unique j i b ⟨hlt, hd, hb⟩ hi)
      have hshare := (hu j hj).1
      simp only [Users.shares] at hshare
      simp only [h.refs j hlt, references, hin]
      omega
  · exact hall (fun j y => j < NBUF → y.refcnt ≠ 0 → y.dev = ROOTDEV) (fun _ _ => hx.1.trans hi.2.1) fun j _ => h.used j
  · exact hall (fun _ y => y.blockno < 2 ^ 32) (by rw [hx.2]; exact h.small i) fun j _ => h.small j
  · exact hall (fun j y => NBUF ≤ j → y.lock = none) (fun hge => absurd hi.1 (not_lt.mpr hge)) fun j _ => h.spare j
  · by_cases hb : b' = b
    · subst hb
      exact ⟨i, (hH i b').mpr hi, by rw [hself]; exact hvalid (.inr hb')⟩
    · obtain ⟨j, hj, hv⟩ := h.cached b' ((hP b' hb).mp hb')
      exact ⟨j, (hH j b').mpr hj, by rw [hother j (hne hj hb)]; exact hv⟩
  · exact hall (fun _ y => y.lock ≠ none → y.valid = true) (fun hl => hvalid (.inl hl)) fun j _ => h.valid j
  · exact hall (fun j y => u'.changed j = true → y.lock ≠ none) hchanged fun j hj => by
      rw [(hu j hj).2]
      exact h.changed j
  · by_cases hb : b' = b
    · subst hb
      rw [hhere]
      split_ifs with hv
      · exact hclean hb' (hch i ((hH i b').mpr hi)) hv
      · rfl
    · rw [hview b' hb, hdisk b' hb]
      refine h.clean b' (fun hin => hb' ((hP b' hb).mpr hin)) fun j hj => ?_
      rw [← (hu j (hne hj hb)).2]
      exact hch j ((hH j b').mpr hj)
  · by_cases hb : b' = b
    · subst hb
      rw [hhere]
      exact hleft (by rw [← hself]; exact hl i ((hH i b').mpr hi))
    · rw [hview b' hb, hlast b' hb]
      refine h.left b' fun j hj => ?_
      rw [← hother j (hne hj hb)]
      exact hl j ((hH j b').mpr hj)

theorem recount {u' : Users} {P' : List Nat} {g : Nat → Nat}
    (hrefs : g (s.buf i).refcnt = u'.shares i + (if (s.buf i).lock = none then 0 else 1) + if b ∈ P' then 1 else 0)
    (hu : ∀ j ≠ i, u'.shares j = u.shares j) (hch : u'.changed = u.changed) (hP : ∀ b' ≠ b, (b' ∈ P' ↔ b' ∈ P))
    (hwaits : ∀ w ∈ u'.waits, w.2 < NBUF) (hpinned : ∀ i ∈ u'.pins, i < NBUF)
    (hvalid : b ∈ P' → (s.buf i).valid = true) (hclean : b ∉ P' → b ∈ P → s.view b = s.disk b) :
    Coherent (s.setBuf i fun x => { x with refcnt := g x.refcnt }) u' P' last := by
  refine (h.one hi u' P' last (setBuf_buf ..) (fun j hj => setBuf_buf_of_ne _ _ _ _ hj) ⟨rfl, rfl⟩ (fun _ => Iff.rfl)
    (fun _ _ => rfl) (fun j hj => ⟨hu j hj, by rw [hch]⟩) hP (fun _ _ => rfl) hwaits hpinned hrefs
    (fun hl => hl.elim (h.valid i) hvalid) (by rw [hch]; exact h.changed i) (fun hb hc hv => ?_) (h.left_held hi)).1
  by_cases hbP : b ∈ P
  · have := hclean hb hbP
    rwa [h.view_of_holds hi, if_pos hv] at this
  · rw [hch] at hc
    exact h.clean_held hi hbP hc hv

end held

theorem lock_holder (h : Coherent s u P last) (hl : (s.buf j).lock ≠ none) : j < NBUF ∧ (s.buf j).valid = true := by
  refine ⟨?_, h.valid j hl⟩
  by_contra hge
  exact hl (h.spare j (by omega))

theorem hit (h : Coherent s u P last) (hi : s.Holds i b) (p : Nat) :
    Coherent (s.setBuf i fun x => { x with refcnt := x.refcnt + 1 }) { u with waits := (p, i) :: u.waits } P last := by
  refine h.recount hi ?_ (fun j hj => ?_) rfl (fun _ _ => Iff.rfl) (List.forall_mem_cons.mpr ⟨hi.1, h.waits⟩) h.pinned
    (fun hb => h.valid_held hi (.inr hb)) fun hb hP => absurd hP hb
  · simp only [h.refs_held hi, Users.shares, List.map_cons, List.count_cons_self]
    omega
  · rw [Users.shares, List.map_cons, List.count_cons_of_ne (Ne.symm hj)]
    rfl

end Coherent

/-! ## A buffer for another block -/

/-- The unused buffer `i` is now for the block `b`, which had none. -/
structure Recycled (s s' : Store) (i b : Nat) : Prop where
  self : s'.buf i = { s.buf i with dev := ROOTDEV, blockno := b, valid := false, refcnt := 1 }
  other : ∀ j ≠ i, s'.buf j = s.buf j
  disk : s'.disk = s.disk
  lru : s'.lru = s.lru
  bound : i < NBUF
  unused : (s.buf i).refcnt = 0
  fresh : ∀ j, ¬ s.Holds j b

namespace Recycled

variable {s s' : Store} {u : Users} {P : List Nat} {last : Nat → Data} {i j b b' : Nat} (hr : Recycled s s' i b)
include hr

theorem all (Q : Nat → Buf → Prop)
    (hq : Q i { s.buf i with dev := ROOTDEV, blockno := b, valid := false, refcnt := 1 })
    (hrest : ∀ j ≠ i, Q j (s.buf j)) (j : Nat) : Q j (s'.buf j) := by
  by_cases hj : j = i
  · rwa [hj, hr.self]
  · rw [hr.other j hj]
    exact hrest j hj

theorem lock (j : Nat) : (s'.buf j).lock = (s.buf j).lock :=
  hr.all (fun j y => y.lock = (s.buf j).lock) rfl (fun _ _ => rfl) j

theorem holds_iff (hj : j ≠ i) : s'.Holds j b' ↔ s.Holds j b' := by
  unfold Store.Holds
  rw [hr.other j hj]

theorem holds_self : s'.Holds i b' ↔ b' = b := by
  unfold Store.Holds
  rw [hr.self]
  exact ⟨fun hh => hh.2.2.symm, fun hh => ⟨hr.bound, rfl, hh.symm⟩⟩

theorem keyed (h : Keyed s) : Keyed s' where
  lru := by
    rw [hr.lru]
    exact h.lru
  unique j k b' hj hk := by
    by_cases hji : j = i <;> by_cases hki : k = i
    · rw [hji, hki]
    · rw [hji, hr.holds_self] at hj
      rw [hr.holds_iff hki, hj] at hk
      exact absurd hk (hr.fresh k)
    · rw [hki, hr.holds_self] at hk
      rw [hr.holds_iff hji, hk] at hj
      exact absurd hj (hr.fresh j)
    · exact h.unique j k b' ((hr.holds_iff hji).mp hj) ((hr.holds_iff hki).mp hk)

/-- The block that loses its buffer is on disk. -/
theorem view_lost (h : Coherent s u P last) (hb : b' ≠ b) (hold : s.Holds i b') : s'.view b' = s.view b' := by
  obtain ⟨-, hl, -, hP⟩ := h.unreferenced hr.bound hr.unused
  have hnone : ∀ j, ¬ s'.Holds j b' := by
    intro j hj
    by_cases hji : j = i
    · rw [hji, hr.holds_self] at hj
      exact hb hj
    · exact hji (h.unique j i b' ((hr.holds_iff hji).mp hj) hold)
  rw [(hr.keyed h.toKeyed).view_of_none hnone, hr.disk]
  refine (h.clean b' (hP b' hold) fun j hj => ?_).symm
  rw [h.unique j i b' hj hold]
  exact h.unchanged hl

theorem view (h : Coherent s u P last) (b' : Nat) : s'.view b' = s.view b' := by
  have hkey := hr.keyed h.toKeyed
  by_cases hb : b' = b
  · rw [hb, hkey.view_of_holds (hr.holds_self.mpr rfl), h.view_of_none hr.fresh, hr.self, hr.disk]
    rfl
  · by_cases hold : s.Holds i b'
    · exact hr.view_lost h hb hold
    · refine h.view_congr hkey (fun j => ?_) (fun j hj => ?_) (by rw [hr.disk])
      · by_cases hji : j = i
        · rw [hji, hr.holds_self]
          exact ⟨fun hh => absurd hh hb, fun hh => absurd hh hold⟩
        · exact hr.holds_iff hji
      · have hji : j ≠ i := by
          rintro rfl
          exact hold hj
        rw [hr.other j hji]
        exact ⟨rfl, rfl⟩

theorem refs (h : Coherent s u P last) (p : Nat) (j : Nat) (hj : j < NBUF) :
    (s'.buf j).refcnt = references s' { u with waits := (p, i) :: u.waits } P j := by
  obtain ⟨hw, hl, hp, -⟩ := h.unreferenced hr.bound hr.unused
  have hold := h.refs j hj
  unfold references at hold ⊢
  rw [List.map_cons, hr.lock]
  by_cases hji : j = i
  · have hb : b ∉ P := by
      intro hbP
      obtain ⟨k, hk, -⟩ := h.cached b hbP
      exact hr.fresh k hk
    subst hji
    simp [hr.self, hw, hl, hp, hb]
  · rw [hr.other j hji, List.count_cons_of_ne (Ne.symm hji)]
    exact hold

theorem coherent (h : Coherent s u P last) (hb : b < 2 ^ 32) (p : Nat) :
    Coherent s' { u with waits := (p, i) :: u.waits } P last := by
  obtain ⟨-, hl, -, hP⟩ := h.unreferenced hr.bound hr.unused
  exact {
    toKeyed := hr.keyed h.toKeyed
    refs := hr.refs h p
    used := hr.all (fun j y => j < NBUF → y.refcnt ≠ 0 → y.dev = ROOTDEV) (fun _ _ => rfl) fun j _ => h.used j
    small := hr.all (fun _ y => y.blockno < 2 ^ 32) hb fun j _ => h.small j
    waits := List.forall_mem_cons.mpr ⟨hr.bound, h.waits⟩
    pinned := h.pinned
    spare := fun j hj => (hr.lock j).trans (h.spare j hj)
    cached := by
      intro b' hb'
      obtain ⟨j, hj, hv⟩ := h.cached b' hb'
      have hji : j ≠ i := by
        rintro rfl
        exact hP b' hj hb'
      exact ⟨j, (hr.holds_iff hji).mpr hj, by rw [hr.other j hji]; exact hv⟩
    valid := hr.all (fun _ y => y.lock ≠ none → y.valid = true) (absurd hl) fun j _ => h.valid j
    changed := fun j hj => by
      rw [hr.lock]
      exact h.changed j hj
    clean := by
      intro b' hb' hch
      rw [hr.view h, hr.disk]
      refine h.clean b' hb' fun j hj => ?_
      by_cases hji : j = i
      · rw [hji]
        exact h.unchanged hl
      · exact hch j ((hr.holds_iff hji).mpr hj)
    left := by
      intro b' hl'
      rw [hr.view h]
      refine h.left b' fun j hj => ?_
      by_cases hji : j = i
      · rw [hji]
        exact hl
      · rw [← hr.lock]
        exact hl' j ((hr.holds_iff hji).mpr hj) }

end Recycled

structure Quiet (s s' : Store) : Prop where
  disk : s'.disk = s.disk
  log : s'.log = s.log
  view : ∀ b, s'.view b = s.view b

instance : IsPreorder Store Quiet where
  refl _ := ⟨rfl, rfl, fun _ => rfl⟩
  trans _ _ _ h h' := ⟨h'.disk.trans h.disk, h'.log.trans h.log, fun b => (h'.view b).trans (h.view b)⟩

namespace Coherent

variable {s s' t : Store} {u : Users} {P : List Nat} {last : Nat → Data} {p i j b : Nat} {d : Data} {v : Unit}

theorem bget_ref (h : Coherent s u P last) (hb : b < 2 ^ 32) (hrun : Fs.bget_ref ROOTDEV b s = .ok (i, s')) (p : Nat) :
    Coherent s' { u with waits := (p, i) :: u.waits } P last ∧ s'.Holds i b ∧ Quiet s s' := by
  obtain ⟨hl, rfl⟩ | ⟨hl, hu, rfl⟩ := bget_ref_ok.mp hrun
  · have hi := h.lookup_some.mp hl
    exact ⟨h.hit hi p, (holds_setBuf rfl rfl).mpr hi, rfl, rfl, fun _ => h.view_setBuf rfl rfl rfl rfl⟩
  · obtain ⟨hi, hz⟩ := h.unused_some hu
    have hr : Recycled s (s.setBuf i fun x => { x with dev := ROOTDEV, blockno := b, valid := false, refcnt := 1 }) i b :=
      ⟨setBuf_buf .., fun j hj => setBuf_buf_of_ne _ _ _ _ hj, rfl, rfl, hi, hz, h.lookup_none.mp hl⟩
    exact ⟨hr.coherent h hb p, hr.holds_self.mpr rfl, rfl, rfl, hr.view h⟩

/-! ## Taking the lock -/

theorem waiting (h : Coherent s u P last) (hw : (p, i) ∈ u.waits) : s.Holds i (s.buf i).blockno := by
  have hi : i < NBUF := h.waits _ hw
  refine ⟨hi, h.used i hi ?_, rfl⟩
  have hpos : 0 < (u.waits.map Prod.snd).count i := List.count_pos_iff.mpr (List.mem_map.mpr ⟨_, hw, rfl⟩)
  rw [h.refs i hi, references]
  omega

theorem acquiresleep (h : Coherent s u P last) (hw : (p, i) ∈ u.waits) (hv : (s.buf i).valid = true)
    (hl : (s.buf i).lock = none) :
    Coherent (s.setBuf i fun x => { x with lock := some p }) { u with waits := u.waits.erase (p, i) } P last := by
  have hi := h.waiting hw
  have hcount : ∀ j, ((u.waits.erase (p, i)).map Prod.snd).count j + (if j = i then 1 else 0) =
      (u.waits.map Prod.snd).count j := by
    intro j
    have hperm := (List.perm_cons_erase hw).map Prod.snd
    rw [hperm.count_eq, List.map_cons, List.count_cons]
    by_cases hji : j = i
    · simp [hji]
    · simp [hji, Ne.symm hji]
  refine (h.one hi { u with waits := u.waits.erase (p, i) } P last
    (setBuf_buf s i fun x => { x with lock := some p }) (fun j hj => setBuf_buf_of_ne _ _ _ _ hj) ⟨rfl, rfl⟩
    (fun _ => Iff.rfl) (fun _ _ => rfl) (fun j hj => ⟨?_, rfl⟩) (fun _ _ => Iff.rfl) (fun _ _ => rfl)
    (fun w hw' => h.waits w (List.mem_of_mem_erase hw')) h.pinned ?_ (fun _ => hv) (fun _ => (by simp))
      (h.clean_held hi) (by simp)).1
  · have hc := hcount j
    rw [if_neg hj] at hc
    simp only [Users.shares]
    omega
  · have hold := h.refs_held hi
    have hc := hcount i
    rw [if_pos rfl] at hc
    rw [if_pos hl] at hold
    rw [if_neg (by simp)]
    simp only [Users.shares] at hold ⊢
    omega

theorem fill (h : Coherent s u P last) (hi : s.Holds i b) (hl : (s.buf i).lock = none) (hv : (s.buf i).valid = false) :
    Coherent (s.setBuf i fun x => { x with data := s.disk b, valid := true }) u P last ∧
    Quiet s (s.setBuf i fun x => { x with data := s.disk b, valid := true }) := by
  have hold : s.view b = s.disk b := by
    rw [h.view_of_holds hi, hv]
    rfl
  obtain ⟨hc, hhere, hview⟩ := h.one hi u P last
    (setBuf_buf s i fun x => { x with data := s.disk b, valid := true }) (fun j hj => setBuf_buf_of_ne _ _ _ _ hj)
    ⟨rfl, rfl⟩ (fun _ => Iff.rfl) (fun _ _ => rfl) (fun _ _ => ⟨rfl, rfl⟩) (fun _ _ => Iff.rfl) (fun _ _ => rfl) h.waits
    h.pinned (h.refs_held hi) (fun _ => rfl) (h.changed i) (fun _ _ _ => rfl) fun _ => by
      rw [← h.left_held hi hl, hv]
      rfl
  refine ⟨hc, rfl, rfl, fun b' => ?_⟩
  by_cases hb : b' = b
  · rw [hb, hold]
    exact hhere
  · exact hview b' hb

theorem lock (h : Coherent s u P last) (hw : (p, i) ∈ u.waits) (hacq : Fs.acquiresleep p i s = .ok (v, t))
    (hread : bread_disk i t = .ok (v, s')) :
    Coherent s' { u with waits := u.waits.erase (p, i) } P last ∧ Quiet s s' ∧ (s'.buf i).lock = some p ∧
      (s'.buf i).blockno = (s.buf i).blockno ∧ (s'.buf i).data = last (s.buf i).blockno := by
  obtain ⟨hl, rfl⟩ := acquiresleep_ok.mp hacq
  have hi := h.waiting hw
  unfold bread_disk at hread
  rw [Op.update_ok, setBuf_setBuf] at hread
  have hlast : s.view (s.buf i).blockno = last (s.buf i).blockno :=
    h.left _ fun j hj => by rw [h.unique j i _ hj hi]; exact hl
  cases hv : (s.buf i).valid with
  | true =>
    have hs' : s' = s.setBuf i fun x => { x with lock := some p } := by
      rw [hread]
      unfold setBuf
      congr 1
      funext j
      by_cases hj : j = i <;> simp [hj, hv]
    rw [h.view_of_holds hi, if_pos hv] at hlast
    rw [hs', setBuf_buf]
    exact ⟨h.acquiresleep hw hv hl, ⟨rfl, rfl, fun _ => h.view_setBuf rfl rfl rfl rfl⟩, rfl, rfl, hlast⟩
  | false =>
    obtain ⟨hfill, hquiet⟩ := h.fill hi hl hv
    have hs' : s' = (s.setBuf i fun x => { x with data := s.disk (s.buf i).blockno, valid := true }).setBuf i
        fun x => { x with lock := some p } := by
      rw [hread, setBuf_setBuf]
      unfold setBuf
      congr 1
      funext j
      by_cases hj : j = i <;> simp [hj, hv]
    rw [h.view_of_holds hi, hv] at hlast
    have hlocked := hfill.acquiresleep (p := p) hw (by rw [setBuf_buf]) (by rw [setBuf_buf]; exact hl)
    rw [← hs'] at hlocked
    refine ⟨hlocked, trans_of Quiet hquiet ?_, ?_, ?_, ?_⟩
    · rw [hs']
      exact ⟨rfl, rfl, fun _ => hfill.view_setBuf rfl rfl rfl rfl⟩
    all_goals rw [hs', setBuf_buf, setBuf_buf]
    exact hlast

/-! ## The holder -/

theorem change (h : Coherent s u P last) (hl : (s.buf i).lock = some p) (d : Data) :
    Coherent (s.setBuf i fun x => { x with data := d }) (u.mark i true) P last ∧
    ∀ b, (s.setBuf i fun x => { x with data := d }).view b = if b = (s.buf i).blockno then d else s.view b := by
  have hi := h.held hl
  have hne : (s.buf i).lock ≠ none := by
    rw [hl]
    simp
  obtain ⟨hc, hhere, hview⟩ := h.one hi (u.mark i true) P last (setBuf_buf s i fun x => { x with data := d })
    (fun j hj => setBuf_buf_of_ne _ _ _ _ hj) ⟨rfl, rfl⟩ (fun _ => Iff.rfl) (fun _ _ => rfl)
    (fun j hj => ⟨rfl, Users.mark_changed_of_ne _ _ _ _ hj⟩) (fun _ _ => Iff.rfl) (fun _ _ => rfl) h.waits h.pinned
    (h.refs_held hi) (h.valid_held hi) (fun _ => hne) (fun _ hch => by simp at hch) (absurd · hne)
  refine ⟨hc, fun b => ?_⟩
  split_ifs with hb
  · rw [hb, hhere]
    exact if_pos (h.valid i hne)
  · exact hview b hb

theorem write (h : Coherent s u P last) (hl : (s.buf i).lock = some p) :
    Coherent (s.setDisk (s.buf i).blockno (s.buf i).data) (u.mark i false) P last ∧
    ∀ b, (s.setDisk (s.buf i).blockno (s.buf i).data).view b = s.view b := by
  have hi := h.held hl
  have hne : (s.buf i).lock ≠ none := by
    rw [hl]
    simp
  obtain ⟨hc, hhere, hview⟩ := h.one hi (u.mark i false) P last
    (show (s.setDisk (s.buf i).blockno (s.buf i).data).buf i = s.buf i from rfl) (fun _ _ => rfl) ⟨rfl, rfl⟩ (fun _ => Iff.rfl) (fun b hb => setDisk_disk_of_ne _ _ _ _ hb)
    (fun j hj => ⟨rfl, Users.mark_changed_of_ne _ _ _ _ hj⟩) (fun _ _ => Iff.rfl) (fun _ _ => rfl) h.waits h.pinned
    (h.refs_held hi) (h.valid_held hi) (fun _ => hne) (fun _ _ _ => (setDisk_disk ..).symm) (absurd · hne)
  refine ⟨hc, fun b => ?_⟩
  by_cases hb : b = (s.buf i).blockno
  · rw [hb, hhere]
    exact (if_pos (h.valid i hne)).trans (h.view_held hl).symm
  · exact hview b hb

theorem brelse (h : Coherent s u P last) (hch : u.changed i = false) (hrun : Fs.brelse p i s = .ok (v, s')) :
    Coherent s' u P (Function.update last (s.buf i).blockno (s.view (s.buf i).blockno)) ∧ Quiet s s' := by
  obtain ⟨hl, lru, hlru, hs'⟩ := brelse_ok hrun
  have hi := h.held hl
  have hbuf : s'.buf = (s.setBuf i fun x => { x with lock := none, refcnt := x.refcnt - 1 }).buf := by rw [hs']
  have hdisk : s'.disk = s.disk := by rw [hs']; rfl
  have hmem : ∀ j, j ∈ s'.lru ↔ j ∈ s.lru := by
    intro j
    rw [hs']
    obtain rfl | rfl := hlru
    · exact Iff.rfl
    · by_cases hji : j = i
      · rw [hji]
        exact ⟨fun _ => (h.lru i).mpr hi.1, fun _ => List.mem_cons_self⟩
      · simp only [List.mem_cons, hji, false_or]
        exact List.mem_erase_of_ne hji
  have hshown := h.view_of_holds hi
  have hrefs : (s.buf i).refcnt - 1 = u.shares i + 0 + if (s.buf i).blockno ∈ P then 1 else 0 := by
    have hold := h.refs_held hi
    rw [hl, if_neg (by simp)] at hold
    omega
  obtain ⟨hc, hhere, hview⟩ := h.one hi u P
    (Function.update last (s.buf i).blockno (s.view (s.buf i).blockno))
    (x := { s.buf i with lock := none, refcnt := (s.buf i).refcnt - 1 }) (by rw [hbuf, setBuf_buf]) (fun j hj => by rw [hbuf, setBuf_buf_of_ne _ _ _ _ hj]) ⟨rfl, rfl⟩ hmem
    (fun _ _ => by rw [hdisk]) (fun _ _ => ⟨rfl, rfl⟩) (fun _ _ => Iff.rfl) (fun b hb => Function.update_of_ne hb ..) h.waits
    h.pinned hrefs (fun hb => h.valid_held hi (.inr (hb.resolve_left (absurd rfl)))) (by rw [hch]; simp)
    (by rw [hdisk]; exact h.clean_held hi) (fun _ => by rw [Function.update_self, hshown, hdisk])
  refine ⟨hc, hdisk, by rw [hs']; rfl, fun b => ?_⟩
  by_cases hb : b = (s.buf i).blockno
  · rw [hb, hhere, hshown, hdisk]
  · exact hview b hb

/-! ## Pins -/

theorem pin (h : Coherent s u P last) (hl : (s.buf i).lock = some p) :
    Coherent (s.setBuf i fun x => { x with refcnt := x.refcnt + 1 }) { u with pins := i :: u.pins } P last := by
  have hi := h.held hl
  refine h.recount hi ?_ (fun j hj => ?_) rfl (fun _ _ => Iff.rfl) h.waits (List.forall_mem_cons.mpr ⟨hi.1, h.pinned⟩)
    (fun hb => h.valid_held hi (.inr hb)) fun hb hP => absurd hP hb
  · simp only [h.refs_held hi, Users.shares, List.count_cons_self]
    omega
  · rw [Users.shares, List.count_cons_of_ne (Ne.symm hj)]
    rfl

theorem pin_held (h : Coherent s u P last) (hi : i ∈ u.pins) : s.Holds i (s.buf i).blockno := by
  have hlt := h.pinned i hi
  refine ⟨hlt, h.used i hlt ?_, rfl⟩
  have hpos : 0 < u.pins.count i := List.count_pos_iff.mpr hi
  rw [h.refs i hlt, references]
  omega

theorem unpin (h : Coherent s u P last) (hi : i ∈ u.pins) :
    Coherent (s.setBuf i fun x => { x with refcnt := x.refcnt - 1 }) { u with pins := u.pins.erase i } P last := by
  have hpos : 0 < u.pins.count i := List.count_pos_iff.mpr hi
  have hb := h.pin_held hi
  refine h.recount (g := fun n => n - 1) hb ?_ (fun j hj => ?_) rfl (fun _ _ => Iff.rfl) h.waits
    (fun j hj => h.pinned j (List.mem_of_mem_erase hj)) (fun hP => h.valid_held hb (.inr hP)) fun hb hP => absurd hP hb
  · simp only [h.refs_held hb, Users.shares, List.count_erase_self]
    omega
  · rw [Users.shares, List.count_erase_of_ne hj]
    rfl

theorem log_pin (h : Coherent s u P last) (hl : (s.buf i).lock = some p) (hb : (s.buf i).blockno ∉ P) :
    Coherent (s.setBuf i fun x => { x with refcnt := x.refcnt + 1 }) u (P ++ [(s.buf i).blockno]) last := by
  have hi := h.held hl
  refine h.recount hi ?_ (fun _ _ => rfl) rfl (fun b hne => by simp [hne]) h.waits h.pinned
    (fun _ => h.valid i (by rw [hl]; simp)) fun hout hP => absurd hP hb
  have hin : (s.buf i).blockno ∈ P ++ [(s.buf i).blockno] := by simp
  rw [h.refs_held hi, if_neg hb, if_pos hin]

theorem log_unpin (h : Coherent s u (b :: P) last) (hb : b ∉ P) (hi : s.Holds i b) (hview : s.view b = s.disk b) :
    Coherent (s.setBuf i fun x => { x with refcnt := x.refcnt - 1 }) u P last := by
  refine h.recount (g := fun n => n - 1) hi ?_ (fun _ _ => rfl) rfl (fun b' hne => by simp [hne]) h.waits h.pinned
    (absurd · hb) fun _ _ => hview
  rw [h.refs_held hi, if_pos List.mem_cons_self, if_neg hb]
  omega

theorem logged (h : Coherent s u P last) (hl : (s.buf i).lock = some p) (hb : (s.buf i).blockno ∈ P) :
    Coherent s (u.mark i false) P last := by
  have hi := h.held hl
  have hne : (s.buf i).lock ≠ none := by
    rw [hl]
    simp
  exact (h.one hi (u.mark i false) P last rfl (fun _ _ => rfl) ⟨rfl, rfl⟩ (fun _ => Iff.rfl) (fun _ _ => rfl)
    (fun j hj => ⟨rfl, Users.mark_changed_of_ne _ _ _ _ hj⟩) (fun _ _ => Iff.rfl) (fun _ _ => rfl) h.waits h.pinned
    (h.refs_held hi) (h.valid_held hi) (fun _ => hne) (fun hbP => absurd hb hbP) (absurd · hne)).1

end Coherent

end Xv6.Fs
