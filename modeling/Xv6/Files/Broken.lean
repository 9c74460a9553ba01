import Xv6.Files.Logged

/-!
# A write whose source breaks off

The bytes of the block in which the source becomes unreadable are copied to the buffer and neither
counted nor logged.
-/

open Xv6.Lib Op

namespace Xv6.Files

open State

section loop
variable [Super] {s t : State} {ip o b k off n tot left : Nat} {src : Source}

def wholeBlocks (off len : Nat) : Nat := (off + len) / BSIZE * BSIZE - off

/-! ## Room for the blocks before -/

def freeBlocks (s : State) : Nat := ((Finset.range size).filter fun b => s.used b = false).card

/-- How many blocks from `lo` up to `hi` the file does not have. -/
def lacking (s : State) (ip lo hi : Nat) : Nat :=
  (List.range' lo (hi - lo)).countP fun bn => (s.owner (ip, slotOf bn)).isNone

theorem Exhausted.free (h : Exhausted s) : freeBlocks s = 0 := by
  rw [freeBlocks, Finset.card_eq_zero, Finset.filter_eq_empty_iff]
  intro b hb
  simp [h b (Finset.mem_range.mp hb)]

theorem Gets.free {sl : Slot} (h : Gets ip sl b s t) : freeBlocks t + 1 = freeBlocks s := by
  have herase : ((Finset.range size).filter fun c => t.used c = false) =
      ((Finset.range size).filter fun c => s.used c = false).erase b := by
    ext c
    rw [h.used]
    by_cases hc : c = b <;> simp [hc]
  rw [freeBlocks, herase]
  exact Finset.card_erase_add_one (Finset.mem_filter.mpr ⟨Finset.mem_range.mpr h.fresh.hi, h.fresh.unused⟩)

omit [Super] in
theorem lacking_self : lacking s ip k k = 0 := by simp [lacking]

omit [Super] in
theorem lacking_cons {lo hi : Nat} (h : lo < hi) : lacking s ip lo hi =
    lacking s ip (lo + 1) hi + if (s.owner (ip, slotOf lo)).isNone then 1 else 0 := by
  rw [lacking, show hi - lo = hi - (lo + 1) + 1 by omega, List.range'_succ, List.countP_cons]
  rfl

theorem Gets.lacking {lo hi : Nat} (h : Gets ip (slotOf lo) b s t) :
    lacking t ip (lo + 1) hi = lacking s ip (lo + 1) hi := by
  refine List.countP_congr fun bn hbn => ?_
  have hne : (ip, slotOf bn) ≠ (ip, slotOf lo) := fun he => by
    have := slotOf_inj (Prod.mk.inj he).2
    have := (List.mem_range'_1.mp hbn).1
    omega
  rw [h.owner, Function.update_of_ne hne]

/-- The first `cut` bytes end with a block. All of them are written if there is room for the blocks that are not there. -/
theorem writei_loop_room {cut tot' off' : Nat} (h : Sane (some ip) s) (hv : (s.itable ip).valid = true) (hk : left ≤ k)
    (hoff : off + left ≤ MAXFILE * BSIZE) (hcut : cut ≤ left) (hal : cut = 0 ∨ (off + cut) % BSIZE = 0)
    (hread : tot + cut ≤ src.len) (hind : NDIRECT ≤ (off + cut) / BSIZE → s.owner (ip, .addr NDIRECT) ≠ none)
    (hrun : writei_loop ip src k tot off left s = .ok ((tot', off'), t)) :
    tot' < tot + cut ↔ freeBlocks s < lacking s ip (off / BSIZE) ((off + cut) / BSIZE) := by
  induction k generalizing s tot off left cut with
  | zero =>
    obtain rfl : left = 0 := by omega
    obtain rfl : cut = 0 := by omega
    have hle := ((writei_loop_ends (E := fun _ => True) h hv hk hoff).of_ok hrun).le
    dsimp only at hle
    rw [Nat.add_zero, Nat.add_zero, lacking_self]
    omega
  | succ k ih =>
    by_cases h0 : cut = 0
    · have hle := ((writei_loop_ends (E := fun _ => True) h hv hk hoff).of_ok hrun).le
      dsimp only at hle
      rw [h0, Nat.add_zero, Nat.add_zero, lacking_self]
      omega
    obtain ⟨hmin, hpos, hle, hdiv, hlt⟩ : min left (BSIZE - off % BSIZE) = BSIZE - off % BSIZE ∧ 0 < BSIZE - off % BSIZE ∧
        BSIZE - off % BSIZE ≤ cut ∧ (off + (BSIZE - off % BSIZE)) / BSIZE = off / BSIZE + 1 ∧
        off / BSIZE < (off + cut) / BSIZE := by
      simp only [BSIZE] at *
      omega
    unfold writei_loop at hrun
    dsimp only at hrun
    rw [if_neg (by omega), hmin] at hrun
    generalize BSIZE - off % BSIZE = m at *
    obtain ⟨a, u, hb, hrest⟩ := (bind_ok _ _).mp hrun
    have hsum : off + m + (cut - m) = off + cut := by omega
    have hnext : Sane (some ip) u → (u.itable ip).valid = true → u.owner (ip, slotOf (off / BSIZE)) = some a →
        (NDIRECT ≤ (off + cut) / BSIZE → u.owner (ip, .addr NDIRECT) ≠ none) →
        (tot' < tot + cut ↔ freeBlocks u < lacking u ip (off / BSIZE + 1) ((off + cut) / BSIZE)) := by
      intro hu hvu ha hiu
      unfold copyin_block at hrest
      rw [if_neg (owner_ne_zero ha), run_bind (run_update _), if_pos (by omega)] at hrest
      obtain ⟨hw, ho⟩ := Wrote.of_copyin (m := m) hu ha (Nat.min_le_left ..) rfl
      have hih : tot' < tot + m + (cut - m) ↔ _ := ih hw.sane (by rw [hw.valid, hvu]) (by omega) (by omega) (by omega)
        (.inr (by rw [hsum]; exact hal.resolve_left h0)) (by omega) (by rwa [ho, hsum]) hrest
      rwa [hdiv, hsum, show tot + m + (cut - m) = tot + cut by omega, lacking, ho] at hih
    rw [lacking_cons hlt]
    have hbn : off / BSIZE < MAXFILE := block_index_lt (by omega)
    cases hs : s.owner (ip, slotOf (off / BSIZE)) with
    | some b =>
      rw [bmap_found hv hs hbn] at hb
      cases hb
      exact hnext h hv hs hind
    | none =>
      rcases (bmap_filled (E := fun _ => True) h hv hbn hs fun hd => hind (by omega)).of_ok hb with ⟨rfl, rfl, hall⟩ | hg
      · obtain ⟨rfl, rfl⟩ := Prod.mk.inj (pure_ok.mp hrest).1
        simp only [hall.free, Option.isNone_none, if_true]
        omega
      · have hw := hg.wrote 0 0
        have := hg.free
        rw [hnext hw.sane (by rw [hw.valid, hv]) (by rw [hg.owner, Function.update_self]), hg.lacking]
        · simp only [Option.isNone_none, if_true]
          omega
        · intro hd
          obtain ⟨c, hc⟩ := Option.ne_none_iff_exists'.mp (hind hd)
          simp [hw.keeps _ c hc]

theorem writei_loop_of_ok (hrun : writei ip src off n s = .ok ((tot : Int), t)) : ∃ off' u,
    writei_loop ip src n 0 off n s = .ok ((tot, off'), u) ∧ off + n ≤ MAXFILE * BSIZE := by
  unfold writei at hrun
  rw [inode, run_bind (run_gets _)] at hrun
  split_ifs at hrun with h1 h2
  · have := (pure_ok.mp hrun).1
    omega
  · have := (pure_ok.mp hrun).1
    omega
  · obtain ⟨⟨tot', off'⟩, u, hloop, hrun⟩ := (bind_ok _ _).mp hrun
    obtain ⟨-, -, -, hrun⟩ := (bind_ok _ _).mp hrun
    obtain ⟨-, -, -, hrun⟩ := (bind_ok _ _).mp hrun
    have := (pure_ok.mp hrun).1
    obtain rfl : tot' = tot := by omega
    exact ⟨off', u, hloop, by omega⟩

theorem Put.broken_at (h : Put ip src off n tot s t) (hspill : Spilled ip src tot (off + tot) (n - tot) t) :
    src.len < n ∧ tot = wholeBlocks off src.len ∧ (off + tot) / BSIZE = (off + src.len) / BSIZE := by
  have hlen := hspill.len
  have hread := h.readable
  have hle := h.le
  have hstep := h.step
  unfold wholeBlocks
  simp only [BSIZE] at *
  omega

/-- The blocks of the file hold what the source has up to where it breaks off. -/
def Alike (s : State) (ip : Nat) (src : Source) (off : Nat) : Prop :=
  ∀ o b, off ≤ o → o < off + src.len → o / BSIZE = (off + src.len) / BSIZE →
    s.owner (ip, slotOf (o / BSIZE)) = some b → (s.data b).byte (o % BSIZE) = src.byte (o - off)

/-- The source breaks off nowhere, or at the start of a block, or in one that the file does not have or that has the same
bytes already; or there is no room for the blocks before. -/
def Spares (s : State) (ip : Nat) (src : Source) (off n : Nat) : Prop :=
  ¬ Fits s ip off n ∨ n ≤ src.len ∨ Alike s ip src off ∨
    freeBlocks s < lacking s ip (off / BSIZE) ((off + src.len) / BSIZE)

theorem writei_short_iff (h : Sane none s) (hv : (s.itable ip).valid = true)
    (hrun : writei ip src off n s = .ok ((tot : Int), t)) (hlen : src.len < n)
    (hb : s.owner (ip, slotOf ((off + src.len) / BSIZE)) = some b) :
    tot < wholeBlocks off src.len ↔ freeBlocks s < lacking s ip (off / BSIZE) ((off + src.len) / BSIZE) := by
  obtain ⟨off', u, hloop, hn⟩ := writei_loop_of_ok hrun
  obtain ⟨hle, hal, hdiv⟩ : wholeBlocks off src.len ≤ src.len ∧
      (wholeBlocks off src.len = 0 ∨ (off + wholeBlocks off src.len) % BSIZE = 0) ∧
      (off + wholeBlocks off src.len) / BSIZE = (off + src.len) / BSIZE := by
    unfold wholeBlocks
    simp only [BSIZE]
    omega
  have hind : NDIRECT ≤ (off + src.len) / BSIZE → s.owner (ip, .addr NDIRECT) ≠ none := by
    intro hd
    rw [slotOf, if_neg (by omega)] at hb
    obtain ⟨c, hc⟩ := indirect_of_entry hb
    simp [hc]
  have := writei_loop_room (h.weaken _) hv (Nat.le_refl _) hn (by omega) hal (by omega) (by rwa [hdiv]) hloop
  rwa [Nat.zero_add, hdiv] at this

theorem Put.contents_spared (h : Put ip src off n tot s t) (hf : Full s ip)
    (halike : Spilled ip src tot (off + tot) (n - tot) t → Alike s ip src off) (ho : ¬ (off ≤ o ∧ o < off + tot)) :
    (t.contents ip)[o]? = (s.contents ip)[o]? := by
  obtain ⟨f, hnode⟩ := h.node
  have hstart := h.start
  have hsize : (t.node ip).size = max (s.node ip).size (off + tot) := by rw [hnode]
  by_cases hlt : o < (s.node ip).size
  · have hbyte : t.byteAt ip o = s.byteAt ip o := by
      by_cases hin : off ≤ o ∧ o < off + min n src.len
      · rcases h.short (by omega) with ⟨hnone, -⟩ | hspill
        · have := hf.size_le hnone
          omega
        · obtain ⟨-, -, hblock⟩ := h.broken_at hspill
          have hlen := hspill.len
          have hmod : (off + tot) % BSIZE < BSIZE := Nat.mod_lt _ (by decide)
          obtain ⟨hd, -⟩ := div_mod_block (off + tot) (o - (off + tot)) (by omega)
          rw [show off + tot + (o - (off + tot)) = o by omega] at hd
          have hdiv : o / BSIZE * BSIZE ≤ o := Nat.div_mul_le_self ..
          obtain ⟨b, hb⟩ := Option.ne_none_iff_exists'.mp (hf.blocks (o / BSIZE) (by omega))
          rw [(hspill.bytes o (by omega) (by omega)).2, byteAt_of_owner hb,
            halike hspill o b (by omega) (by omega) (by omega) hb]
          congr 1
          omega
      · exact h.kept o hlt hin
    rw [List.getElem?_eq_getElem (by rw [contents_length]; omega), List.getElem?_eq_getElem (by rw [contents_length]; omega)]
    simp only [State.contents, State.slice, List.getElem_map, List.getElem_range, Nat.zero_add, hbyte]
  · rw [List.getElem?_eq_none (by rw [contents_length]; omega), List.getElem?_eq_none (by rw [contents_length]; omega)]

theorem Put.data_spared {bn : Nat} (h : Put ip src off n tot s t) (halike : Alike s ip src off)
    (hspill : Spilled ip src tot (off + tot) (n - tot) t) (hbn : bn = (off + tot) / BSIZE)
    (hb : s.owner (ip, slotOf bn) = some b) : t.data b = s.data b := by
  obtain ⟨hbt, hrest⟩ := h.rest bn b hb
  obtain ⟨-, htot, hblock⟩ := h.broken_at hspill
  have hstep := h.step
  have hle := h.le
  have hread := h.readable
  funext k
  have hk : (t.data b).byte k = (s.data b).byte k := by
    have hdiv : (bn * BSIZE + k) / BSIZE = bn := by
      rw [Nat.mul_comm, Nat.mul_add_div (by decide), Nat.div_eq_of_lt k.isLt, Nat.add_zero]
    have hmod : (bn * BSIZE + k) % BSIZE = k := by
      rw [Nat.mul_comm, Nat.mul_add_mod, Nat.mod_eq_of_lt k.isLt]
    by_cases hin : off ≤ bn * BSIZE + k ∧ bn * BSIZE + k < off + min n src.len
    · have hge : off + tot ≤ bn * BSIZE + k := by
        unfold wholeBlocks at htot
        simp only [BSIZE] at *
        omega
      have hnew := (hspill.bytes _ hge (by omega)).2
      have hold := halike (bn * BSIZE + k) b hin.1 (by omega) (by omega) (by rw [hdiv, hb])
      rw [byteAt_of_owner (by rw [hdiv, hbt]), hmod] at hnew
      rw [hmod] at hold
      rw [hnew, hold]
      congr 1
      omega
    · exact hrest k k.isLt hin
  simpa only [Block.byte, dif_pos k.isLt] using hk

/-- A byte that is copied into the last block without being counted, and differs from the one there, changes the block. -/
theorem Put.changed (h : Put ip src off n tot s t) (hlen : src.len < n) (hall : ¬ tot < wholeBlocks off src.len)
    (h1 : off ≤ o) (h2 : o < off + src.len) (h3 : o / BSIZE = (off + src.len) / BSIZE)
    (hb : s.owner (ip, slotOf (o / BSIZE)) = some b) (hne : (s.data b).byte (o % BSIZE) ≠ src.byte (o - off)) :
    tot = wholeBlocks off src.len ∧ tot < n ∧ t.data b ≠ s.data b := by
  have hread := h.readable
  have hspill : Spilled ip src tot (off + tot) (n - tot) t := by
    rcases h.short (by omega) with ⟨hnone, -⟩ | hspill
    · have hblock : (off + tot) / BSIZE = o / BSIZE := by
        unfold wholeBlocks at hall
        simp only [BSIZE] at *
        omega
      rw [hblock, hb] at hnone
      cases hnone
    · exact hspill
  obtain ⟨-, htot, -⟩ := h.broken_at hspill
  have hge : off + tot ≤ o := by
    unfold wholeBlocks at htot
    simp only [BSIZE] at *
    omega
  refine ⟨htot, by omega, fun hd => hne ?_⟩
  have hnew := (hspill.bytes o hge (by omega)).2
  rwa [byteAt_of_owner (h.rest _ b hb).1, hd, show tot + (o - (off + tot)) = o - off by omega] at hnew

end loop

section logged
variable [Layout] {s : State} {l : Trace} {ip off n : Nat} {src : Source}

structure Accounted (s t : State) (logged : List Nat) : Prop where
  data : ∀ b, t.data b ≠ s.data b → b ∈ logged
  bits : ∀ b, t.used b ≠ s.used b → BBLOCK b ∈ logged
  nodes : ∀ i, t.dinode i ≠ s.dinode i → IBLOCK i ∈ logged

/-- If `writei` returns less than `n`, the file differs only in the bytes it counts, and no buffer
has changed that was not logged. -/
def Reported (ip off n : Nat) (s : State) (r : Int) (p : State × Trace) : Prop :=
  r < n → (∀ o : Nat, ¬ (off ≤ o ∧ o < off + r) → (p.1.contents ip)[o]? = (s.contents ip)[o]?) ∧
    Accounted s p.1 p.2.cur

open Logged in
theorem Recorded.not_logged {t : State} {tot o b : Nat} {X : Nat → Prop} {new : List Nat}
    (hrec : Recorded ip (Meets off (off + tot)) (Meets off (off + n)) X s t new) (hsane : Sane none t)
    (htot : tot = wholeBlocks off src.len) (hblock : o / BSIZE = (off + src.len) / BSIZE)
    (hb : s.owner (ip, slotOf (o / BSIZE)) = some b) : b ∉ new := by
  have hbt := hrec.keeps _ _ hb
  have hlo := (hsane.addr_pos hbt).1
  have hbit : ∀ {r b'}, t.owner r = some b' → BBLOCK b' ≠ b := fun hr he => by
    have := Layout.bitmap_lt _ (hsane.addr_pos hr).2.1
    unfold BBLOCK at he
    omega
  intro hmem
  have hreason := hrec.reason b hmem
  generalize hc : b = c at hreason
  cases hreason with
  | written bn _ hW hbn =>
    obtain ⟨o', h1, h2, h3⟩ := hW
    subst hc
    have := slotOf_inj (Prod.mk.inj (hsane.owned.inj _ _ _ hbn hbt)).2
    unfold wholeBlocks at htot
    simp only [BSIZE] at *
    omega
  | zeroed bn _ _ h0 hbn =>
    subst hc
    have := slotOf_inj (Prod.mk.inj (hsane.owned.inj _ _ _ hbn hbt)).2
    rw [this, hb] at h0
    cases h0
  | bit bn b' _ _ hbn => exact hbit hbn hc.symm
  | indirect _ hind =>
    subst hc
    exact slotOf_ne_indirect _ (Prod.mk.inj (hsane.owned.inj _ _ _ hbt hind)).2
  | indirectBit b' hind => exact hbit hind hc.symm

open Logged in
theorem Put.accounted {t : State} {tot : Nat} {W A : Nat → Prop} {new : List Nat} (h : Put ip src off n tot s t)
    (hrec : Recorded ip W A (Excused ip src tot (off + tot) (n - tot) t) s t new)
    (hnodes : ∀ i, i ≠ ip → t.dinode i = s.dinode i)
    (halike : Spilled ip src tot (off + tot) (n - tot) t → Alike s ip src off) :
    Accounted s t (IBLOCK ip :: new) where
  data := by
    intro b hb
    refine List.mem_cons_of_mem _ ?_
    rcases hrec.data b hb with hmem | ⟨hspill, hbt⟩
    · exact hmem
    · cases hbs : s.owner (ip, slotOf ((off + tot) / BSIZE)) with
      | none => exact hrec.taken _ b hbs hbt
      | some b' =>
        have := hrec.keeps _ _ hbs
        rw [hbt] at this
        cases this
        exact absurd (h.data_spared (halike hspill) hspill rfl hbs) hb
  bits := fun b hb => List.mem_cons_of_mem _ (hrec.bits b hb)
  nodes := by
    intro i hi
    by_cases hip : i = ip
    · rw [hip]
      exact List.mem_cons_self
    · exact absurd (hnodes i hip) hi

/-- A write that breaks off keeps to what it reports just if the bytes of the last block, which it
copies without counting them, do no harm. -/
theorem broken_write_reported (h : Sane none s) (hv : (s.itable ip).valid = true) (hoff : off < 2 ^ 32)
    (hn : n < 2 ^ 32) (hl : l.cur = []) : Ends (Logged.writei ip src off n) (s, l)
      (fun r p => Reported ip off n s r p ↔ Spares s ip src off n) fun _ => False := by
  have hf := h.full ip (by simp) (h.node_type hv)
  refine (Logged.writei_ends h hv).mono ?_
  rintro r ⟨t, l'⟩ ⟨hrun, hlog⟩
  have hput := (writei_ends (E := fun _ => True) h hv).of_ok hrun
  rcases hput with ⟨rfl, hts, hbad⟩ | ⟨tot, rfl, hput⟩
  · have hfits : ¬ Fits s ip off n := by
      rintro ⟨h1, h2, h3⟩
      rw [contents_length] at h1
      omega
    refine iff_of_true (fun _ => ?_) (.inl hfits)
    rw [hts]
    exact ⟨fun _ _ => rfl, fun _ h => absurd rfl h, fun _ h => absurd rfl h, fun _ h => absurd rfl h⟩
  · obtain ⟨h0, -⟩ | ⟨tot', new, htot, hcur, hnodes, hrec⟩ := hlog
    · omega
    obtain rfl : tot = tot' := by omega
    have hcur : l'.cur = IBLOCK ip :: new := by
      dsimp only at hcur
      simp [hcur, Trace.log, hl]
    have hfits : Fits s ip off n :=
      ⟨by rw [contents_length]; exact hput.start, hput.bound.trans_lt (by decide), hput.bound⟩
    dsimp only at hnodes hrec
    constructor
    · intro hrep
      by_contra hno
      simp only [Spares, not_or, not_not] at hno
      obtain ⟨-, hlen, halike, hshort⟩ := hno
      have hlen : src.len < n := by omega
      unfold Alike at halike
      push Not at halike
      obtain ⟨o, b, h1, h2, h3, hb, hne⟩ := halike
      rw [← writei_short_iff h hv hrun hlen (h3 ▸ hb)] at hshort
      obtain ⟨htot, hlt, hchanged⟩ := hput.changed hlen hshort h1 h2 h3 hb hne
      have hmem := (hrep (by omega)).2.data b hchanged
      rw [hcur, List.mem_cons] at hmem
      rcases hmem with hi | hmem
      · have := Layout.inodes_lt ip (h.range ip (h.node_type hv)).2
        have := (hput.sane.addr_pos (hput.rest _ b hb).1).1
        unfold IBLOCK at hi
        omega
      · exact hrec.not_logged hput.sane htot h3 hb hmem
    · intro hspares hlt
      have halike : Spilled ip src tot (off + tot) (n - tot) t → Alike s ip src off := by
        intro hspill
        obtain ⟨hlen, htot, -⟩ := hput.broken_at hspill
        rcases hspares with hno | hle | halike | hshort
        · exact absurd hfits hno
        · omega
        · exact halike
        · intro o b _ _ h3 hb
          rw [← writei_short_iff h hv hrun hlen (h3 ▸ hb)] at hshort
          omega
      refine ⟨fun o ho => hput.contents_spared hf halike (by omega), ?_⟩
      rw [hcur]
      exact hput.accounted hrec hnodes halike

section twoBytes
omit [Layout]

def oneNine : Source := ⟨fun _ => 9, 1⟩

theorem broken_write_reported_two : ∃ s, @Sane smallDisk none s ∧ (s.itable 1).valid = true ∧
    Ends (@Logged.writei smallLayout 1 oneNine 0 2) (s, {})
      (fun r p => @Reported smallLayout 1 0 2 s r p ↔ @Spares smallDisk s 1 oneNine 0 2) fun _ => False := by
  obtain ⟨s, hsane, hs⟩ := exists_sane twoBytes (fun s => (s.itable 1).valid) (by decide +kernel)
  exact ⟨s, hsane, hs, @broken_write_reported smallLayout s {} 1 0 2 oneNine hsane hs (by decide) (by decide) rfl⟩

/-- One of two bytes can be read. The write counts none, and the first byte of the file is a new one that is not logged. -/
theorem broken_write_shows : ∃ s r p, @Sane smallDisk none s ∧ (s.itable 1).valid = true ∧
    @Logged.writei smallLayout 1 oneNine 0 2 (s, {}) = .ok (r, p) ∧ r = 0 ∧
    (s.contents 1)[0]? = some 7 ∧ (p.1.contents 1)[0]? = some 9 ∧ (p.1.data 4).byte 0 ≠ (s.data 4).byte 0 ∧
    4 ∉ p.2.cur ∧ ¬ @Reported smallLayout 1 0 2 s r p := by
  obtain ⟨s, hsane, hs⟩ := exists_sane twoBytes (fun s => decide ((s.itable 1).valid = true ∧
    (@Logged.writei smallLayout 1 oneNine 0 2 (s, {})).toOption.map (fun x => decide (x.1 = 0 ∧
      (s.contents 1)[0]? = some 7 ∧ (x.2.1.contents 1)[0]? = some 9 ∧
      (x.2.1.data 4).byte 0 ≠ (s.data 4).byte 0 ∧ 4 ∉ x.2.2.cur)) = some true)) (by decide +kernel)
  obtain ⟨hv, hrun⟩ := of_decide_eq_true hs
  obtain ⟨⟨r, p⟩, hrun, hp⟩ := Option.map_eq_some_iff.mp hrun
  obtain ⟨h0, h7, h9, hne, hlog⟩ := of_decide_eq_true hp
  refine ⟨s, r, p, hsane, hv, toOption_eq_some.mp hrun, h0, h7, h9, hne, hlog, fun hrep => ?_⟩
  have hsame := (hrep (by dsimp only at h0; omega)).1 0 (by dsimp only at h0; omega)
  rw [h7, h9] at hsame
  cases hsame

end twoBytes

end logged

end Xv6.Files
