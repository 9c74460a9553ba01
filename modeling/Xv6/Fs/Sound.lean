import Xv6.Fs.Room
import Xv6.Fs.Transactions

/-!
# The cache in a running system

In every state of a run, with commits, crashes and recoveries, the cache and the disk together have what was last left
in each block.
-/

open Xv6.Lib Op

namespace Xv6.Fs

open Store

/-! ## Where the log is -/

inductive Pos where
  | idle
  | boot (b : Boot)
  | stage (p : Nat) (st : Stage)

namespace Pos

def pins (lh : List Nat) : Pos → List Nat
  | .boot _ => []
  | .stage _ (.install tail) => lh.drop tail
  | _ => lh

def copied (n : Nat) : Pos → Nat
  | .stage _ (.write_log tail) => tail
  | .stage _ .write_head => n
  | .stage _ (.install _) => n
  | _ => 0

def emptied : Pos → Bool
  | .boot .clear => true
  | .stage _ .clear => true
  | .stage _ .leave => true
  | _ => false

end Pos

/-- The header on disk: not read after a boot, empty, being installed, or all installed. -/
inductive Span where
  | unread
  | empty
  | installing (tail : Nat)
  | installed

def Pos.span : Pos → Span
  | .boot .read_head => .unread
  | .boot (.install tail) => .installing tail
  | .boot .clear => .installed
  | .stage _ (.install tail) => .installing tail
  | .stage _ .clear => .installed
  | _ => .empty

def Place (y : Sys) : Pos → Prop
  | .idle => y.boot = none ∧ ∀ p st, y.phase p ≠ .committing st
  | .boot b => y.boot = some b
  | .stage p st => y.boot = none ∧ y.phase p = .committing st

section place
variable {y y' : Sys} {pos : Pos} {p op : Nat} {st : Stage} {b : Boot}

theorem Place.eq_stage (h : Place y pos) (ht : y.proto.Turns) (hp : y.phase p = .committing st) :
    pos = .stage p st := by
  have hboot : y.boot = none := ht.boot_none (p := p) fun hout => absurd (hp.symm.trans hout) (by simp)
  cases pos with
  | idle => exact absurd hp (h.2 p st)
  | boot b =>
    unfold Place at h
    rw [hboot] at h
    cases h
  | stage r st' =>
    have hr : p = r := by
      by_contra hne
      exact absurd (hp.symm.trans ((ht.alone r st' h.2).2 p hne)) (by simp)
    subst hr
    have hst := hp.symm.trans h.2
    cases hst
    rfl

theorem Place.eq_idle (h : Place y pos) (ht : y.proto.Turns) (hp : y.phase p = .inOp op) : pos = .idle := by
  have hboot : y.boot = none := ht.boot_none (p := p) fun hout => absurd (hp.symm.trans hout) (by simp)
  cases pos with
  | idle => rfl
  | boot b =>
    unfold Place at h
    rw [hboot] at h
    cases h
  | stage r st => exact absurd hp (ht.not_inOp h.2)

theorem Place.eq_boot (h : Place y pos) (hb : y.boot = some b) : pos = .boot b := by
  cases pos with
  | idle =>
    rw [h.1] at hb
    cases hb
  | boot b' =>
    unfold Place at h
    rw [hb] at h
    cases h
    rfl
  | stage p st =>
    rw [h.1] at hb
    cases hb

theorem Place.congr (h : Place y pos) (hboot : y'.boot = y.boot)
    (hphase : ∀ p st, y'.phase p = .committing st ↔ y.phase p = .committing st) : Place y' pos := by
  cases pos with
  | idle => exact ⟨hboot.trans h.1, fun p st hp => h.2 p st ((hphase p st).mp hp)⟩
  | boot b => exact hboot.trans h
  | stage p st => exact ⟨hboot.trans h.1, (hphase p st).mpr h.2⟩

theorem Place.move {ph : Phase} (h : Place y pos) (hboot : y'.boot = y.boot)
    (hphase : y'.phase = Function.update y.phase p ph) (hp : ∀ st, y.phase p ≠ .committing st)
    (hph : ∀ st, ph ≠ .committing st) : Place y' pos := by
  refine h.congr hboot ?_
  intro r st
  rw [hphase]
  by_cases hr : r = p
  · rw [hr, Function.update_self]
    exact ⟨fun heq => absurd heq (hph st), fun heq => absurd heq (hp st)⟩
  · rw [Function.update_of_ne hr]

end place

/-! ## The invariant -/

/-- No holder has changed the block since its last `bwrite` or `log_write`. -/
def Sys.Clean (y : Sys) (b : Nat) : Prop := ∀ i, y.users.changed i = true → (y.fs.buf i).blockno ≠ b

structure Sound (start : Nat) (y : Sys) (pos : Pos) : Prop where
  cache : Coherent y.fs y.users (pos.pins y.fs.log.lh) y.last
  place : Place y pos
  dev : y.fs.log.dev = ROOTDEV
  start_eq : y.fs.log.start = start
  fits : start + LOGBLOCKS < 2 ^ 32
  lh : Loggable start y.fs.log.lh
  header : Loggable start (header_blocks (y.last start))
  area : ∀ b, ¬ Home start b → y.Clean b ∧ y.fs.view b = y.last b
  copied : ∀ j < pos.copied y.fs.log.lh.length, y.last (start + j + 1) = y.last (y.fs.log.lh.getD j 0) ∧
    (y.Clean (y.fs.log.lh.getD j 0) → y.fs.view (y.fs.log.lh.getD j 0) = y.last (y.fs.log.lh.getD j 0))
  upto : pos.copied y.fs.log.lh.length ≤ y.fs.log.lh.length
  emptied : pos.emptied = true → y.fs.log.lh = []

/-- What the processes may do: they leave the log area alone, and do not write a logged block
to its home. -/
def Careful (start : Nat) : Action → Sys → Prop
  | .change _ i _, y => Home start (y.fs.buf i).blockno
  | .log_write _ i, y => Home start (y.fs.buf i).blockno
  | .bwrite _ i, y => (y.fs.buf i).blockno ∉ y.fs.log.lh
  | _, _ => True

instance (start b : Nat) : Decidable (Home start b) := by
  unfold Home
  infer_instance

instance (start : Nat) (a : Action) (y : Sys) : Decidable (Careful start a y) := by
  cases a <;> (unfold Careful; infer_instance)

inductive Effect (start : Nat) (y : Sys) (a : Action) (y' : Sys) : Span → Span → Prop
  | quiet (x : Span) (hdisk : y'.fs.disk = y.fs.disk) (hlh : y'.fs.log.lh = y.fs.log.lh)
      (hdurable : y'.durable = y.durable) : Effect start y a y' x x
  | logged (p i : Nat) (ha : a = .log_write p i) (hdisk : y'.fs.disk = y.fs.disk)
      (hlh : y'.fs.log.lh = y.fs.log.lh ++ [(y.fs.buf i).blockno]) (hdurable : y'.durable = y.durable) :
      Effect start y a y' .empty .empty
  | direct (x : Span) (p i : Nat) (ha : a = .bwrite p i)
      (hdisk : ∀ b, y'.fs.disk b = if b = (y.fs.buf i).blockno then (y.fs.buf i).data else y.fs.disk b)
      (hlh : y'.fs.log.lh = y.fs.log.lh) (hdurable : y'.durable = y.durable) : Effect start y a y' x x
  | slot (tail : Nat) (d : Data) (ht : tail < y.fs.log.lh.length)
      (hdisk : ∀ b, y'.fs.disk b = if b = start + tail + 1 then d else y.fs.disk b)
      (hlh : y'.fs.log.lh = y.fs.log.lh) (hdurable : y'.durable = y.durable) : Effect start y a y' .empty .empty
  | head (d : Data) (hslots : ∀ j < y.fs.log.lh.length, y.fs.disk (start + j + 1) = y.last (y.fs.log.lh.getD j 0))
      (hdisk : ∀ b, y'.fs.disk b = if b = start then header_fill y.fs.log.lh d else y.fs.disk b)
      (hlh : y'.fs.log.lh = y.fs.log.lh)
      (hdurable : y'.durable = y.durable ++ [y.fs.log.lh.map fun b => (b, y.last b)]) :
      Effect start y a y' .empty (.installing 0)
  | home (tail : Nat) (ht : tail < y.fs.log.lh.length)
      (hdisk : ∀ b, y'.fs.disk b = if b = y.fs.log.lh.getD tail 0 then y.fs.disk (start + tail + 1) else y.fs.disk b)
      (hlh : y'.fs.log.lh = y.fs.log.lh) (hdurable : y'.durable = y.durable) :
      Effect start y a y' (.installing tail) (.installing (tail + 1))
  | forget (tail : Nat) (ht : y.fs.log.lh.length ≤ tail) (hdisk : y'.fs.disk = y.fs.disk) (hlh : y'.fs.log.lh = [])
      (hdurable : y'.durable = y.durable) : Effect start y a y' (.installing tail) .installed
  | clear (d : Data) (hdisk : ∀ b, y'.fs.disk b = if b = start then header_fill [] d else y.fs.disk b)
      (hlh : y'.fs.log.lh = y.fs.log.lh) (hdurable : y'.durable = y.durable) : Effect start y a y' .installed .empty
  | read (hdisk : y'.fs.disk = y.fs.disk) (hlh : y'.fs.log.lh = header_blocks (y.fs.disk start))
      (hdurable : y'.durable = y.durable) : Effect start y a y' .unread (.installing 0)
  | crash (x : Span) (hdisk : y'.fs.disk = y.fs.disk) (hlh : y'.fs.log.lh = []) (hdurable : y'.durable = y.durable) :
      Effect start y a y' x .unread

/-- A step from `y`: the invariant, the disk, and no buffer in use is recycled. -/
def Stepped (start : Nat) (y : Sys) (pos : Pos) (a : Action) (y' : Sys) : Prop :=
  ∃ pos', Sound start y' pos' ∧ Effect start y a y' pos.span pos'.span ∧
    (a ≠ .crash → ∀ i b, Needed y.users (pos.pins y.fs.log.lh) i b → y.fs.Holds i b → y'.fs.Holds i b)

section sound
variable {start : Nat} {y y' : Sys} {pos : Pos} {p i b j tail : Nat} {u : Unit} {d : Data} {a : Action} {s : Store}

theorem pins_mem (lh : List Nat) (hb : b ∈ pos.pins lh) : b ∈ lh := by
  unfold Pos.pins at hb
  split at hb
  · cases hb
  · exact List.mem_of_mem_drop hb
  · exact hb

namespace Sound

theorem log_block (h : Sound start y pos) (hj : j < y.fs.log.lh.length) : ¬ Home start (start + j + 1) := by
  have := h.lh.length
  unfold Home
  omega

theorem header_block (_ : Sound start y pos) : ¬ Home start start := by
  unfold Home
  omega

theorem disk_area (h : Sound start y pos) (hb : ¬ Home start b) : y.fs.disk b = y.last b := by
  obtain ⟨hclean, hview⟩ := h.area b hb
  rw [← hview]
  refine (h.cache.clean b ?_ ?_).symm
  · exact fun hP => hb (h.lh.home b (pins_mem _ hP))
  · intro i hi
    rw [← Bool.not_eq_true]
    exact fun hc => hclean i hc hi.2.2

/-! ## Steps of the processes -/

/-- A step that leaves the log where it is, and the blocks of the log area and those already
copied as they are. -/
theorem keep (h : Sound start y pos) (hlh : y'.fs.log.lh = y.fs.log.lh) (hdev : y'.fs.log.dev = y.fs.log.dev)
    (hstart : y'.fs.log.start = y.fs.log.start) (hplace : Place y' pos)
    (hcache : Coherent y'.fs y'.users (pos.pins y.fs.log.lh) y'.last)
    (hclean : ∀ b, ¬ Home start b → y.Clean b → y'.Clean b)
    (hsame : ∀ b, (¬ Home start b ∨ ∃ j < pos.copied y.fs.log.lh.length, b = y.fs.log.lh.getD j 0) →
      y'.last b = y.last b ∧ (y'.Clean b → y.Clean b ∧ y'.fs.view b = y.fs.view b)) : Sound start y' pos := by
  refine ⟨by rw [hlh]; exact hcache, hplace, hdev.trans h.dev, hstart.trans h.start_eq, h.fits, by rw [hlh]; exact h.lh, ?_,
    ?_, ?_, by rw [hlh]; exact h.upto, by rw [hlh]; exact h.emptied⟩
  · rw [(hsame start (.inl h.header_block)).1]
    exact h.header
  · intro b hb
    obtain ⟨hc, hv⟩ := h.area b hb
    have hc' := hclean b hb hc
    obtain ⟨hl, hrest⟩ := hsame b (.inl hb)
    exact ⟨hc', by rw [(hrest hc').2, hl, hv]⟩
  · intro j hj
    rw [hlh] at hj ⊢
    obtain ⟨hcopy, hkept⟩ := h.copied j hj
    obtain ⟨hl, hrest⟩ := hsame _ (.inr ⟨j, hj, rfl⟩)
    have hslot := (hsame _ (.inl (h.log_block (hj.trans_le h.upto)))).1
    refine ⟨by rw [hslot, hl, hcopy], fun hc' => ?_⟩
    obtain ⟨hc, hv⟩ := hrest hc'
    rw [hv, hkept hc, hl]

theorem clean_iff (hch : y'.users.changed = y.users.changed)
    (hkeys : ∀ i, y.users.changed i = true → (y'.fs.buf i).blockno = (y.fs.buf i).blockno) :
    y'.Clean b ↔ y.Clean b := by
  unfold Sys.Clean
  rw [hch]
  constructor
  · intro h i hi
    rw [← hkeys i hi]
    exact h i hi
  · intro h i hi
    rw [hkeys i hi]
    exact h i hi

theorem keep_quiet (h : Sound start y pos) (hq : Quiet y.fs y'.fs) (hplace : Place y' pos)
    (hcache : Coherent y'.fs y'.users (pos.pins y.fs.log.lh) y'.last) (hch : y'.users.changed = y.users.changed)
    (hkeys : ∀ i, y.users.changed i = true → (y'.fs.buf i).blockno = (y.fs.buf i).blockno)
    (hlast : y'.last = y.last) : Sound start y' pos := by
  refine h.keep (by rw [hq.log]) (by rw [hq.log]) (by rw [hq.log]) hplace hcache ?_ ?_
  · intro b _ hc
    exact (clean_iff hch hkeys).mpr hc
  · intro b _
    exact ⟨by rw [hlast], fun hc => ⟨(clean_iff hch hkeys).mp hc, hq.view b⟩⟩

theorem bget (h : Sound start y pos) (hrun : perform (.bget p b) y = .ok (u, y')) :
    Stepped start y pos (.bget p b) y' := by
  simp only [perform, bind_ok, require_ok, lift_ok, update_ok] at hrun
  obtain ⟨_, y, ⟨hguard, rfl⟩, i, _, ⟨s, hget, rfl⟩, rfl⟩ := hrun
  dsimp only
  simp only [Bool.and_eq_true, decide_eq_true_eq] at hguard
  obtain ⟨hc, -, hq⟩ := h.cache.bget_ref hguard.2 hget p
  refine ⟨pos, h.keep_quiet hq (h.place.congr rfl fun _ _ => Iff.rfl) hc rfl ?_ rfl,
    .quiet _ hq.disk (by rw [hq.log]) rfl, fun _ j b' hb hj => h.cache.bget_ref_stays hget hb hj⟩
  intro j hj
  exact (h.cache.bget_ref_keys hget (h.cache.locked_refcnt (h.cache.changed j hj))).2

theorem quiet_step (h : Sound start y pos) (hq : Quiet y.fs y'.fs) (hkeys : SameKeys y.fs y'.fs)
    (hboot : y'.boot = y.boot) (hphase : y'.phase = y.phase)
    (hcache : Coherent y'.fs y'.users (pos.pins y.fs.log.lh) y'.last) (hch : y'.users.changed = y.users.changed)
    (hlast : y'.last = y.last) (hdurable : y'.durable = y.durable) : Stepped start y pos a y' :=
  ⟨pos, h.keep_quiet hq (h.place.congr hboot fun _ _ => by rw [hphase]) hcache hch (fun j _ => (hkeys j).2) hlast,
    .quiet _ hq.disk (by rw [hq.log]) hdurable, fun _ _ _ _ hj => hkeys.holds.mpr hj⟩

theorem lock (h : Sound start y pos) (hrun : perform (.lock p i) y = .ok (u, y')) :
    Stepped start y pos (.lock p i) y' ∧ (y'.fs.buf i).data = y.last (y.fs.buf i).blockno := by
  simp only [perform, bind_ok, require_ok, lift_ok, update_ok] at hrun
  obtain ⟨_, y, ⟨hguard, rfl⟩, _, _, ⟨t, hacq, rfl⟩, _, _, ⟨s, hread, rfl⟩, rfl⟩ := hrun
  dsimp only
  simp only [Bool.and_eq_true, decide_eq_true_eq] at hguard
  obtain ⟨hc, hq, -, -, hd⟩ := h.cache.lock hguard.2 hacq hread
  have hkeys := trans_of SameKeys (Coherent.acquiresleep_keys _ _ _ _ _ hacq) (Coherent.bread_disk_keys _ _ _ _ hread)
  exact ⟨h.quiet_step hq hkeys rfl rfl hc rfl rfl rfl, hd⟩

theorem bpin (h : Sound start y pos) (hrun : perform (.bpin p i) y = .ok (u, y')) :
    Stepped start y pos (.bpin p i) y' := by
  simp only [perform, bind_ok, require_ok, lift_ok, update_ok, Fs.bpin] at hrun
  obtain ⟨_, y, ⟨hguard, rfl⟩, _, _, ⟨s, rfl, rfl⟩, rfl⟩ := hrun
  dsimp only
  simp only [Sys.holds, Bool.and_eq_true, beq_iff_eq] at hguard
  have hkeys : SameKeys y.fs (y.fs.setBuf i fun b => { b with refcnt := b.refcnt + 1 }) := .setBuf ⟨rfl, rfl⟩
  have hq : Quiet y.fs (y.fs.setBuf i fun b => { b with refcnt := b.refcnt + 1 }) :=
    ⟨rfl, rfl, fun _ => h.cache.view_setBuf rfl rfl rfl rfl⟩
  exact h.quiet_step hq hkeys rfl rfl (h.cache.pin hguard.2) rfl rfl rfl

theorem bunpin (h : Sound start y pos) (hrun : perform (.bunpin i) y = .ok (u, y')) :
    Stepped start y pos (.bunpin i) y' := by
  simp only [perform, bind_ok, require_ok, lift_ok, update_ok, Fs.bunpin] at hrun
  obtain ⟨_, y, ⟨hguard, rfl⟩, _, _, ⟨s, rfl, rfl⟩, rfl⟩ := hrun
  dsimp only
  simp only [Bool.and_eq_true, decide_eq_true_eq] at hguard
  have hkeys : SameKeys y.fs (y.fs.setBuf i fun b => { b with refcnt := b.refcnt - 1 }) := .setBuf ⟨rfl, rfl⟩
  have hq : Quiet y.fs (y.fs.setBuf i fun b => { b with refcnt := b.refcnt - 1 }) :=
    ⟨rfl, rfl, fun _ => h.cache.view_setBuf rfl rfl rfl rfl⟩
  exact h.quiet_step hq hkeys rfl rfl (h.cache.unpin hguard.2) rfl rfl rfl

theorem change (h : Sound start y pos) (hhome : Home start (y.fs.buf i).blockno)
    (hrun : perform (.change p i d) y = .ok (u, y')) : Stepped start y pos (.change p i d) y' := by
  simp only [perform, bind_ok, require_ok, lift_ok, set_data, setChanged, update_ok] at hrun
  obtain ⟨_, y, ⟨hguard, rfl⟩, _, _, ⟨s, rfl, rfl⟩, rfl⟩ := hrun
  dsimp only
  simp only [Sys.holds, Bool.and_eq_true, beq_iff_eq] at hguard
  obtain ⟨hc, hview⟩ := h.cache.change hguard.2 d
  have hkeys : SameKeys y.fs (y.fs.setBuf i fun b => { b with data := d }) := .setBuf ⟨rfl, rfl⟩
  refine ⟨pos, h.keep rfl rfl rfl (h.place.congr rfl fun _ _ => Iff.rfl) hc ?_ ?_, .quiet _ rfl rfl rfl,
    fun _ j b _ hj => hkeys.holds.mpr hj⟩
  · intro b hb hclean j hj
    simp only [(hkeys j).2]
    by_cases hji : j = i
    · rintro rfl
      rw [hji] at hb
      exact hb hhome
    · rw [Users.mark_changed_of_ne _ _ _ _ hji] at hj
      exact hclean j hj
  · intro b _
    refine ⟨rfl, fun hclean' => ?_⟩
    have hne : b ≠ (y.fs.buf i).blockno := by
      have := hclean' i (Users.mark_changed _ _ _)
      rw [(hkeys i).2] at this
      exact this.symm
    refine ⟨?_, by rw [hview, if_neg hne]⟩
    intro j hj
    by_cases hji : j = i
    · rw [hji]
      exact hne.symm
    · have := hclean' j (by rw [Users.mark_changed_of_ne _ _ _ _ hji]; exact hj)
      rwa [(hkeys j).2] at this

theorem bwrite (h : Sound start y pos) (hlogged : (y.fs.buf i).blockno ∉ y.fs.log.lh)
    (hrun : perform (.bwrite p i) y = .ok (u, y')) : Stepped start y pos (.bwrite p i) y' := by
  simp only [perform, bind_ok, require_ok, lift_ok, setChanged, update_ok] at hrun
  obtain ⟨_, y, ⟨hguard, rfl⟩, _, _, ⟨s, hwrite, rfl⟩, rfl⟩ := hrun
  dsimp only
  obtain ⟨hl, rfl⟩ := bwrite_ok.mp hwrite
  obtain ⟨hc, hview⟩ := h.cache.write hl
  refine ⟨pos, h.keep rfl rfl rfl (h.place.congr rfl fun _ _ => Iff.rfl) hc ?_ ?_,
    .direct _ p i rfl (fun _ => rfl) rfl rfl, fun _ j b _ hj => hj⟩
  · intro b _ hclean j hj
    by_cases hji : j = i
    · rw [hji, Users.mark_changed] at hj
      cases hj
    · rw [Users.mark_changed_of_ne _ _ _ _ hji] at hj
      exact hclean j hj
  · intro b hb
    refine ⟨rfl, fun hclean' => ⟨?_, hview b⟩⟩
    obtain hb | ⟨j, hj, rfl⟩ := hb
    · exact (h.area b hb).1
    · intro k hk
      by_cases hki : k = i
      · rw [hki]
        intro heq
        rw [heq] at hlogged
        exact hlogged (Loggable.getD_mem (hj.trans_le h.upto))
      · exact hclean' k (by rw [Users.mark_changed_of_ne _ _ _ _ hki]; exact hk)

theorem brelse (h : Sound start y pos) (hrun : perform (.brelse p i) y = .ok (u, y')) :
    Stepped start y pos (.brelse p i) y' := by
  simp only [perform, bind_ok, require_ok, gets_ok, id, note, update_ok, lift_ok] at hrun
  obtain ⟨_, _, ⟨hguard, rfl⟩, _, y, ⟨rfl, rfl⟩, _, _, rfl, s, hrel, rfl⟩ := hrun
  dsimp only at hrel ⊢
  simp only [Bool.and_eq_true, Bool.not_eq_true'] at hguard
  obtain ⟨hl, -⟩ := brelse_ok hrel
  obtain ⟨hc, hq⟩ := h.cache.brelse hguard.2 hrel
  have hkeys := brelse_keys _ _ _ _ _ hrel
  -- The holder has not changed the block since it was written.
  have hclean : y.Clean (y.fs.buf i).blockno := by
    intro j hj heq
    have hlj := h.cache.changed j hj
    obtain ⟨q, hq⟩ := Option.ne_none_iff_exists'.mp hlj
    have hji := h.cache.unique j i _ (heq ▸ h.cache.held hq) (h.cache.held hl)
    rw [hji, hguard.2] at hj
    cases hj
  have hsame : ∀ {b : Nat} {last : Nat → Data}, Sys.Clean { y with fs := s, last } b ↔ y.Clean b :=
    clean_iff rfl fun j _ => (hkeys j).2
  refine ⟨pos, h.keep (by rw [hq.log]) (by rw [hq.log]) (by rw [hq.log]) (h.place.congr rfl fun _ _ => Iff.rfl) hc ?_ ?_,
    .quiet _ hq.disk (by rw [hq.log]) rfl, fun _ j b _ hj => hkeys.holds.mpr hj⟩
  · intro b _ hb
    exact hsame.mpr hb
  · intro b hb
    refine ⟨?_, fun hc' => ⟨hsame.mp hc', hq.view b⟩⟩
    dsimp only
    by_cases hbi : b = (y.fs.buf i).blockno
    · rw [hbi, Function.update_self]
      obtain hb | ⟨j, hj, hbj⟩ := hb
      · rw [← hbi]
        exact (h.area b hb).2
      · rw [← hbi, hbj]
        exact (h.copied j hj).2 (by rw [← hbj, hbi]; exact hclean)
    · rw [Function.update_of_ne hbi]

/-! ## Operations -/

theorem shift {pos' : Pos} (h : Sound start y pos) (f : Log → Log) (hfs : y'.fs = y.fs.setLog f)
    (hlh : (f y.fs.log).lh = y.fs.log.lh) (hdev : (f y.fs.log).dev = y.fs.log.dev)
    (hstart : (f y.fs.log).start = y.fs.log.start) (husers : y'.users = y.users) (hlast : y'.last = y.last)
    (hdurable : y'.durable = y.durable) (hplace : Place y' pos')
    (hpins : pos'.pins y.fs.log.lh = pos.pins y.fs.log.lh)
    (hcopied : pos'.copied y.fs.log.lh.length ≤ pos.copied y.fs.log.lh.length)
    (hemptied : pos'.emptied = true → y.fs.log.lh = []) (hspan : pos'.span = pos.span) :
    Stepped start y pos a y' := by
  have hclean : ∀ b, y'.Clean b ↔ y.Clean b := by
    intro b
    unfold Sys.Clean
    rw [husers, hfs]
    exact Iff.rfl
  have hcache := h.cache.setLog f
  refine ⟨pos', ⟨?_, hplace, ?_, ?_, h.fits, ?_, by rw [hlast]; exact h.header, ?_, ?_, ?_, ?_⟩, ?_, ?_⟩
  · rw [hfs, setLog_log, hlh, husers, hlast, hpins]
    exact hcache
  · rw [hfs, setLog_log, hdev, h.dev]
  · rw [hfs, setLog_log, hstart, h.start_eq]
  · rw [hfs, setLog_log, hlh]
    exact h.lh
  · intro b hb
    rw [hclean, hfs, hlast]
    exact h.area b hb
  · intro j hj
    rw [hfs, setLog_log, hlh] at hj
    rw [hclean, hlast, hfs, setLog_log, hlh]
    exact h.copied j (hj.trans_le hcopied)
  · rw [hfs, setLog_log, hlh]
    exact hcopied.trans h.upto
  · rw [hfs, setLog_log, hlh]
    exact hemptied
  · rw [hspan]
    exact .quiet _ (by rw [hfs]; rfl) (by rw [hfs, setLog_log, hlh]) hdurable
  · intro _ i b _ hi
    rw [hfs]
    exact hi

theorem begin_op (h : Sound start y pos) (hrun : perform (.begin_op p) y = .ok (u, y')) :
    Stepped start y pos (.begin_op p) y' := by
  simp only [perform, bind_ok, require_ok, lift_ok] at hrun
  obtain ⟨_, y, ⟨hguard, rfl⟩, r, t, ⟨s, hround, rfl⟩, hrun⟩ := hrun
  simp only [Bool.and_eq_true, Option.isNone_iff_eq_none, beq_iff_eq] at hguard
  obtain ⟨rfl, rfl⟩ | ⟨rfl, -, -, rfl⟩ := begin_op_round_ok hround
  · simp only [Bool.false_eq_true, if_false, pure_ok, true_and] at hrun
    rw [hrun]
    exact ⟨pos, h, .quiet _ rfl rfl rfl, fun _ _ _ _ hj => hj⟩
  · simp only [if_true, update_ok] at hrun
    rw [hrun]
    refine h.shift (fun log => { log with outstanding := log.outstanding + 1 }) rfl rfl rfl rfl rfl rfl rfl
      (h.place.move rfl rfl ?_ (by simp)) rfl le_rfl h.emptied rfl
    intro st
    rw [hguard.2]
    simp

theorem end_op (h : Sound start y pos) (ht : y.proto.Turns) (hrun : perform (.end_op p) y = .ok (u, y')) :
    Stepped start y pos (.end_op p) y' := by
  simp only [perform, bind_ok, gets_ok, id] at hrun
  obtain ⟨_, y, ⟨rfl, rfl⟩, hrun⟩ := hrun
  cases hp : y.phase p with
  | outside => simp [hp, require_ok] at hrun
  | committing st => simp [hp, require_ok] at hrun
  | inOp op =>
    simp only [hp, bind_ok, lift_ok, setPhase, update_ok] at hrun
    obtain ⟨r, _, ⟨s, hfirst, rfl⟩, rfl⟩ := hrun
    have hboot : y.boot = none := ht.boot_none (p := p) fun hout => absurd (hp.symm.trans hout) (by simp)
    obtain rfl := h.place.eq_idle ht hp
    obtain ⟨-, ⟨rfl, -, rfl⟩ | ⟨rfl, -, rfl⟩⟩ := end_op_first_ok hfirst
    · have hplace : Place { y with phase := Function.update y.phase p (.committing .enter) } (.stage p .enter) :=
        ⟨hboot, Function.update_self ..⟩
      exact h.shift (fun log => { log with outstanding := log.outstanding - 1, committing := true })
        rfl rfl rfl rfl rfl rfl rfl (hplace.congr rfl fun _ _ => Iff.rfl) rfl le_rfl (by rintro ⟨⟩) rfl
    · refine h.shift (fun log => { log with outstanding := log.outstanding - 1 }) rfl rfl rfl rfl rfl rfl rfl
        (h.place.move rfl rfl ?_ (by simp)) rfl le_rfl h.emptied rfl
      intro st
      rw [hp]
      simp

theorem log_write (h : Sound start y pos) (ht : y.proto.Turns) (hhome : Home start (y.fs.buf i).blockno)
    (hrun : perform (.log_write p i) y = .ok (u, y')) : Stepped start y pos (.log_write p i) y' := by
  simp only [perform, bind_ok, require_ok, gets_ok, id] at hrun
  obtain ⟨_, _, ⟨hguard, rfl⟩, _, y, ⟨rfl, rfl⟩, hrun⟩ := hrun
  simp only [Sys.holds, Bool.and_eq_true, beq_iff_eq] at hguard
  have hl := hguard.2
  cases hp : y.phase p with
  | outside => simp [hp, require_ok] at hrun
  | committing st => simp [hp, require_ok] at hrun
  | inOp op =>
    simp only [hp, bind_ok, lift_ok, setChanged, update_ok] at hrun
    obtain ⟨_, _, ⟨s, hlog, rfl⟩, _, _, rfl, rfl⟩ := hrun
    dsimp only
    obtain rfl := h.place.eq_idle ht hp
    obtain ⟨hn, -, hcase⟩ := log_write_ok hlog
    have hclean : ∀ {b : Nat} {z : Store} {l : List (Nat × Nat)}, SameKeys y.fs z → y.Clean b →
        Sys.Clean { y with fs := z, users := y.users.mark i false, logged := l } b := by
      intro b z l hkeys hb j hj
      rw [(hkeys j).2]
      by_cases hji : j = i
      · rw [hji, Users.mark_changed] at hj
        cases hj
      · rw [Users.mark_changed_of_ne _ _ _ _ hji] at hj
        exact hb j hj
    obtain ⟨hb, rfl⟩ | ⟨hb, rfl⟩ := hcase
    · refine ⟨.idle, ?_, .quiet _ rfl rfl rfl, fun _ _ _ _ hj => hj⟩
      refine h.keep rfl rfl rfl (h.place.congr rfl fun _ _ => Iff.rfl) (h.cache.logged hl hb)
        (fun b _ hc => hclean (refl_of SameKeys _) hc) fun b hb => ?_
      obtain hb | ⟨j, hj, -⟩ := hb
      · exact ⟨rfl, fun _ => ⟨(h.area b hb).1, rfl⟩⟩
      · cases hj
    · have hkeys : SameKeys y.fs ((y.fs.setBuf i fun b => { b with refcnt := b.refcnt + 1 }).setLog
          fun log => { log with lh := log.lh ++ [(y.fs.buf i).blockno] }) :=
        SameKeys.setBuf (s := y.fs) (f := fun b => { b with refcnt := b.refcnt + 1 }) ⟨rfl, rfl⟩
      have hview : ∀ b, (y.fs.setBuf i fun b => { b with refcnt := b.refcnt + 1 }).view b = y.fs.view b :=
        fun b => h.cache.view_setBuf rfl rfl rfl rfl
      have hpin := (h.cache.log_pin hl hb).setLog fun log => { log with lh := log.lh ++ [(y.fs.buf i).blockno] }
      refine ⟨.idle, ⟨?_, h.place.congr rfl fun _ _ => Iff.rfl, h.dev, h.start_eq, h.fits, ?_, h.header, ?_,
        (by intros; contradiction),
        Nat.zero_le _, (by rintro ⟨⟩)⟩, .logged p i rfl rfl rfl rfl, fun _ j b _ hj => hkeys.holds.mpr hj⟩
      · exact hpin.logged (by rw [setLog_buf, setBuf_buf]; exact hl) (by simp)
      · refine ⟨?_, ?_, ?_, ?_⟩
        · refine List.nodup_append.mpr ⟨h.lh.nodup, by simp, fun x hx z hz => ?_⟩
          rw [List.mem_singleton.mp hz]
          rintro rfl
          exact hb hx
        · simp only [setLog_log, setBuf_log, List.length_append, List.length_singleton]
          omega
        · intro x hx
          simp only [setLog_log, setBuf_log, List.mem_append, List.mem_singleton] at hx
          obtain hx | rfl := hx
          · exact h.lh.home x hx
          · exact hhome
        · intro x hx
          simp only [setLog_log, setBuf_log, List.mem_append, List.mem_singleton] at hx
          obtain hx | rfl := hx
          · exact h.lh.small x hx
          · exact h.cache.small i
      · intro b hb
        obtain ⟨hc, hv⟩ := h.area b hb
        exact ⟨hclean hkeys hc, (hview b).trans hv⟩

/-! ## Commit -/

theorem clean_leaves {P : List Nat} {w : Users} (h : Sound start y pos) (hleaves : Leaves w P y.fs y'.fs) (husers : y'.users = y.users) :
    y'.Clean b ↔ y.Clean b := by
  refine clean_iff (by rw [husers]) fun i hi => ?_
  rw [hleaves.held i (h.cache.changed i hi)]

theorem put {P : List Nat} {w : Users} {a : Nat} (h : Sound start y pos) (ha : ¬ Home start a) (hputs : Puts a d y.fs y'.fs)
    (hleaves : Leaves w P y.fs y'.fs) (husers : y'.users = y.users) (hlast : y'.last = Function.update y.last a d) :
    (∀ b, ¬ Home start b → y'.Clean b ∧ y'.fs.view b = y'.last b) ∧
    ∀ b, Home start b → y'.last b = y.last b ∧
      ((y.Clean b → y.fs.view b = y.last b) → y'.Clean b → y'.fs.view b = y'.last b) := by
  constructor
  · intro b hb
    rw [h.clean_leaves hleaves husers, hputs.view, hlast, Function.update_apply]
    refine ⟨(h.area b hb).1, ?_⟩
    rw [(h.area b hb).2]
  · intro b hb
    have hne : b ≠ a := by
      rintro rfl
      exact ha hb
    rw [h.clean_leaves hleaves husers, hputs.view, if_neg hne, hlast, Function.update_of_ne hne]
    exact ⟨rfl, id⟩

theorem write_log (h : Sound start y (.stage p (.write_log tail))) (ht : tail < y.fs.log.lh.length)
    (hrun : write_log_body p tail y.fs = .ok (u, s)) (hfs : y'.fs = s) (husers : y'.users = y.users)
    (hlast : y'.last = Function.update y.last (y.fs.log.start + tail + 1) (s.view (y.fs.log.start + tail + 1)))
    (hdurable : y'.durable = y.durable) (hplace : Place y' (.stage p (.write_log (tail + 1)))) :
    Stepped start y (.stage p (.write_log tail)) a y' := by
  have hlen := h.lh.length
  have hfits := h.fits
  have hmem := Loggable.getD_mem ht
  have hne : start + tail + 1 ≠ y.fs.log.lh.getD tail 0 := h.lh.ne hmem (tail + 1) (by omega)
  have ha := h.log_block ht
  have hstart := h.start_eq
  obtain ⟨hc, hputs, hview, hleaves⟩ := h.cache.write_log_body h.dev rfl (by omega) (h.lh.small _ hmem) rfl
    (by rw [hstart]; exact hne) hrun
  rw [hputs.view, if_pos rfl] at hlast
  rw [← hlast] at hc
  subst hfs
  rw [hstart] at hputs hlast
  obtain ⟨harea, hhome⟩ := h.put ha hputs hleaves husers hlast
  have hlog : y'.fs.log.lh = y.fs.log.lh := by rw [hputs.log]
  refine ⟨_, ⟨?_, hplace, ?_, ?_, h.fits, ?_, ?_, harea, ?_, ?_, (by rintro ⟨⟩)⟩, .slot tail _ ht hputs.disk hlog
    hdurable,
    fun _ => hleaves.stays⟩
  · rw [hlog, husers]
    exact hc
  · rw [hputs.log, h.dev]
  · rw [hputs.log, hstart]
  · rw [hlog]
    exact h.lh
  · rw [hlast, Function.update_of_ne (by omega)]
    exact h.header
  · intro j hj
    rw [hlog]
    replace hj : j < tail + 1 := hj
    obtain ⟨hl, hkept⟩ := hhome _ (h.lh.home _ (Loggable.getD_mem (hj.trans_le ht)))
    by_cases hjt : j = tail
    · subst hjt
      exact ⟨by rw [hl, hlast, Function.update_self], hkept fun _ => hview⟩
    · have hlt : j < tail := by omega
      obtain ⟨hcopy, hold⟩ := h.copied j hlt
      exact ⟨by rw [hl, hlast, Function.update_of_ne (by omega), hcopy], hkept hold⟩
  · rw [hlog]
    exact ht

theorem write_head (h : Sound start y (.stage p .write_head))
    (hrun : Fs.write_head p y.fs = .ok (u, s)) (hfs : y'.fs = s) (husers : y'.users = y.users)
    (hlast : y'.last = Function.update y.last y.fs.log.start (s.view y.fs.log.start))
    (hdurable : y'.durable = y.durable ++ [y.fs.log.lh.map fun b => (b, y.last b)])
    (hplace : Place y' (.stage p (.install 0))) : Stepped start y (.stage p .write_head) a y' := by
  have hfits := h.fits
  have hstart := h.start_eq
  obtain ⟨hc, hputs, hleaves⟩ := h.cache.write_head h.dev (by omega) hrun
  rw [hputs.view, if_pos rfl] at hlast
  rw [← hlast] at hc
  subst hfs
  rw [hstart] at hputs hlast
  obtain ⟨harea, hhome⟩ := h.put h.header_block hputs hleaves husers hlast
  have hlog : y'.fs.log.lh = y.fs.log.lh := by rw [hputs.log]
  refine ⟨_, ⟨?_, hplace, ?_, ?_, h.fits, ?_, ?_, harea, ?_, ?_, (by rintro ⟨⟩)⟩, .head _ ?_ hputs.disk hlog hdurable,
    fun _ => hleaves.stays⟩
  · rw [hlog, husers]
    exact hc
  · rw [hputs.log, h.dev]
  · rw [hputs.log, hstart]
  · rw [hlog]
    exact h.lh
  · rw [hlast, Function.update_self, header_blocks_fill h.lh.length h.lh.small]
    exact h.lh
  · intro j hj
    rw [hlog] at hj ⊢
    obtain ⟨hcopy, hold⟩ := h.copied j hj
    obtain ⟨hl, hkept⟩ := hhome _ (h.lh.home _ (Loggable.getD_mem hj))
    exact ⟨by rw [hl, hlast, Function.update_of_ne (by omega), hcopy], hkept hold⟩
  · rw [hlog]
    exact le_rfl
  · intro j hj
    rw [h.disk_area (h.log_block hj)]
    exact (h.copied j hj).1

theorem install (h : Sound start y (.stage p (.install tail))) (ht : tail < y.fs.log.lh.length)
    (hrun : install_trans_body p false tail y.fs = .ok (u, s)) (hfs : y'.fs = s) (husers : y'.users = y.users)
    (hlast : y'.last = y.last) (hdurable : y'.durable = y.durable)
    (hplace : Place y' (.stage p (.install (tail + 1)))) : Stepped start y (.stage p (.install tail)) a y' := by
  have hlen := h.lh.length
  have hfits := h.fits
  have hstart := h.start_eq
  have hmem := Loggable.getD_mem ht
  have hdrop : y.fs.log.lh.drop tail = y.fs.log.lh.getD tail 0 :: y.fs.log.lh.drop (tail + 1) := by
    rw [List.drop_eq_getElem_cons ht, List.getD_eq_getElem?_getD, List.getElem?_eq_getElem ht, Option.getD_some]
  have hfresh : y.fs.log.lh.getD tail 0 ∉ y.fs.log.lh.drop (tail + 1) := by
    have hnd := h.lh.nodup.sublist (List.drop_sublist tail _)
    rw [hdrop] at hnd
    exact (List.nodup_cons.mp hnd).1
  have hcache : Coherent y.fs y.users (y.fs.log.lh.getD tail 0 :: y.fs.log.lh.drop (tail + 1)) y.last := by
    rw [← hdrop]
    exact h.cache
  have hcopy := (h.copied tail ht).1
  obtain ⟨hc, hview, hdisk, hlog, hleaves⟩ := hcache.install_trans_body h.dev hfresh rfl (by omega) (h.lh.small _ hmem) rfl
    (by rw [hstart]; exact hcopy) hrun
  subst hfs
  have hlh : y'.fs.log.lh = y.fs.log.lh := by rw [hlog]
  have hclean : ∀ b, y'.Clean b ↔ y.Clean b := fun b => h.clean_leaves hleaves husers
  refine ⟨_, ⟨?_, hplace, ?_, ?_, h.fits, ?_, by rw [hlast]; exact h.header, ?_, ?_, ?_, (by rintro ⟨⟩)⟩,
    .home tail ht ?_ hlh hdurable, ?_⟩
  · rw [hlh, husers, hlast]
    exact hc
  · rw [hlog, h.dev]
  · rw [hlog, hstart]
  · rw [hlh]
    exact h.lh
  · intro b hb
    rw [hclean, hview, hlast]
    exact h.area b hb
  · intro j hj
    rw [hlh] at hj ⊢
    rw [hclean, hview, hlast]
    exact h.copied j hj
  · rw [hlh]
    exact le_rfl
  · intro b
    rw [hdisk, h.disk_area (h.log_block ht), hcopy]
  · intro _ i b hb hi
    exact hleaves.stays i b (by rw [← hdrop]; exact hb) hi

theorem forget {pos' : Pos} (h : Sound start y pos) (ht : y.fs.log.lh.length ≤ tail) (hspan : pos.span = .installing tail)
    (hpins : pos.pins y.fs.log.lh = []) (hfs : y'.fs = y.fs.setLog fun log => { log with lh := [] })
    (husers : y'.users = y.users) (hlast : y'.last = y.last) (hdurable : y'.durable = y.durable) (hplace : Place y' pos')
    (hspan' : pos'.span = .installed) (hpins' : pos'.pins [] = []) (hcopied : pos'.copied 0 = 0) :
    Stepped start y pos a y' := by
  have hclean : ∀ b, y'.Clean b ↔ y.Clean b := by
    intro b
    unfold Sys.Clean
    rw [husers, hfs]
    exact Iff.rfl
  have hlh : y'.fs.log.lh = [] := by rw [hfs]; rfl
  refine ⟨pos', ⟨?_, hplace, by rw [hfs]; exact h.dev, by rw [hfs]; exact h.start_eq, h.fits, ?_,
    by rw [hlast]; exact h.header, ?_, ?_, ?_, fun _ => hlh⟩, ?_, ?_⟩
  · rw [hlh, hpins', husers, hlast, ← hpins, hfs]
    exact h.cache.setLog _
  · rw [hlh]
    exact ⟨List.nodup_nil, Nat.zero_le _, (by simp), (by simp)⟩
  · intro b hb
    rw [hclean, hfs, hlast]
    exact h.area b hb
  · intro j hj
    rw [hlh, List.length_nil, hcopied] at hj
    cases hj
  · rw [hlh, List.length_nil, hcopied]
  · rw [hspan, hspan']
    exact .forget tail ht (by rw [hfs]; rfl) hlh hdurable
  · intro _ i b _ hi
    rw [hfs]
    exact hi

theorem clear {pos' : Pos} (h : Sound start y pos) (hempty : y.fs.log.lh = []) (hspan : pos.span = .installed)
    (hrun : Fs.write_head p y.fs = .ok (u, s)) (hfs : y'.fs = s) (husers : y'.users = y.users)
    (hlast : y'.last = Function.update y.last y.fs.log.start (s.view y.fs.log.start)) (hdurable : y'.durable = y.durable)
    (hplace : Place y' pos') (hspan' : pos'.span = .empty) (hpins : pos.pins [] = []) (hpins' : pos'.pins [] = [])
    (hcopied : pos'.copied 0 = 0) : Stepped start y pos a y' := by
  have hfits := h.fits
  have hstart := h.start_eq
  obtain ⟨hc, hputs, hleaves⟩ := h.cache.write_head h.dev (by omega) hrun
  rw [hputs.view, if_pos rfl] at hlast
  rw [← hlast] at hc
  subst hfs
  rw [hstart] at hputs hlast
  obtain ⟨harea, hhome⟩ := h.put h.header_block hputs hleaves husers hlast
  have hlog : y'.fs.log.lh = [] := by rw [hputs.log, hempty]
  rw [hempty] at hputs hlast hc
  refine ⟨pos', ⟨?_, hplace, ?_, ?_, h.fits, ?_, ?_, harea, ?_, ?_, fun _ => hlog⟩, ?_, fun _ => hleaves.stays⟩
  · rw [hlog, husers, hpins', ← hpins]
    exact hc
  · rw [hputs.log, h.dev]
  · rw [hputs.log, hstart]
  · rw [hlog]
    exact ⟨List.nodup_nil, Nat.zero_le _, (by simp), (by simp)⟩
  · rw [hlast, Function.update_self, header_blocks_fill (by decide) (by simp)]
    exact ⟨List.nodup_nil, Nat.zero_le _, (by simp), (by simp)⟩
  · intro j hj
    rw [hlog, List.length_nil, hcopied] at hj
    cases hj
  · rw [hlog, List.length_nil, hcopied]
  · rw [hspan, hspan']
    exact .clear _ hputs.disk (by rw [hlog, hempty]) hdurable

theorem commit (h : Sound start y pos) (ht : y.proto.Turns) (hrun : perform (.commit p) y = .ok (u, y')) :
    Stepped start y pos (.commit p) y' := by
  simp only [perform, bind_ok, gets_ok, id] at hrun
  obtain ⟨_, y, ⟨rfl, rfl⟩, hrun⟩ := hrun
  cases hp : y.phase p with
  | outside => simp [hp, require_ok] at hrun
  | inOp op => simp [hp, require_ok] at hrun
  | committing st =>
    simp only [hp] at hrun
    have hboot : y.boot = none := ht.boot_none (p := p) fun hout => absurd (hp.symm.trans hout) (by simp)
    obtain rfl := h.place.eq_stage ht hp
    have hnext : ∀ {z : Sys} {st' : Stage}, z.boot = none → z.phase = Function.update y.phase p (.committing st') →
        Place z (.stage p st') := by
      intro z st' hz hphase
      exact ⟨hz, by rw [hphase, Function.update_self]⟩
    cases st with
    | enter =>
      simp only [commit_step, bind_ok, gets_ok, id, setPhase] at hrun
      obtain ⟨_, t, ⟨rfl, rfl⟩, hrun⟩ := hrun
      split at hrun
      · rw [update_ok] at hrun
        rw [hrun]
        exact h.shift id rfl rfl rfl rfl rfl rfl rfl (hnext hboot rfl) rfl le_rfl (by rintro ⟨⟩) rfl
      · rename_i hn
        rw [update_ok] at hrun
        rw [hrun]
        exact h.shift id rfl rfl rfl rfl rfl rfl rfl (hnext hboot rfl) rfl le_rfl
          (fun _ => List.length_eq_zero_iff.mp (by omega)) rfl
    | write_log tail =>
      simp only [commit_step, bind_ok, gets_ok, id, setPhase, note] at hrun
      obtain ⟨_, t, ⟨rfl, rfl⟩, hrun⟩ := hrun
      split at hrun
      · rename_i hlt
        simp only [bind_ok, lift_ok, update_ok] at hrun
        obtain ⟨_, _, ⟨s, hbody, rfl⟩, _, _, rfl, _, _, rfl, rfl⟩ := hrun
        exact h.write_log hlt hbody rfl rfl rfl rfl (hnext hboot rfl)
      · rename_i hge
        rw [update_ok] at hrun
        rw [hrun]
        exact h.shift id rfl rfl rfl rfl rfl rfl rfl (hnext hboot rfl) rfl (by simp only [Pos.copied]; omega)
          (by rintro ⟨⟩) rfl
    | write_head =>
      simp only [commit_step, bind_ok, gets_ok, id, setPhase, note, lift_ok, update_ok] at hrun
      obtain ⟨_, t, ⟨rfl, rfl⟩, _, _, ⟨s, hbody, rfl⟩, _, _, rfl, _, _, rfl, rfl⟩ := hrun
      exact h.write_head hbody rfl rfl rfl rfl (hnext hboot rfl)
    | install tail =>
      simp only [commit_step, bind_ok, gets_ok, id, setPhase] at hrun
      obtain ⟨_, t, ⟨rfl, rfl⟩, hrun⟩ := hrun
      split at hrun
      · rename_i hlt
        simp only [bind_ok, lift_ok, update_ok] at hrun
        obtain ⟨_, _, ⟨s, hbody, rfl⟩, rfl⟩ := hrun
        exact h.install hlt hbody rfl rfl rfl rfl (hnext hboot rfl)
      · rename_i hge
        simp only [bind_ok, lift_ok, clear_lh, setLog, update_ok] at hrun
        obtain ⟨_, _, ⟨s, rfl, rfl⟩, rfl⟩ := hrun
        refine h.forget (by omega) rfl ?_ rfl rfl rfl rfl (hnext hboot rfl) rfl rfl rfl
        exact List.drop_of_length_le (by omega)
    | clear =>
      simp only [commit_step, bind_ok, gets_ok, id, setPhase, note, lift_ok, update_ok] at hrun
      obtain ⟨_, t, ⟨rfl, rfl⟩, _, _, ⟨s, hbody, rfl⟩, _, _, rfl, rfl⟩ := hrun
      exact h.clear (h.emptied rfl) rfl hbody rfl rfl rfl rfl (hnext hboot rfl) rfl rfl rfl rfl
    | leave =>
      simp only [commit_step, bind_ok, setPhase, lift_ok, end_op_last, setLog, update_ok] at hrun
      obtain ⟨_, _, ⟨s, rfl, rfl⟩, _, _, rfl, rfl⟩ := hrun
      have hplace : Place { y with phase := Function.update y.phase p .outside } .idle := by
        refine ⟨hboot, fun r st hr => ?_⟩
        dsimp only at hr
        by_cases hrp : r = p
        · rw [hrp, Function.update_self] at hr
          cases hr
        · rw [Function.update_of_ne hrp] at hr
          exact absurd (hr.symm.trans ((ht.alone p _ hp).2 r hrp)) (by simp)
      exact h.shift (fun log => { log with committing := false }) rfl rfl rfl rfl rfl rfl rfl
        (hplace.congr rfl fun _ _ => Iff.rfl) rfl le_rfl (by rintro ⟨⟩) rfl

/-! ## Recovery -/

theorem read_head (h : Sound start y (.boot .read_head)) (hrun : Fs.read_head p y.fs = .ok (u, s)) (hfs : y'.fs = s)
    (husers : y'.users = y.users) (hlast : y'.last = y.last) (hdurable : y'.durable = y.durable)
    (hplace : Place y' (.boot (.install 0))) : Stepped start y (.boot .read_head) a y' := by
  have hfits := h.fits
  have hstart := h.start_eq
  obtain ⟨hc, hdisk, hview, hlog, hleaves⟩ := h.cache.read_head h.dev (by omega) hrun
  subst hfs
  rw [hstart] at hlog
  have hlh : y'.fs.log.lh = header_blocks (y.last start) := by rw [hlog]
  refine ⟨_, ⟨?_, hplace, ?_, ?_, h.fits, ?_, by rw [hlast]; exact h.header, ?_, (by intros; contradiction),
    Nat.zero_le _, (by rintro ⟨⟩)⟩,
    .read hdisk ?_ hdurable, fun _ => hleaves.stays⟩
  · rw [husers, hlast]
    exact hc
  · rw [hlog, h.dev]
  · rw [hlog, hstart]
  · rw [hlh]
    exact h.header
  · intro b hb
    rw [h.clean_leaves hleaves husers, hview, hlast]
    exact h.area b hb
  · rw [hlh, h.disk_area h.header_block]

theorem reinstall (h : Sound start y (.boot (.install tail))) (ht : tail < y.fs.log.lh.length)
    (hrun : install_trans_body p true tail y.fs = .ok (u, s)) (hfs : y'.fs = s) (husers : y'.users = y.users)
    (hlast : y'.last = Function.update y.last (y.fs.log.lh.getD tail 0) (s.view (y.fs.log.lh.getD tail 0)))
    (hdurable : y'.durable = y.durable) (hplace : Place y' (.boot (.install (tail + 1)))) :
    Stepped start y (.boot (.install tail)) a y' := by
  have hlen := h.lh.length
  have hfits := h.fits
  have hstart := h.start_eq
  have hmem := Loggable.getD_mem ht
  have hhome := h.lh.home _ hmem
  have hne : start + tail + 1 ≠ y.fs.log.lh.getD tail 0 := h.lh.ne hmem (tail + 1) (by omega)
  obtain ⟨hc, hputs, hleaves⟩ := h.cache.recover_body h.dev rfl (by omega) (h.lh.small _ hmem) rfl
    (by rw [hstart]; exact hne) hrun
  rw [hputs.view, if_pos rfl] at hlast
  rw [← hlast] at hc
  subst hfs
  rw [hstart] at hputs hlast
  have hlh : y'.fs.log.lh = y.fs.log.lh := by rw [hputs.log]
  have hout : ∀ b, ¬ Home start b → b ≠ y.fs.log.lh.getD tail 0 := by
    rintro b hb rfl
    exact hb hhome
  refine ⟨_, ⟨?_, hplace, ?_, ?_, h.fits, ?_, ?_, ?_, (by intros; contradiction), Nat.zero_le _, (by rintro ⟨⟩)⟩,
    .home tail ht ?_ hlh hdurable,
    fun _ => hleaves.stays⟩
  · rw [husers]
    exact hc
  · rw [hputs.log, h.dev]
  · rw [hputs.log, hstart]
  · rw [hlh]
    exact h.lh
  · rw [hlast, Function.update_of_ne (hout start h.header_block)]
    exact h.header
  · intro b hb
    rw [h.clean_leaves hleaves husers, hputs.view, if_neg (hout b hb), hlast, Function.update_of_ne (hout b hb)]
    exact h.area b hb
  · intro b
    rw [hputs.disk, h.disk_area (h.log_block ht)]

theorem recover (h : Sound start y pos) (ht : y.proto.Turns) (hrun : perform .recover y = .ok (u, y')) :
    Stepped start y pos .recover y' := by
  simp only [perform, bind_ok, gets_ok, id] at hrun
  obtain ⟨_, y, ⟨rfl, rfl⟩, hrun⟩ := hrun
  cases hb : y.boot with
  | none => simp [hb, require_ok] at hrun
  | some st =>
    simp only [hb] at hrun
    obtain rfl := h.place.eq_boot hb
    cases st with
    | read_head =>
      simp only [recover_step, bind_ok, lift_ok, setBoot, update_ok] at hrun
      obtain ⟨_, _, ⟨s, hread, rfl⟩, rfl⟩ := hrun
      exact h.read_head hread rfl rfl rfl rfl rfl
    | install tail =>
      simp only [recover_step, bind_ok, gets_ok, id, note, setBoot] at hrun
      obtain ⟨_, t, ⟨rfl, rfl⟩, hrun⟩ := hrun
      split at hrun
      · rename_i hlt
        simp only [bind_ok, lift_ok, update_ok] at hrun
        obtain ⟨_, _, ⟨s, hbody, rfl⟩, _, _, rfl, rfl⟩ := hrun
        exact h.reinstall hlt hbody rfl rfl rfl rfl rfl
      · rename_i hge
        simp only [bind_ok, lift_ok, clear_lh, setLog, update_ok] at hrun
        obtain ⟨_, _, ⟨s, rfl, rfl⟩, rfl⟩ := hrun
        exact h.forget (by omega) rfl rfl rfl rfl rfl rfl (show Place _ (.boot .clear) from rfl) rfl rfl rfl
    | clear =>
      simp only [recover_step, bind_ok, gets_ok, id, note, setBoot, lift_ok, update_ok] at hrun
      obtain ⟨_, y, ⟨rfl, rfl⟩, _, _, ⟨s, hbody, rfl⟩, _, _, rfl, rfl⟩ := hrun
      have hplace : Place { y with boot := none } .idle := by
        refine ⟨rfl, fun r st hr => ?_⟩
        have hout := ht.booting (fun hno => absurd (hb.symm.trans hno) (by simp)) r
        exact absurd (hr.symm.trans hout) (by simp)
      exact h.clear (h.emptied rfl) rfl hbody rfl rfl rfl rfl (hplace.congr rfl fun _ _ => Iff.rfl) rfl rfl rfl rfl

end Sound

theorem binit_coherent (disk : Nat → Data) (log : Log) : Coherent (binit disk log) {} [] disk := by
  have hno : ∀ i b, ¬ (binit disk log).Holds i b := fun i b h => absurd h.2.1 (show 0 ≠ ROOTDEV by decide)
  have hkey : Keyed (binit disk log) := by
    refine ⟨?_, fun i j b hi => absurd hi (hno i b)⟩
    intro i
    simp [binit]
  refine ⟨hkey, ?_, (by intros; contradiction), fun _ => Nat.two_pow_pos 32, (by simp), (by simp), fun _ _ => rfl,
    (by simp), (by intros; contradiction), (by simp), ?_, ?_⟩
  · intro i _
    simp [references, binit]
  · exact fun b _ _ => hkey.view_of_none (hno · b)
  · exact fun b _ => hkey.view_of_none (hno · b)

theorem bootSys_sound {disk : Nat → Data} (hfits : start + LOGBLOCKS < 2 ^ 32)
    (hheader : Loggable start (header_blocks (disk start))) : Sound start (bootSys disk start) (.boot .read_head) := by
  have hcache := binit_coherent disk { start, dev := ROOTDEV }
  refine ⟨hcache, rfl, rfl, rfl, hfits, ⟨List.nodup_nil, Nat.zero_le _, (by intros; contradiction),
    (by intros; contradiction)⟩, hheader, ?_, (by intros; contradiction), Nat.zero_le _,
    (by rintro ⟨⟩)⟩
  intro b _
  exact ⟨by simp [Sys.Clean, bootSys, binit], hcache.left b fun _ _ => rfl⟩

theorem perform_sound (h : Sound start y pos) (ht : y.proto.Turns) (hc : Careful start a y)
    (hrun : perform a y = .ok (u, y')) : Stepped start y pos a y' := by
  cases a with
  | begin_op p => exact h.begin_op hrun
  | log_write p i => exact h.log_write ht hc hrun
  | end_op p => exact h.end_op ht hrun
  | commit p => exact h.commit ht hrun
  | bget p b => exact h.bget hrun
  | lock p i => exact (h.lock hrun).1
  | change p i d => exact h.change hc hrun
  | bwrite p i => exact h.bwrite hc hrun
  | brelse p i => exact h.brelse hrun
  | bpin p i => exact h.bpin hrun
  | bunpin i => exact h.bunpin hrun
  | recover => exact h.recover ht hrun
  | crash =>
    rw [perform, update_ok] at hrun
    rw [hrun]
    have hheader : Loggable start (header_blocks (y.fs.disk start)) := by
      rw [h.disk_area h.header_block]
      exact h.header
    have hboot := bootSys_sound h.fits hheader
    refine ⟨.boot .read_head, ?_, .crash _ rfl rfl rfl, fun hne => absurd rfl hne⟩
    rw [h.start_eq]
    exact ⟨hboot.cache, rfl, rfl, rfl, h.fits, hboot.lh, hboot.header, hboot.area, (by intros; contradiction),
      Nat.zero_le _, (by rintro ⟨⟩)⟩

/-! ## Every run -/

variable {disk : Nat → Data}

theorem reach_sound (hfits : start + LOGBLOCKS < 2 ^ 32) (hheader : Loggable start (header_blocks (disk start)))
    (h : Path perform (Careful start) (bootSys disk start) y) : ∃ pos, Sound start y pos := by
  induction h with
  | refl => exact ⟨_, bootSys_sound hfits hheader⟩
  | step hpath hc hrun ih =>
    obtain ⟨pos, hs⟩ := ih
    obtain ⟨pos', hs', -⟩ := perform_sound hs (reach_turns hpath) hc hrun
    exact ⟨pos', hs'⟩

/-- The block is in the log, and has not been written home. -/
def Sys.Pending (y : Sys) (b : Nat) : Prop :=
  y.boot = none ∧ b ∈ y.fs.log.lh ∧
    ∀ p tail, y.phase p = .committing (.install tail) → b ∈ y.fs.log.lh.drop tail

theorem Sound.pending (h : Sound start y pos) (hb : y.Pending b) : b ∈ pos.pins y.fs.log.lh := by
  obtain ⟨hboot, hmem, hinstall⟩ := hb
  have hplace := h.place
  unfold Pos.pins
  split
  · exact absurd (hplace.symm.trans hboot) (by simp)
  · exact hinstall _ _ hplace.2
  · exact hmem

theorem Effect.disk_logged {x x' : Span} (h : Effect start y a y' x x') (hlh : Loggable start y.fs.log.lh)
    (hc : Careful start a y) (hb : b ∈ y.fs.log.lh) (hx : ∀ tail, x ≠ .installing tail) :
    y'.fs.disk b = y.fs.disk b := by
  have hlen := hlh.length
  have hhome := hlh.home b hb
  unfold Home at hhome
  cases h with
  | quiet _ hdisk | logged _ _ _ hdisk | read hdisk | crash _ hdisk => rw [hdisk]
  | direct _ p i ha hdisk =>
    subst ha
    rw [hdisk, if_neg]
    rintro rfl
    exact hc hb
  | slot tail d ht hdisk => rw [hdisk, if_neg (by omega)]
  | head d hslots hdisk => rw [hdisk, if_neg (by omega)]
  | home tail ht hdisk => exact absurd rfl (hx tail)
  | forget tail ht hdisk => rw [hdisk]
  | clear d hdisk => rw [hdisk, if_neg (by omega)]

/-- A `bread` finds what its last holder left in the block, in a buffer that stays with the block until the lock is taken. A
block in the log stays in the cache until it is written home, and is not written there before the header. -/
theorem cache_transparent (hfits : start + LOGBLOCKS < 2 ^ 32) (hheader : Loggable start (header_blocks (disk start)))
    (h : Path perform (Careful start) (bootSys disk start) y) :
    (∀ p b y', perform (.bget p b) y = .ok ((), y') →
      ∃ i, y'.users.waits = (p, i) :: y.users.waits ∧ y'.fs.Holds i b) ∧
    (∀ p i, (p, i) ∈ y.users.waits → ∀ a y', a ≠ .crash → Careful start a y → perform a y = .ok ((), y') →
      (y'.fs.buf i).blockno = (y.fs.buf i).blockno) ∧
    (∀ p i y', perform (.lock p i) y = .ok ((), y') → (y'.fs.buf i).data = y.last (y.fs.buf i).blockno) ∧
    (∀ b, y.Pending b → ∃ i, y.fs.Holds i b ∧ (y.fs.buf i).valid = true ∧
      ∀ a y', a ≠ .crash → Careful start a y → perform a y = .ok ((), y') → y'.fs.Holds i b) ∧
    (∀ b ∈ y.fs.log.lh, y.boot = none → (∀ p tail, y.phase p ≠ .committing (.install tail)) →
      ∀ a y', Careful start a y → perform a y = .ok ((), y') → y'.fs.disk b = y.fs.disk b) := by
  obtain ⟨pos, hs⟩ := reach_sound hfits hheader h
  have ht := reach_turns h
  refine ⟨?_, ?_, fun p i y' hrun => (hs.lock hrun).2, ?_, ?_⟩
  · intro p b y' hrun
    simp only [perform, bind_ok, require_ok, lift_ok, update_ok] at hrun
    obtain ⟨_, y, ⟨hguard, rfl⟩, i, _, ⟨s, hget, rfl⟩, rfl⟩ := hrun
    simp only [Bool.and_eq_true, decide_eq_true_eq] at hguard
    exact ⟨i, rfl, (hs.cache.bget_ref hguard.2 hget p).2.1⟩
  · intro p i hw a y' hne hc hrun
    obtain ⟨-, -, -, hstays⟩ := perform_sound hs ht hc hrun
    exact (hstays hne i _ (.inr (.inl (List.mem_map.mpr ⟨_, hw, rfl⟩))) (hs.cache.waiting hw)).2.2
  · intro b hb
    have hpin := hs.pending hb
    obtain ⟨i, hi, hv⟩ := hs.cache.cached b hpin
    refine ⟨i, hi, hv, fun a y' hne hc hrun => ?_⟩
    obtain ⟨-, -, -, hstays⟩ := perform_sound hs ht hc hrun
    exact hstays hne i b (.inl hpin) hi
  · intro b hb hboot hphase a y' hc hrun
    obtain ⟨pos', -, heffect, -⟩ := perform_sound hs ht hc hrun
    refine heffect.disk_logged hs.lh hc hb ?_
    intro tail hspan
    have hplace := hs.place
    unfold Pos.span at hspan
    split at hspan
    · cases hspan
    · exact absurd (hplace.symm.trans hboot) (by simp)
    · cases hspan
    · exact absurd hplace.2 (hphase _ _)
    · cases hspan
    · cases hspan

end sound

def logged50 : List Action :=
  List.replicate 3 .recover ++ [.begin_op 1, .bget 1 50, .lock 1 1, .change 1 1 (fun _ => 7), .log_write 1 1]

theorem header_blocks_zero : Loggable 2 (header_blocks fun _ => 0) := by
  have hnil : header_blocks (fun _ => 0) = [] := by decide +kernel
  rw [hnil]
  exact ⟨List.nodup_nil, Nat.zero_le _, (by simp), (by simp)⟩

theorem cache_transparent_logged : ∃ y, Path perform (Careful 2) (bootSys (fun _ _ => 0) 2) y ∧ y.Pending 50 ∧
    ∃ i, y.fs.Holds i 50 ∧ (y.fs.buf i).valid = true := by
  obtain ⟨y, hpath, hy⟩ := Path.exists_of_follow perform (C := Careful 2) logged50 (bootSys (fun _ _ => 0) 2)
    (fun y => y.boot.isNone && decide (50 ∈ y.fs.log.lh) && decide (y.phase 1 = .inOp 0)) (by decide +kernel)
  simp only [Bool.and_eq_true, decide_eq_true_eq, Option.isNone_iff_eq_none] at hy
  obtain ⟨⟨hboot, hmem⟩, hp⟩ := hy
  have hpending : y.Pending 50 := ⟨hboot, hmem, fun r tail hr => absurd hp ((reach_turns hpath).not_inOp hr)⟩
  obtain ⟨i, hi, hv, -⟩ := (cache_transparent (by decide) (by exact header_blocks_zero) hpath).2.2.2.1 50 hpending
  exact ⟨y, hpath, hpending, i, hi, hv⟩

/-- Nothing stops a holder that writes a logged block home: the contents of an operation that has not
ended are then on disk. -/
theorem logged_block_written_home : ∃ y, Path perform (fun _ _ => True) (bootSys (fun _ _ => 0) 2) y ∧
    y.Pending 50 ∧ y.commits = [] ∧ y.durable = [] ∧ y.fs.disk 50 ≠ fun _ => 0 := by
  obtain ⟨y, hpath, hy⟩ := Path.exists_of_follow perform (C := fun _ _ => True) (logged50 ++ [.bwrite 1 1])
    (bootSys (fun _ _ => 0) 2)
    (fun y => y.boot.isNone && decide (50 ∈ y.fs.log.lh) && decide (y.phase 1 = .inOp 0) && y.commits.isEmpty &&
      y.durable.isEmpty && decide (y.fs.disk 50 ⟨0, by decide⟩ = 7)) (by decide +kernel)
  simp only [Bool.and_eq_true, decide_eq_true_eq, Option.isNone_iff_eq_none, List.isEmpty_iff] at hy
  obtain ⟨⟨⟨⟨⟨hboot, hmem⟩, hp⟩, hcommits⟩, hdurable⟩, hdisk⟩ := hy
  refine ⟨y, hpath, ⟨hboot, hmem, fun r tail hr => absurd hp ((reach_turns hpath).not_inOp hr)⟩, hcommits, hdurable, ?_⟩
  intro hzero
  rw [hzero] at hdisk
  exact absurd hdisk (by decide)

end Xv6.Fs
