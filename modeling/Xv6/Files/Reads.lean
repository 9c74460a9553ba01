import Xv6.Files.Offsets
import Xv6.Ipc.Console

/-!
# Reads from any file: `fileread`

The bytes come from a file on disk, from a pipe or from the console. While a call waits for input other processes run.
-/

open Xv6.Lib (Op Path toOption_eq_some)
open Xv6.Lib.Op

namespace Xv6.Reads

open Files (Super Ready Locked delivered readResult fileread_locked)
open Ipc (Byte Outcome)
open Console (Env chunk eof)

abbrev CONSOLE : Int := 1

abbrev World := Files.State × (Nat → Ipc.State) × Console.State

abbrev R (α : Type) := Op World α

inductive Reader where
  | inode (f : Nat)
  | pipe (pi : Nat)
  | console
  deriving DecidableEq

section model
variable [Super]

def part (n : Int) (env : Env) (i : Nat) : Reader → R (Outcome × List Byte)
  | .inode f => do
    let r ← Op.left (fileread_locked f n env.cap)
    pure (.returned r.1, r.2)
  | .pipe pi => do
    let had ← Op.gets fun w => (w.2.1 pi).delivered
    let o ← Op.right (Op.left (Op.entry pi
      (Ipc.piperead ⟨fun _ => env.killed, fun _ => none, fun k => k < env.cap⟩ n)))
    let has ← Op.gets fun w => (w.2.1 pi).delivered
    pure (o, has.drop had.length)
  | .console => do
    let had ← Op.gets fun w => w.2.2.delivered
    let o ← Op.right (Op.right (Console.consoleread env n i))
    let has ← Op.gets fun w => w.2.2.delivered
    pure (o, has.drop had.length)

def serve (others : Nat → World → World) (env : Nat → Env) (n : Int) (rd : Reader) :
    Nat → Nat → R (Option Int × List Byte)
  | 0, _ => pure (none, [])
  | k + 1, i => do
    let x ← part n (env k) i rd
    match x.1 with
    | .returned r => pure (some r, x.2)
    | .asleep j => do
      Op.update (others k)
      let y ← serve others env n rd k j
      pure (y.1, x.2 ++ y.2)

-- Only the console has a `devsw[f->major].read`.
def fileread (others : Nat → World → World) (env : Nat → Env) (f : Nat) (n : Int) (k : Nat) :
    R (Option Int × List Byte) := do
  let e ← Op.left (Op.gets fun s => s.ftable f)
  if e.readable = false then pure (some (-1), [])
  else
    match e.type with
    | .pipe => serve others env n (.pipe e.pipe) k 0
    | .device => if e.major = CONSOLE then serve others env n .console k 0 else pure (some (-1), [])
    | .inode => serve others env n (.inode f) k 0
    | .none => Op.stop "fileread"

end model

variable {w : World} {n : Int} {env : Env} {i k f : Nat} {rd : Reader} {E : String → Prop}

/-! ## How much is read -/

/-- A call that had delivered `i` bytes and may deliver `k` more delivers `bs` and comes to `o`. -/
structure Counted (k i : Nat) (o : Outcome) (bs : List Byte) : Prop where
  length : bs.length ≤ k
  result : ∀ r, o = .returned r → r ≤ i + bs.length
  rest : ∀ j, o = .asleep j → j = i + bs.length

namespace Counted

variable {o : Outcome} {b : Byte} {bs : List Byte}

theorem stop (h : o = .returned (-1) ∨ o = .returned (i : Nat) ∨ o = .asleep i) : Counted k i o [] := by
  refine ⟨Nat.zero_le k, fun r hr => ?_, fun j hj => ?_⟩
  · rcases h with rfl | rfl | rfl
    · cases hr
      simp only [List.length_nil]
      omega
    · cases hr
      exact Int.le_refl _
    · cases hr
  · rcases h with rfl | rfl | rfl
    · cases hj
    · cases hj
    · cases hj
      rfl

theorem cons (h : Counted k (i + 1) o bs) : Counted (k + 1) i o (b :: bs) := by
  refine ⟨Nat.succ_le_succ h.length, fun r hr => ?_, fun j hj => ?_⟩
  · have := h.result r hr
    simp only [List.length_cons]
    omega
  · have := h.rest j hj
    simp only [List.length_cons]
    omega

end Counted

theorem piperead_loop_ends {s : Ipc.State} {e : Ipc.Env} : Ends (Ipc.piperead_loop e k i) s (fun r t =>
    t.accepted = s.accepted ∧ ∃ bs, t.delivered = s.delivered ++ bs ∧ Counted k i (.returned r) bs) E := by
  induction k generalizing s i with
  | zero => exact ⟨rfl, [], (List.append_nil _).symm, .stop (.inr (.inl rfl))⟩
  | succ k ih =>
    unfold Ipc.piperead_loop
    rw [ends_bind, Ipc.pipe, ends_gets]
    refine ends_ite.mpr ⟨fun _ => ⟨rfl, [], (List.append_nil _).symm, .stop (.inr (.inl rfl))⟩, fun _ => ?_⟩
    refine ends_ite.mpr ⟨fun _ => ⟨rfl, [], (List.append_nil _).symm, .stop ?_⟩, fun _ => ?_⟩
    · split_ifs <;> simp
    · rw [ends_bind, Ipc.getc, ends_update]
      refine ih.mono ?_
      rintro r t ⟨hacc, bs, hdel, hc⟩
      exact ⟨hacc, _ :: bs, hdel.trans (List.append_assoc ..), hc.cons⟩

theorem piperead_ends {s : Ipc.State} {e : Ipc.Env} : Ends (Ipc.piperead e n) s (fun o t =>
    t.accepted = s.accepted ∧ ∃ bs, t.delivered = s.delivered ++ bs ∧ Counted n.toNat 0 o bs ∧
      ∀ j, o = .asleep j → j = 0) E := by
  unfold Ipc.piperead
  rw [ends_bind, Ipc.pipe, ends_gets]
  refine ends_ite.mpr ⟨fun _ => ends_ite.mpr ⟨fun _ => ?_, fun _ => ?_⟩, fun _ => ?_⟩
  · exact ⟨rfl, [], (List.append_nil _).symm, .stop (.inl rfl), (by simp)⟩
  · refine ⟨rfl, [], (List.append_nil _).symm, .stop (.inr (.inr rfl)), ?_⟩
    rintro _ ⟨⟩
    rfl
  · rw [ends_bind]
    refine piperead_loop_ends.mono ?_
    rintro r t ⟨hacc, bs, hdel, hc⟩
    exact ⟨hacc, bs, hdel, hc, (by simp)⟩

theorem consoleread_loop_counted {s : Console.State} : Ends (Console.consoleread_loop env k i) s (fun o t =>
    ∃ bs, t.delivered = s.delivered ++ bs ∧ Counted k i o bs) E := by
  induction k generalizing s i with
  | zero => exact ⟨[], (List.append_nil _).symm, .stop (.inr (.inl rfl))⟩
  | succ k ih =>
    simp only [Console.consoleread_loop, ends_bind, ends_gets, ends_ite, ends_pure, Console.getc,
      ends_update, ends_when, Console.ungetc, Console.deliver]
    have hstop : ∃ bs, s.delivered = s.delivered ++ bs ∧ Counted (k + 1) i (.returned i) bs :=
      ⟨[], (List.append_nil _).symm, .stop (.inr (.inl rfl))⟩
    refine ⟨fun _ => ⟨[], (List.append_nil _).symm, .stop ?_⟩, fun _ => ⟨fun _ => ⟨fun _ => hstop, fun _ => hstop⟩,
      fun _ => ⟨fun _ => ⟨fun _ => ?_, fun _ => ih.mono ?_⟩, fun _ => hstop⟩⟩⟩
    · split_ifs <;> simp
    · exact ⟨[_], rfl, (Counted.stop (.inr (.inl rfl))).cons⟩
    · rintro o t ⟨bs, hdel, hc⟩
      exact ⟨_ :: bs, hdel.trans (List.append_assoc ..), hc.cons⟩

section within
variable [Super] {others : Nat → World → World} {env : Nat → Env}

def Begun (n : Int) : Reader → Nat → Prop
  | .inode _, _ => False
  | .pipe _, i => i = 0
  | .console, i => i ≤ n.toNat

theorem part_ends {env : Env} (h : Begun n rd i) : Ends (part n env i rd) w (fun x _ => Counted (n.toNat - i) i x.1 x.2 ∧
    ∀ j, x.1 = .asleep j → Begun n rd j) E := by
  cases rd with
  | inode f => exact h.elim
  | pipe pi =>
    obtain rfl : i = 0 := h
    simp only [part, ends_bind, ends_gets, ends_right, ends_left, ends_entry, ends_pure,
      Function.update_self]
    refine piperead_ends.mono ?_
    rintro o t ⟨-, bs, hdel, hc, hj⟩
    rw [hdel, List.drop_left]
    exact ⟨hc, hj⟩
  | console =>
    simp only [part, ends_bind, ends_gets, ends_right, ends_pure, Console.consoleread]
    refine consoleread_loop_counted.mono ?_
    rintro o t ⟨bs, hdel, hc⟩
    rw [hdel, List.drop_left]
    have hle : (n - i).toNat = n.toNat - i := by omega
    rw [hle] at hc
    refine ⟨hc, fun j hj => ?_⟩
    have hlen := hc.length
    have := hc.rest j hj
    simp only [Begun] at h ⊢
    omega

theorem serve_ends (h : Begun n rd i) : Ends (serve others env n rd k i) w (fun x _ =>
    (∀ r, x.1 = some r → r ≤ n.toNat) ∧ i + x.2.length ≤ n.toNat) E := by
  have hi : i ≤ n.toNat := by
    cases rd with
    | inode f => exact h.elim
    | pipe pi => exact (Nat.le_of_eq h).trans (Nat.zero_le _)
    | console => exact h
  induction k generalizing w i with
  | zero => exact ⟨(by simp), hi⟩
  | succ k ih =>
    unfold serve
    rw [ends_bind]
    refine (part_ends h).mono ?_
    rintro ⟨o, bs⟩ t ⟨hc, hbegun⟩
    have hlen := hc.length
    dsimp only at hlen
    cases o with
    | returned r =>
      have := hc.result r rfl
      refine ⟨fun r' hr' => ?_, by dsimp only; omega⟩
      cases hr'
      dsimp only at this
      omega
    | asleep j =>
      obtain rfl : j = i + bs.length := hc.rest j rfl
      simp only [ends_bind, ends_update]
      refine (ih (hbegun _ rfl) (by omega)).mono ?_
      rintro ⟨r, rest⟩ u ⟨hr, hrest⟩
      refine ⟨hr, ?_⟩
      dsimp only at hrest ⊢
      rw [List.length_append]
      omega

/-- An open file. `f->off` is a `uint`. -/
structure Readable (f : Nat) (w : World) : Prop where
  readable : (w.1.ftable f).readable = true
  type : (w.1.ftable f).type ≠ .none
  ready : (w.1.ftable f).type = .inode → Ready f (w.1.ftable f).ip w.1
  off : (w.1.ftable f).off < 2 ^ 32

/-- A negative count is a large one for `readi`. It is not taken for an overflow if the offset is small enough. -/
def Overreads (f : Nat) (n : Int) (cap : Nat) (w : World) : Prop :=
  (w.1.ftable f).type = .inode ∧ n < 0 ∧ (w.1.ftable f).off < (w.1.node (w.1.ftable f).ip).size ∧
    (w.1.ftable f).off < -n ∧ 0 < cap

omit [Super] in
theorem delivered_within_iff (s : Files.State) (ip cap : Nat) {off : Nat} (hoff : off < 2 ^ 32) (hsize : (s.node ip).size < 2 ^ 31)
    (hn : -2 ^ 31 ≤ n ∧ n < 2 ^ 31) :
    ((delivered cap 0 (readResult s ip off (n % 2 ^ 32).toNat)).1 ≤ n.toNat ∧
      (delivered cap 0 (readResult s ip off (n % 2 ^ 32).toNat)).2.length ≤ n.toNat) ↔
      ¬ (n < 0 ∧ off < (s.node ip).size ∧ off < -n ∧ 0 < cap) := by
  have hres : (readResult s ip off (n % 2 ^ 32).toNat).length =
      if off > (s.node ip).size ∨ (off + (n % 2 ^ 32).toNat) % 2 ^ 32 < off then 0
      else if off + (n % 2 ^ 32).toNat > (s.node ip).size then (s.node ip).size - off else (n % 2 ^ 32).toNat := by
    unfold readResult
    split_ifs <;> simp [Files.slice_length]
  generalize readResult s ip off (n % 2 ^ 32).toNat = bs at hres ⊢
  have hdel : ((delivered cap 0 bs).1 ≤ n.toNat ∧ (delivered cap 0 bs).2.length ≤ n.toNat) ↔
      min bs.length cap ≤ n.toNat := by
    unfold delivered
    split_ifs with hcap
    · dsimp only
      omega
    · rw [List.length_take]
      omega
  rw [hdel, hres]
  split_ifs <;> omega

/-- A read of an open file stays within its request exactly if it is not an `Overreads`. -/
theorem read_within_iff (h : Readable f w) (hn : -2 ^ 31 ≤ n ∧ n < 2 ^ 31) :
    Ends (fileread others env f n (k + 1)) w (fun x _ => ((∀ r, x.1 = some r → r ≤ max n 0) ∧
      (x.2.length : Int) ≤ max n 0) ↔ ¬ Overreads f n (env k).cap w) fun _ => False := by
  have hmax : max n 0 = n.toNat := by omega
  unfold fileread
  rw [ends_bind, ends_left, ends_gets, ends_ite, hmax]
  refine ⟨fun hno => absurd h.readable (by simp [hno]), fun _ => ?_⟩
  have hserve : ∀ {rd : Reader}, (w.1.ftable f).type ≠ .inode → Begun n rd 0 → Ends (serve others env n rd (k + 1) 0) w
      (fun x _ => ((∀ r, x.1 = some r → r ≤ n.toNat) ∧ (x.2.length : Int) ≤ n.toNat) ↔ ¬ Overreads f n (env k).cap w)
      fun _ => False := by
    refine fun hty hb => (serve_ends hb).mono fun x t hx => iff_of_true ⟨hx.1, ?_⟩ fun hover => hty hover.1
    have := hx.2
    omega
  cases hty : (w.1.ftable f).type with
  | none => exact absurd hty h.type
  | pipe => exact hserve (by simp [hty]) rfl
  | device =>
    refine ends_ite.mpr ⟨fun _ => hserve (by simp [hty]) (Nat.zero_le _), fun _ => ?_⟩
    refine iff_of_true ⟨?_, by simp⟩ fun hover => by simp [hover.1] at hty
    rintro r ⟨⟩
    omega
  | inode =>
    have hready := h.ready hty
    simp only [serve, part, ends_bind, ends_left, ends_pure]
    refine (Files.fileread_locked_ends hready).mono ?_
    rintro r t ⟨u, hu, hr, -⟩
    have hsize := (hu.sane.full _ (by simp) (hready.locked hu).live).size
    have hiff := delivered_within_iff u (w.1.ftable f).ip (env k).cap h.off (by
      simp only [Files.MAXFILE, Files.NINDIRECT, Files.NDIRECT, BSIZE] at hsize
      omega) hn
    rw [← hr, hu.node] at hiff
    simp only [Overreads, hty, true_and, Option.some.injEq, forall_eq', Nat.cast_le]
    exact hiff

end within

def quiet (s : Files.State) : World := (s, fun _ => Ipc.fresh fun _ => 0, Console.start fun _ => 0)

theorem exists_readable : ∃ w, @Readable Files.smallDisk 0 w ∧
    (@fileread Files.smallDisk (fun _ w => w) (fun _ => ⟨false, 8⟩) 0 (-1) 1 w).toOption.map Prod.fst =
      some (some 2, [7, 8]) := by
  obtain ⟨s, hsane, hs⟩ := Files.exists_sane Files.twoBytes (fun s => decide ((0 < (s.itable 1).ref ∧
    (s.node 1).type ≠ .free) ∧ (s.ftable 0).off < 2 ^ 32 ∧ (@fileread Files.smallDisk (fun _ w => w)
      (fun _ => ⟨false, 8⟩) 0 (-1) 1 (quiet (Files.openFile s))).toOption.map Prod.fst = some (some 2, [7, 8])))
    (by decide +kernel)
  obtain ⟨⟨href, hty⟩, hoff, hrun⟩ := of_decide_eq_true hs
  let : Super := Files.smallDisk
  have hopen : Files.Sane none (Files.openFile s) := hsane.setFile
  exact ⟨quiet (Files.openFile s), ⟨rfl, (by rintro ⟨⟩), fun _ => ⟨hopen, rfl, rfl, href, hty⟩, hoff⟩, hrun⟩

theorem read_within_two : ∃ w, @Readable Files.smallDisk 0 w ∧
    Ends (@fileread Files.smallDisk (fun _ w => w) (fun _ => ⟨false, 8⟩) 0 5 1) w (fun x _ =>
      ((∀ r, x.1 = some r → r ≤ max 5 0) ∧ (x.2.length : Int) ≤ max 5 0) ↔ ¬ Overreads 0 5 8 w) fun _ => False := by
  obtain ⟨w, hw, -⟩ := exists_readable
  let : Super := Files.smallDisk
  exact ⟨w, hw, read_within_iff hw (by decide)⟩

theorem read_overruns : ∃ w x w', @Readable Files.smallDisk 0 w ∧
    @fileread Files.smallDisk (fun _ w => w) (fun _ => ⟨false, 8⟩) 0 (-1) 1 w = .ok (x, w') ∧
    ¬ ((∀ r, x.1 = some r → r ≤ max (-1) 0) ∧ (x.2.length : Int) ≤ max (-1) 0) := by
  obtain ⟨w, hw, hrun⟩ := exists_readable
  obtain ⟨⟨_, w'⟩, hok, rfl⟩ := Option.map_eq_some_iff.mp hrun
  exact ⟨w, _, w', hw, toOption_eq_some.mp hok, fun hbad => absurd hbad.2 (by decide)⟩

/-! ## What is used up -/

def stream : Reader → World → List Byte
  | .inode f, w =>
    w.1.slice (w.1.ftable f).ip (w.1.ftable f).off ((w.1.node (w.1.ftable f).ip).size - (w.1.ftable f).off)
  | .pipe pi, w => (w.2.1 pi).pipe.queued
  | .console, w => w.2.2.editor.input

def payload : Reader → List Byte → List Byte
  | .console, bs => bs.filter (· ≠ eof)
  | _, bs => bs

def Fit [Super] : Reader → World → Prop
  | .inode f, w => Ready f (w.1.ftable f).ip w.1 ∧ (w.1.ftable f).off < 2 ^ 32
  | .pipe pi, w => Ipc.Inv (w.2.1 pi)
  | .console, w => Console.Inv w.2.2

/-- The console takes a byte from its ring before it copies it. -/
def Drops (n : Int) (env : Env) (i : Nat) : Reader → World → Prop
  | .console, w => env.cap - i < (chunk (n - i).toNat w.2.2.editor.input).length
  | _, _ => False

theorem fileread_uses_stored [Super] {r : Int × List Byte} {u : Files.State} {cap : Nat} (h : Ready f (w.1.ftable f).ip w.1)
    (hoff : (w.1.ftable f).off < 2 ^ 32) (hu : Locked (w.1.ftable f).ip w.1 u)
    (hr : r = delivered cap 0 (readResult u (w.1.ftable f).ip (w.1.ftable f).off (n % 2 ^ 32).toNat)) :
    ∃ used, stream (.inode f) w = used ++ stream (.inode f) (u.advanced f r.1, w.2) ∧ used <+: r.2 := by
  have hu' := h.locked hu
  have hsize := (hu.sane.full _ (by simp) hu'.live).size
  obtain ⟨m, hm, hcount, hused⟩ : ∃ m, (m = 0 ∨ (w.1.ftable f).off + m ≤ (u.node (w.1.ftable f).ip).size) ∧
      r.1.toNat = m ∧ u.slice (w.1.ftable f).ip (w.1.ftable f).off m <+: r.2 := by
    obtain ⟨m, hres, hm⟩ := Files.readResult_slice u (w.1.ftable f).ip (w.1.ftable f).off (n % 2 ^ 32).toNat
    rw [hres, delivered, Files.slice_length, Nat.zero_add] at hr
    split_ifs at hr
    · exact ⟨m, hm, by rw [hr]; rfl, by rw [hr]⟩
    · exact ⟨0, .inl rfl, by rw [hr]; rfl, List.nil_prefix⟩
  refine ⟨_, ?_, hused⟩
  have hadv := Files.advanced_off (s := u) (f := f) (r := r.1) (by
    rw [hu.ftable, hcount]
    simp only [Files.MAXFILE, Files.NINDIRECT, Files.NDIRECT, BSIZE] at hsize
    omega)
  have hbytes : ∀ o k, (u.advanced f r.1).slice (w.1.ftable f).ip o k = w.1.slice (w.1.ftable f).ip o k := fun o k =>
    Files.slice_congr fun _ _ _ => Files.advanced_byteAt.trans hu.byteAt
  dsimp only [stream]
  rw [hu'.advanced.inum, hadv, Files.advanced_node, hu.node, hu.ftable, hcount, hbytes,
    Files.slice_congr fun _ _ _ => hu.byteAt, ← Files.slice_add]
  rw [hu.node] at hm
  congr 1
  omega

/-- What a call uses up of its input has reached the user, but for one byte of the console. -/
theorem uses_stored_iff [Super] (h : Fit rd w) : Ends (part n env i rd) w (fun x w' =>
    (∃ used, stream rd w = used ++ stream rd w' ∧ payload rd used <+: x.2) ↔ ¬ Drops n env i rd w) fun _ => False := by
  cases rd with
  | inode f =>
    simp only [part, ends_bind, ends_left, ends_pure]
    refine (Files.fileread_locked_ends h.1).mono ?_
    rintro r _ ⟨u, hu, hr, rfl⟩
    exact iff_of_true (fileread_uses_stored h.1 h.2 hu hr) (by simp [Drops])
  | pipe pi =>
    simp only [part, ends_bind, ends_gets, ends_right, ends_left, ends_entry, ends_pure,
      Function.update_self]
    refine (Ipc.Inv.piperead h |>.and piperead_ends).mono ?_
    rintro o t ⟨⟨ht, -⟩, hacc, bs, hdel, -⟩
    refine iff_of_true ⟨bs, ?_, ?_⟩ (by simp [Drops])
    · have h₁ := Ipc.Inv.accepted_eq h
      have h₂ := ht.accepted_eq
      rw [hacc, h₁, hdel, List.append_assoc, List.append_cancel_left_eq] at h₂
      simpa [stream] using h₂
    · rw [hdel, List.drop_left]
      exact List.prefix_refl _
  | console =>
    simp only [part, ends_bind, ends_gets, ends_right, ends_pure, Console.consoleread]
    refine (Console.consoleread_loop_ends h).mono ?_
    rintro o t ⟨ht, hlines, ⟨used, hread, hfilter⟩, hstored, -⟩
    have hinput : w.2.2.editor.input = used ++ t.editor.input := by
      have h₁ : w.2.2.editor.read ++ w.2.2.editor.input = w.2.2.editor.committed := List.take_append_drop ..
      have h₂ : t.editor.read ++ t.editor.input = t.editor.committed := List.take_append_drop ..
      rwa [hlines, ← h₁, hread, List.append_assoc, List.append_cancel_left_eq, eq_comm] at h₂
    dsimp only [stream, payload, Drops]
    rw [hstored, List.drop_left, hinput, not_lt]
    constructor
    · rintro ⟨used', hused, hpre⟩
      rw [← List.append_cancel_right hused, hfilter, hinput] at hpre
      have := hpre.length_le
      rw [List.length_take, List.length_take] at this
      omega
    · intro hle
      refine ⟨used, rfl, ?_⟩
      rw [hfilter, hinput, List.take_of_length_le (by omega), List.take_of_length_le hle]

theorem uses_stored_typed : ∃ w x w', @Fit Files.smallDisk .console w ∧
    @part Files.smallDisk 8 ⟨false, 4⟩ 0 .console w = .ok (x, w') ∧ stream .console w = [97, Console.newline] ∧
    x.2 = [97, Console.newline] ∧
    ∃ used, stream .console w = used ++ stream .console w' ∧ payload .console used <+: x.2 := by
  have htyped := ((Console.start_inv fun _ => 0).intr (c := 97)).intr (c := Console.newline)
  have hw : @Fit Files.smallDisk .console (Files.emptyDisk, (quiet Files.emptyDisk).2.1, _) := htyped
  have hends := @uses_stored_iff _ 8 ⟨false, 4⟩ 0 .console Files.smallDisk hw
  exact ⟨_, _, _, hw, rfl, by decide, by decide, (hends.of_ok rfl).mpr (Nat.not_lt.mpr (by decide))⟩

theorem console_drops_byte : ∃ w x w', @Fit Files.smallDisk .console w ∧
    @part Files.smallDisk 8 ⟨false, 0⟩ 0 .console w = .ok (x, w') ∧ x.2 = [] ∧ stream .console w = [97, Console.newline] ∧
    stream .console w' = [Console.newline] := by
  have htyped := ((Console.start_inv fun _ => 0).intr (c := 97)).intr (c := Console.newline)
  exact ⟨(Files.emptyDisk, (quiet Files.emptyDisk).2.1, _), _, _, htyped, rfl, by decide, by decide, by decide⟩

end Xv6.Reads
