import Mathlib.Data.List.Nodup

/-!
# A redo log

What a recovery would leave in the blocks does not change while the log is filled, while it is installed, and when the
header is taken back. It changes at once when the header is written.
-/

namespace Xv6.Lib.Redo

structure Disk (K D : Type) where
  home : K → D
  slot : Nat → D
  header : List K

variable {K D : Type} {d d' : Disk K D} {k : K} {n : Nat} {l : List K} {v f : K → D}

def Disk.Installed (d : Disk K D) (n : Nat) : Prop := ∀ i k, i < n → d.header[i]? = some k → d.home k = d.slot i

theorem Disk.Installed.congr (h : d.Installed n) (hheader : d'.header = d.header)
    (hslot : ∀ i < d.header.length, d'.slot i = d.slot i) (hhome : ∀ k ∈ d.header, d'.home k = d.home k) :
    d'.Installed n := by
  intro i k hi hk
  rw [hheader] at hk
  rw [hhome k (List.mem_of_getElem? hk), hslot i (List.getElem?_eq_some_iff.mp hk).1]
  exact h i k hi hk

theorem Disk.Installed.succ (h : d.Installed n) (hnodup : d.header.Nodup) (hk : d.header[n]? = some k)
    (hheader : d'.header = d.header) (hslot : ∀ i < d.header.length, d'.slot i = d.slot i)
    (hnew : d'.home k = d.slot n) (hold : ∀ j, j ≠ k → d'.home j = d.home j) : d'.Installed (n + 1) := by
  intro i j hi hj
  rw [hheader] at hj
  obtain ⟨hlt, hget⟩ := List.getElem?_eq_some_iff.mp hj
  obtain ⟨hlt', hget'⟩ := List.getElem?_eq_some_iff.mp hk
  rw [hslot i hlt]
  by_cases hin : i = n
  · subst hin
    rw [hj, Option.some.injEq] at hk
    rw [hk, hnew]
  · have hne : j ≠ k := by
      rintro rfl
      exact hin ((List.Nodup.getElem_inj_iff hnodup).mp (hget.trans hget'.symm))
    rw [hold j hne]
    exact h i j (by omega) hj

variable [DecidableEq K]

/-- What a recovery would leave in the block. -/
def Disk.recovered (d : Disk K D) (k : K) : D := if k ∈ d.header then d.slot (d.header.idxOf k) else d.home k

def write (t : List (K × D)) (f : K → D) (k : K) : D := (t.lookup k).getD (f k)

def replay (f : K → D) (ts : List (List (K × D))) : K → D := ts.foldl (fun g t => write t g) f

theorem replay_append (t : List (K × D)) (ts : List (List (K × D))) (k : K) :
    replay f (ts ++ [t]) k = write t (replay f ts) k := by
  unfold replay
  rw [List.foldl_append]
  rfl

theorem write_map (l : List K) (k : K) : write (l.map fun k => (k, v k)) f k = if k ∈ l then v k else f k := by
  unfold write
  induction l with
  | nil => rfl
  | cons a l ih =>
    rw [List.map_cons, List.lookup_cons]
    by_cases hk : k = a
    · subst hk
      simp
    · have hne : (k == a) = false := by simpa using hk
      rw [hne, ih]
      simp [hk]

theorem recovered_of_nil (h : d.header = []) : d.recovered k = d.home k := by
  unfold Disk.recovered
  rw [h]
  rfl

theorem Disk.Installed.recovered (h : d.Installed d.header.length) : d.recovered k = d.home k := by
  unfold Disk.recovered
  split
  · rename_i hk
    exact (h _ k (List.idxOf_lt_length_of_mem hk) (List.getElem?_idxOf hk)).symm
  · rfl

theorem recovered_congr (hheader : d'.header = d.header) (hslot : ∀ i < d.header.length, d'.slot i = d.slot i)
    (hhome : k ∈ d.header ∨ d'.home k = d.home k) : d'.recovered k = d.recovered k := by
  unfold Disk.recovered
  rw [hheader]
  split
  · rename_i hk
    exact hslot _ (List.idxOf_lt_length_of_mem hk)
  · rename_i hk
    exact hhome.resolve_left hk

/-- The header is written: all blocks of the transaction change at once. -/
theorem recovered_commit (hnil : d.header = []) (hheader : d'.header = l)
    (hslot : ∀ i k, l[i]? = some k → d'.slot i = v k) (hhome : k ∉ l → d'.home k = d.home k) :
    d'.recovered k = write (l.map fun k => (k, v k)) d.recovered k := by
  rw [write_map, recovered_of_nil hnil]
  unfold Disk.recovered
  rw [hheader]
  split
  · rename_i hk
    exact hslot _ k (List.getElem?_idxOf hk)
  · rename_i hk
    exact hhome hk

theorem recovered_clear (hdone : d.Installed d.header.length) (hheader : d'.header = [])
    (hhome : d'.home k = d.home k) : d'.recovered k = d.recovered k := by
  rw [hdone.recovered, recovered_of_nil hheader, hhome]

end Xv6.Lib.Redo
