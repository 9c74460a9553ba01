import Xv6.Inodes.Table

/-!
# Files without holes

Every block of a file below its size has an address. So `readi`, which does not call `iupdate`, changes nothing in the
inode, and the functions that do keep it so.
-/

open Xv6.Lib Op

namespace Xv6.Inodes

open Xv6.Files (Dinode FileType NDIRECT NINDIRECT)

variable {n n' : Dinode} {e : Round} {bn off left k : Nat}

def Mapped (n : Dinode) (bn : Nat) : Prop := n.addrs (min bn NDIRECT) ≠ 0

def HoleFree (n : Dinode) : Prop := ∀ bn, bn * BSIZE < n.size → Mapped n bn

theorem HoleFree.empty {type : FileType} : HoleFree { type := type } := fun _ h => absurd h (Nat.not_lt_zero _)

structure Grown (n n' : Dinode) : Prop where
  addrs : ∀ k, n.addrs k ≠ 0 → n'.addrs k = n.addrs k
  rest : n' = { n with addrs := n'.addrs }

namespace Grown

theorem refl (n : Dinode) : Grown n n := ⟨fun _ _ => rfl, rfl⟩

theorem trans {m : Dinode} (h : Grown n n') (h' : Grown n' m) : Grown n m := by
  refine ⟨fun k hk => ?_, ?_⟩
  · rw [h'.addrs k (by rwa [h.addrs k hk]), h.addrs k hk]
  · rw [h'.rest, h.rest]

theorem mapped (h : Grown n n') (hm : Mapped n bn) : Mapped n' bn := by
  rw [Mapped, h.addrs _ hm]
  exact hm

theorem size (h : Grown n n') : n'.size = n.size := by rw [h.rest]

theorem type (h : Grown n n') : n'.type = n.type := by rw [h.rest]

end Grown

/-! ## `bmap` -/

theorem bmap_addr_ends : Ends (bmap_addr e k) n
    (fun addr n' => Grown n n' ∧ (addr ≠ 0 → n'.addrs k ≠ 0) ∧ (n.addrs k ≠ 0 → n' = n)) (· = "bmap: out of range") := by
  simp only [bmap_addr, ends_bind, ends_gets, ends_ite, ends_update, ends_pure, id]
  refine ⟨fun hzero => ⟨fun _ => ?_, fun hblock => ?_⟩, fun hne => ?_⟩
  · exact ⟨.refl n, fun h => absurd rfl h, fun h => absurd hzero h⟩
  · refine ⟨⟨fun j hj => ?_, rfl⟩, fun _ => ?_, fun h => absurd hzero h⟩
    · exact Function.update_of_ne (by rintro rfl; exact hj hzero) ..
    · rw [Function.update_self]
      exact hblock
  · exact ⟨.refl n, fun _ => hne, fun _ => trivial⟩

theorem bmap_ends : Ends (bmap e bn) n
    (fun addr n' => Grown n n' ∧ (addr ≠ 0 → Mapped n' bn) ∧ (Mapped n bn → n' = n)) (· = "bmap: out of range") := by
  rw [bmap, ends_ite]
  refine ⟨fun hdirect => ?_, fun hindirect => ?_⟩
  · simp only [Mapped, Nat.min_eq_left (Nat.le_of_lt hdirect)]
    exact bmap_addr_ends
  · simp only [Mapped, Nat.min_eq_right (Nat.le_of_not_lt hindirect), ends_ite, ends_bind, ends_stop]
    refine ⟨fun _ => bmap_addr_ends.mono fun addr n' h => ?_, fun _ => trivial⟩
    exact ⟨fun _ => ⟨h.1, fun h0 => absurd rfl h0, h.2.2⟩, fun hne => ⟨h.1, fun _ => h.2.1 hne, h.2.2⟩⟩

/-! ## `readi` and `writei` -/

theorem readi_loop_ends {e : Nat → Round} (h : HoleFree n) (hleft : off + left ≤ n.size) :
    Ends (readi_loop e k off left) n (fun _ n' => n' = n) (· = "bmap: out of range") := by
  induction k generalizing off left with
  | zero => rfl
  | succ k ih =>
    simp only [readi_loop, ends_ite, ends_bind, ends_pure]
    refine ⟨fun _ => trivial, fun hne => bmap_ends.mono fun addr n' hb => ?_⟩
    have hmap : Mapped n (off / BSIZE) := h _ (by have := Nat.div_mul_le_self off BSIZE; omega)
    rw [hb.2.2 hmap]
    exact ⟨fun _ => rfl, fun _ => ⟨fun _ => ih (by omega), fun _ => rfl⟩⟩

theorem readi_ends {e : Nat → Round} (h : HoleFree n) (m : Nat) :
    Ends (readi e off m) n (fun _ n' => n' = n) (· = "bmap: out of range") := by
  simp only [readi, ends_bind, ends_gets, ends_ite, ends_pure, id]
  refine ⟨fun _ => trivial, fun hin => readi_loop_ends h ?_⟩
  split <;> omega

theorem writei_loop_ends {e : Nat → Round} (h : ∀ bn, bn * BSIZE < off → Mapped n bn) :
    Ends (writei_loop e k off left) n
      (fun off' n' => Grown n n' ∧ ∀ bn, bn * BSIZE < off' → Mapped n' bn) (· = "bmap: out of range") := by
  induction k generalizing n off left with
  | zero => exact ⟨.refl n, h⟩
  | succ k ih =>
    simp only [writei_loop, ends_ite, ends_bind, ends_pure]
    refine ⟨fun _ => ⟨.refl n, h⟩, fun hne => bmap_ends.mono fun addr n' hb => ?_⟩
    have hold : ∀ bn, bn * BSIZE < off → Mapped n' bn := fun bn hbn => hb.1.mapped (h bn hbn)
    refine ⟨fun _ => ⟨hb.1, hold⟩, fun haddr => ⟨fun _ => ?_, fun _ => ⟨hb.1, hold⟩⟩⟩
    refine (ih fun bn hbn => ?_).mono fun off' n'' hn => ⟨hb.1.trans hn.1, hn.2⟩
    by_cases hlt : bn * BSIZE < off
    · exact hold bn hlt
    · have : bn = off / BSIZE := by
        simp only [show BSIZE = 1024 from rfl] at hbn hlt ⊢
        omega
      exact this ▸ hb.2.1 haddr

theorem writei_ends {e : Nat → Round} (h : HoleFree n) (m : Nat) : Ends (writei e off m) n
    (fun wrote n' => (wrote = false → n' = n) ∧ n'.type = n.type ∧ HoleFree n') (· = "bmap: out of range") := by
  simp only [writei, ends_bind, ends_gets, ends_ite, ends_pure, ends_update, id]
  refine ⟨fun _ => ⟨fun _ => trivial, trivial, h⟩, fun hin => ⟨fun _ => ⟨fun _ => trivial, trivial, h⟩, fun _ => ?_⟩⟩
  refine (writei_loop_ends fun bn hbn => h bn (by omega)).mono fun off' n' hn => ⟨(by simp), ?_⟩
  split
  · exact ⟨hn.1.type, hn.2⟩
  · refine ⟨hn.1.type, fun bn hbn => hn.1.mapped (h bn ?_)⟩
    rwa [hn.1.size] at hbn

theorem itrunc_holeFree : HoleFree (itrunc n) := fun _ h => absurd h (Nat.not_lt_zero _)

theorem Edit.apply_ok (h : HoleFree n) (e : Edit) : (e.apply n).type = n.type ∧ HoleFree (e.apply n) := by
  cases e with
  | trunc => exact ⟨rfl, itrunc_holeFree⟩
  | _ => exact ⟨rfl, h⟩

end Xv6.Inodes
