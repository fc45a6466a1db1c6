import Mathlib.Data.Nat.Bitwise
import Mathlib.Logic.Function.Basic

/-!
# Mixing steps

A hash takes a key part by part and mixes each part into its state. When a step loses neither the
state nor the part, the hash tells two keys apart that differ in one part. Such steps are put together
from words by adding, by exclusive or, by multiplying with a unit, and by exclusive or with a shifted
copy of the word.
-/

namespace Hashish.Lib

variable {σ α : Type}

/-- A step that loses neither its state nor the part it takes. -/
structure Mixes (f : σ → α → σ) : Prop where
  state : ∀ a, Function.Injective fun s => f s a
  part : ∀ s, Function.Injective (f s)

variable {f : σ → α → σ}

theorem Mixes.foldl_state (hf : Mixes f) (xs : List α) : Function.Injective fun s => xs.foldl f s := by
  induction xs with
  | nil => exact Function.injective_id
  | cons x xs ih => exact ih.comp (hf.state x)

/-- Lists that differ in one place have different values. -/
theorem Mixes.foldl_eq_iff (hf : Mixes f) {s : σ} {xs ys : List α} {a b : α} :
    (xs ++ a :: ys).foldl f s = (xs ++ b :: ys).foldl f s ↔ a = b := by
  rw [List.foldl_append, List.foldl_append, List.foldl_cons, List.foldl_cons]
  exact (hf.foldl_state ys).eq_iff.trans (hf.part _).eq_iff

/-- A number comes back from its exclusive or with a shifted copy: the number in which two candidates
differ is its own shift, and zero. -/
theorem xor_shiftRight_injective {k : Nat} (hk : 0 < k) :
    Function.Injective fun n : Nat => n ^^^ n >>> k := by
  intro n m h
  have hboth : (n >>> k ^^^ m >>> k) ^^^ (n ^^^ m) = 0 :=
    calc (n >>> k ^^^ m >>> k) ^^^ (n ^^^ m) = (n ^^^ n >>> k) ^^^ (m ^^^ m >>> k) := by ac_rfl
      _ = 0 := Nat.xor_eq_zero_iff.mpr h
  have hshift : (n ^^^ m) >>> k = n ^^^ m := by
    rw [Nat.shiftRight_xor_distrib]
    exact Nat.xor_eq_zero_iff.mp hboth
  have hzero : n ^^^ m = 0 := by
    by_contra hne
    rw [Nat.shiftRight_eq_div_pow] at hshift
    have hlt := Nat.div_lt_self (Nat.pos_of_ne_zero hne) (Nat.one_lt_two_pow hk.ne')
    omega
  exact Nat.xor_eq_zero_iff.mp hzero

theorem word_shiftRight_injective {k : UInt32} (hk : 0 < k.toNat % 32) :
    Function.Injective fun x : UInt32 => x ^^^ x >>> k := by
  intro x y h
  have htoNat := congrArg UInt32.toNat h
  simp only [UInt32.toNat_xor, UInt32.toNat_shiftRight] at htoNat
  exact UInt32.toNat_inj.mp (xor_shiftRight_injective hk htoNat)

theorem word_mul_injective {u v : UInt32} (h : u * v = 1) :
    Function.Injective fun x : UInt32 => x * u := by
  refine Function.LeftInverse.injective (g := fun x => x * v) fun x => ?_
  dsimp only
  rw [UInt32.mul_assoc, h, UInt32.mul_one]

end Hashish.Lib
