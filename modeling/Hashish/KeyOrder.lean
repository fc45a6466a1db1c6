import Hashish.Contents

/-!
# Orders on keys, and the integer compare functions (`cmp_funcs.c`)

`OrderOn cmp S` says that the sign of `cmp` is a total order on the keys `S`. The
compare functions for integers subtract. The difference of 16-bit numbers always fits
in an `int`; the difference of 32-bit numbers wraps.

* `orderOn_hiCmpUint16T`, `orderOn_hiCmpInt16T`: the 16-bit functions order all keys.
* `orderOn_hiCmpUint32T`, `orderOn_hiCmpInt32T`: the 32-bit functions order the keys of
  every window of `2 ^ 31` consecutive numbers.
-/

namespace Hashish

variable {cmp : KeyCmp} {S : Key → Prop}

/-! ## Orders -/

/-- On the keys `S`, the sign of the compare function is a total order, with `cmp = 0` as its
equivalence. -/
structure OrderOn (cmp : KeyCmp) (S : Key → Prop) : Prop where
  antisymm : ∀ {a b}, S a → S b → (cmp a.bytes b.bytes < 0 ↔ 0 < cmp b.bytes a.bytes)
  trans : ∀ {a b c}, S a → S b → S c → 0 ≤ cmp a.bytes b.bytes → 0 ≤ cmp b.bytes c.bytes →
    0 ≤ cmp a.bytes c.bytes

namespace OrderOn

variable {a b c : Key}

theorem mono {S' : Key → Prop} (ho : OrderOn cmp S') (hS : ∀ q, S q → S' q) : OrderOn cmp S :=
  ⟨fun ha hb => ho.antisymm (hS _ ha) (hS _ hb),
    fun ha hb hc => ho.trans (hS _ ha) (hS _ hb) (hS _ hc)⟩

theorem le_iff (ho : OrderOn cmp S) (ha : S a) (hb : S b) :
    0 ≤ cmp a.bytes b.bytes ↔ cmp b.bytes a.bytes ≤ 0 := by
  have := ho.antisymm ha hb
  omega

theorem same_symm (ho : OrderOn cmp S) (ha : S a) (hb : S b) (h : cmp.same a b) : cmp.same b a := by
  have h₁ := ho.antisymm ha hb
  have h₂ := ho.antisymm hb ha
  rw [KeyCmp.same] at h ⊢
  omega

theorem lt_of_lt_of_le (ho : OrderOn cmp S) (ha : S a) (hb : S b) (hc : S c)
    (h₁ : 0 < cmp a.bytes b.bytes) (h₂ : 0 ≤ cmp b.bytes c.bytes) : 0 < cmp a.bytes c.bytes := by
  by_contra hn
  have hca : 0 ≤ cmp c.bytes a.bytes := (ho.le_iff hc ha).mpr (by omega)
  have hba := (ho.le_iff hb ha).mp (ho.trans hb hc ha h₂ hca)
  omega

theorem lt_of_le_of_lt (ho : OrderOn cmp S) (ha : S a) (hb : S b) (hc : S c)
    (h₁ : 0 ≤ cmp a.bytes b.bytes) (h₂ : 0 < cmp b.bytes c.bytes) : 0 < cmp a.bytes c.bytes := by
  by_contra hn
  have hca : 0 ≤ cmp c.bytes a.bytes := (ho.le_iff hc ha).mpr (by omega)
  have hcb := (ho.le_iff hc hb).mp (ho.trans hc ha hb hca h₁)
  omega

/-- A compare function that subtracts integers orders the keys. -/
theorem of_sub {f : Bytes → Int}
    (hf : ∀ a b, S a → S b → cmp a.bytes b.bytes = f a.bytes - f b.bytes) : OrderOn cmp S where
  antisymm {a b} ha hb := by
    rw [hf a b ha hb, hf b a hb ha]
    omega
  trans {a b c} ha hb hc hab hbc := by
    rw [hf a b ha hb] at hab
    rw [hf b c hb hc] at hbc
    rw [hf a c ha hc]
    omega

/-- Equal keys form an equivalence. -/
theorem equivalence (ho : OrderOn cmp fun _ => True) : Equivalence cmp.same where
  refl k := by
    have := ho.antisymm (a := k) (b := k) trivial trivial
    rw [KeyCmp.same]
    omega
  symm := ho.same_symm trivial trivial
  trans {a b c} h₁ h₂ := by
    have hac := ho.trans (a := a) (b := b) (c := c) trivial trivial trivial h₁.ge h₂.ge
    have hca := ho.trans (a := c) (b := b) (c := a) trivial trivial trivial
      (ho.same_symm trivial trivial h₂).ge (ho.same_symm trivial trivial h₁).ge
    have := (ho.le_iff (a := c) (b := a) trivial trivial).mp hca
    rw [KeyCmp.same]
    omega

end OrderOn

/-! ## Integer keys -/

/-- The number in the first `n` bytes of a key, the least significant byte first. -/
def readInt (n : Nat) (key : Bytes) : Nat :=
  (key.take n).foldr (fun byte rest => byte.toNat + 256 * rest) 0

/-- `hi_cmp_int32_t`: the subtraction is one of 32-bit two's complement. -/
def hiCmpInt32T (key1 key2 : Bytes) : Int :=
  let a := BitVec.ofNat 32 (readInt 4 key1)
  let b := BitVec.ofNat 32 (readInt 4 key2)
  (a - b).toInt

/-- `hi_cmp_uint32_t`: the unsigned difference is converted to `int`. -/
def hiCmpUint32T (key1 key2 : Bytes) : Int :=
  let a := BitVec.ofNat 32 (readInt 4 key1)
  let b := BitVec.ofNat 32 (readInt 4 key2)
  (a - b).toInt

/-- `hi_cmp_int16_t`: the operands are promoted to `int`. -/
def hiCmpInt16T (key1 key2 : Bytes) : Int :=
  (BitVec.ofNat 16 (readInt 2 key1)).toInt - (BitVec.ofNat 16 (readInt 2 key2)).toInt

/-- `hi_cmp_uint16_t`: the operands are promoted to `int`. -/
def hiCmpUint16T (key1 key2 : Bytes) : Int :=
  (BitVec.ofNat 16 (readInt 2 key1)).toNat - (BitVec.ofNat 16 (readInt 2 key2)).toNat

theorem orderOn_hiCmpInt16T : OrderOn hiCmpInt16T S :=
  .of_sub (f := fun k => (BitVec.ofNat 16 (readInt 2 k)).toInt) fun _ _ _ _ => rfl

theorem orderOn_hiCmpUint16T : OrderOn hiCmpUint16T S :=
  .of_sub (f := fun k => (BitVec.ofNat 16 (readInt 2 k)).toNat) fun _ _ _ _ => rfl

/-- The numbers of the keys `S` lie in a window of `2 ^ 31` consecutive 32-bit numbers, the number
after the largest being zero. -/
def InWindow (S : Key → Prop) : Prop :=
  ∃ base : BitVec 32, ∀ k, S k → (BitVec.ofNat 32 (readInt 4 k.bytes) - base).toNat < 2 ^ 31

theorem orderOn_hiCmpUint32T (hS : InWindow S) : OrderOn hiCmpUint32T S := by
  obtain ⟨base, hb⟩ := hS
  refine .of_sub (f := fun k => ((BitVec.ofNat 32 (readInt 4 k) - base).toNat : Int))
    fun a b ha hb' => ?_
  have h₁ := hb a ha
  have h₂ := hb b hb'
  simp only [hiCmpUint32T]
  generalize BitVec.ofNat 32 (readInt 4 a.bytes) = x at h₁ ⊢
  generalize BitVec.ofNat 32 (readInt 4 b.bytes) = y at h₂ ⊢
  -- The difference of the numbers is the difference of their offsets, which fits in 32 bits.
  rw [show x - y = x - base - (y - base) by bv_omega]
  generalize x - base = x' at h₁ ⊢
  generalize y - base = y' at h₂ ⊢
  rw [BitVec.toInt_sub, BitVec.toInt_eq_toNat_of_lt (by omega), BitVec.toInt_eq_toNat_of_lt (by omega),
    Int.bmod_def]
  omega

theorem orderOn_hiCmpInt32T (hS : InWindow S) : OrderOn hiCmpInt32T S := orderOn_hiCmpUint32T hS

end Hashish
