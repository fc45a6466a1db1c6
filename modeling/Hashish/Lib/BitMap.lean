import Mathlib.Data.Nat.Bitwise
import Mathlib.Data.Set.Insert

/-!
# Sets of numbers as maps of bits

A list of bytes as the characteristic function of a set of numbers: bit `i` of the
map is bit `i % 8` of byte `i / 8`, counted from the least significant bit.

* `BitsOf.setBit`: setting bit `i` inserts `i`.
* `BitsOf.unique`: two maps of one length that hold the same set are equal.
* `bitCount_setBit`: setting a bit adds one to the number of bits that are set, unless
  it was set before.
-/

namespace Hashish.Lib

/-- Bit `i` of a map. Outside the map no bit is set. -/
def bitAt (map : List UInt8) (i : Nat) : Bool := (map.getD (i / 8) 0).toNat.testBit (i % 8)

/-- The byte with one more bit set. -/
def setByteBit (byte : UInt8) (i : Nat) : UInt8 := UInt8.ofNat (byte.toNat ||| 2 ^ (i % 8))

/-- The map with bit `i` set. -/
def setBit (map : List UInt8) (i : Nat) : List UInt8 :=
  map.set (i / 8) (setByteBit (map.getD (i / 8) 0) i)

/-- The map holds the set `S`. -/
def BitsOf (map : List UInt8) (S : Set Nat) : Prop :=
  ∀ i < 8 * map.length, bitAt map i = true ↔ i ∈ S

/-- The number of bits that are set. -/
def bitCount (map : List UInt8) : Nat := (List.range (8 * map.length)).countP (bitAt map)

section Counts

variable {l : List Nat} {p : Nat → Bool} {i : Nat}

theorem countP_insert (hl : l.Nodup) (hi : i ∈ l) (hp : p i = false) :
    l.countP (fun j => p j || decide (j = i)) = l.countP p + 1 := by
  induction l with
  | nil => cases hi
  | cons a l ih =>
    obtain ⟨ha, hl'⟩ := List.nodup_cons.mp hl
    rcases List.mem_cons.mp hi with rfl | hi'
    · have hrest : l.countP (fun j => p j || decide (j = i)) = l.countP p :=
        List.countP_congr fun j hj => by
          have hne : j ≠ i := fun h => ha (h ▸ hj)
          simp [hne]
      rw [List.countP_cons_of_pos (by simp), List.countP_cons_of_neg (by simp [hp]), hrest]
    · have hne : a ≠ i := fun h => ha (h ▸ hi')
      rw [List.countP_cons, List.countP_cons, ih hl' hi']
      simp only [decide_eq_false hne, Bool.or_false]
      exact Nat.add_right_comm ..

end Counts

section Bytes

variable {byte : UInt8} {i j : Nat}

theorem toNat_setByteBit : (setByteBit byte i).toNat = byte.toNat ||| 2 ^ (i % 8) := by
  have hpow : 2 ^ (i % 8) < 2 ^ 8 := Nat.pow_lt_pow_right (by decide) (Nat.mod_lt _ (by decide))
  rw [setByteBit, UInt8.toNat_ofNat']
  exact Nat.mod_eq_of_lt (Nat.or_lt_two_pow byte.toNat_lt hpow)

theorem testBit_setByteBit :
    (setByteBit byte i).toNat.testBit j = (byte.toNat.testBit j || decide (j = i % 8)) := by
  rw [toNat_setByteBit, Nat.testBit_or, Nat.testBit_two_pow]
  simp only [eq_comm]

/-- Bytes with the same eight bits are equal. -/
theorem byte_ext {a b : UInt8} (h : ∀ j < 8, a.toNat.testBit j = b.toNat.testBit j) : a = b := by
  refine UInt8.toNat_inj.mp (Nat.eq_of_testBit_eq fun j => ?_)
  by_cases hj : j < 8
  · exact h j hj
  · have hhigh : ∀ c : UInt8, c.toNat.testBit j = false := fun c =>
      Nat.testBit_lt_two_pow (c.toNat_lt.trans_le (Nat.pow_le_pow_right (by decide) (Nat.not_lt.mp hj)))
    rw [hhigh a, hhigh b]

end Bytes

section Maps

variable {map map' : List UInt8} {i j : Nat} {S : Set Nat}

@[simp] theorem length_setBit : (setBit map i).length = map.length := List.length_set ..

theorem bitAt_setBit (hi : i < 8 * map.length) :
    bitAt (setBit map i) j = (bitAt map j || decide (j = i)) := by
  have hlt : i / 8 < map.length := Nat.div_lt_of_lt_mul hi
  by_cases hij : j / 8 = i / 8
  · have hget : (setBit map i).getD (j / 8) 0 = setByteBit (map.getD (j / 8) 0) i := by
      rw [hij, setBit, List.getD_eq_getElem?_getD, List.getElem?_set_self hlt, Option.getD_some]
    have hrest : (j % 8 = i % 8) ↔ j = i :=
      ⟨fun h => by rw [← Nat.div_add_mod j 8, ← Nat.div_add_mod i 8, hij, h], fun h => by rw [h]⟩
    rw [bitAt, hget, testBit_setByteBit, bitAt, decide_eq_decide.mpr hrest]
  · have hne : j ≠ i := fun h => hij (by rw [h])
    rw [bitAt, setBit, List.getD_eq_getElem?_getD, List.getElem?_set_ne (Ne.symm hij),
      ← List.getD_eq_getElem?_getD, bitAt, decide_eq_false hne, Bool.or_false]

/-- The map without a bit set holds the empty set. -/
theorem bitsOf_zero (n : Nat) : BitsOf (List.replicate n 0) ∅ := by
  intro i hi
  have hlt : i / 8 < n := Nat.div_lt_of_lt_mul (by simpa using hi)
  rw [bitAt, List.getD_eq_getElem?_getD, List.getElem?_replicate_of_lt hlt]
  simp

/-- Setting a bit inserts its number. -/
theorem BitsOf.setBit (h : BitsOf map S) (hi : i < 8 * map.length) :
    BitsOf (setBit map i) (insert i S) := by
  intro j hj
  rw [length_setBit] at hj
  rw [bitAt_setBit hi, Bool.or_eq_true, decide_eq_true_iff, h j hj, Set.mem_insert_iff, or_comm]

@[simp] theorem bitCount_zero (n : Nat) : bitCount (List.replicate n 0) = 0 := by
  refine List.countP_eq_zero.mpr fun i hi => ?_
  rw [List.mem_range] at hi
  exact fun h => ((bitsOf_zero n) i hi).mp h

/-- Setting a bit that was set changes nothing. -/
theorem bitCount_setBit_of_set (hi : i < 8 * map.length) (h : bitAt map i = true) :
    bitCount (setBit map i) = bitCount map := by
  rw [bitCount, bitCount, length_setBit]
  refine List.countP_congr fun j _ => ?_
  rw [bitAt_setBit hi, Bool.or_eq_true, decide_eq_true_iff]
  exact ⟨fun hj => hj.elim id fun hji => hji ▸ h, .inl⟩

/-- Setting a bit that was not set counts one more. -/
theorem bitCount_setBit (hi : i < 8 * map.length) (h : bitAt map i = false) :
    bitCount (setBit map i) = bitCount map + 1 := by
  have hbits : bitAt (setBit map i) = fun j => bitAt map j || decide (j = i) :=
    funext fun _ => bitAt_setBit hi
  rw [bitCount, bitCount, length_setBit, hbits]
  exact countP_insert List.nodup_range (List.mem_range.mpr hi) h

/-- A map is determined by the set it holds. -/
theorem BitsOf.unique (h : BitsOf map S) (h' : BitsOf map' S) (hl : map.length = map'.length) :
    map = map' := by
  refine List.ext_getElem hl fun b hb hb' => byte_ext fun j hj => ?_
  have hdiv : (8 * b + j) / 8 = b := by
    rw [Nat.mul_add_div (by decide), Nat.div_eq_of_lt hj, Nat.add_zero]
  have hmod : (8 * b + j) % 8 = j := by rw [Nat.mul_add_mod, Nat.mod_eq_of_lt hj]
  have hbit : ∀ {m : List UInt8} (hm : b < m.length),
      m[b].toNat.testBit j = bitAt m (8 * b + j) := by
    intro m hm
    rw [bitAt, hdiv, hmod, List.getD_eq_getElem?_getD, List.getElem?_eq_getElem hm,
      Option.getD_some]
  have hin : 8 * b + j < 8 * map.length := by omega
  rw [hbit hb, hbit hb', Bool.eq_iff_iff, h _ hin, h' _ (hl ▸ hin)]

end Maps

end Hashish.Lib
