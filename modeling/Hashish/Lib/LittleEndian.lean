import Mathlib.Data.Nat.Digits.Defs
import Mathlib.Data.List.Basic

/-!
# Words of bytes, the least significant byte first

`leWord bytes` is the 32-bit word that bytes give on a little-endian machine, and
`bytesAt mem p n` are the `n` bytes of a memory from the address `p` on.

Words are put together by shifting the later bytes to the left, and taken apart by
shifting to the right. As the bits of the parts are apart, the parts can be combined
by `+`, `|||` or `^^^`.
-/

namespace Hashish.Lib

/-- The number that bytes give. -/
def leNat (bytes : List UInt8) : Nat := Nat.ofDigits 256 (bytes.map UInt8.toNat)

/-- The word that bytes give. Bytes after the fourth have no part in it. -/
def leWord (bytes : List UInt8) : UInt32 := UInt32.ofNat (leNat bytes)

/-- The shift that passes over some bytes. -/
def byteShift (n : Nat) : UInt32 := UInt32.ofNat (8 * n)

section Numbers

variable {xs ys : List UInt8} {x : UInt8}

@[simp] theorem leNat_nil : leNat [] = 0 := rfl

theorem leNat_singleton : leNat [x] = x.toNat := by simp [leNat]

theorem leNat_append : leNat (xs ++ ys) = leNat xs + 2 ^ (8 * xs.length) * leNat ys := by
  rw [leNat, List.map_append, Nat.ofDigits_append, List.length_map, Nat.pow_mul]
  rfl

/-- Zeros at the end do not count. -/
theorem leNat_append_zeros (k : Nat) : leNat (xs ++ List.replicate k 0) = leNat xs := by
  have hzero : leNat (List.replicate k 0) = 0 := by
    induction k with
    | zero => rfl
    | succ k ih =>
      rw [List.replicate_succ, ← List.singleton_append, leNat_append, leNat_singleton, ih]
      rfl
  rw [leNat_append, hzero, Nat.mul_zero, Nat.add_zero]

theorem digit_lt : ∀ d ∈ xs.map UInt8.toNat, d < 256 := by
  intro d hd
  obtain ⟨x, -, rfl⟩ := List.mem_map.mp hd
  exact x.toNat_lt

theorem leNat_lt : leNat xs < 2 ^ (8 * xs.length) := by
  have h := Nat.ofDigits_lt_base_pow_length (b := 256) (l := xs.map UInt8.toNat) (by decide) digit_lt
  rwa [List.length_map, show (256 : Nat) = 2 ^ 8 from rfl, ← Nat.pow_mul] at h

theorem leNat_inj (hlen : xs.length = ys.length) : leNat xs = leNat ys ↔ xs = ys := by
  refine ⟨fun h => ?_, fun h => h ▸ rfl⟩
  have hmap := Nat.ofDigits_inj_of_len_eq (by decide) (by simpa using hlen) digit_lt digit_lt h
  exact List.map_injective_iff.mpr (fun _ _ => UInt8.toNat_inj.mp) hmap

/-- Numbers whose bits are apart. -/
theorem xor_two_pow_mul {a n : Nat} (h : a < 2 ^ n) (b : Nat) : a ^^^ 2 ^ n * b = a + 2 ^ n * b := by
  rw [Nat.add_comm, Nat.two_pow_add_eq_or_of_lt h]
  refine Nat.eq_of_testBit_eq fun i => ?_
  rw [Nat.testBit_xor, Nat.testBit_or]
  rcases Nat.lt_or_ge i n with hi | hi
  · have hlow : (2 ^ n * b).testBit i = false := by
      rw [Nat.testBit_two_pow_mul, decide_eq_false (Nat.not_le.mpr hi), Bool.false_and]
    rw [hlow, Bool.xor_false, Bool.false_or]
  · have hhigh : a.testBit i = false :=
      Nat.testBit_lt_two_pow (h.trans_le (Nat.pow_le_pow_right (by decide) hi))
    rw [hhigh, Bool.false_xor, Bool.or_false]

end Numbers

section Words

variable {xs ys : List UInt8} {x : UInt8} {n : Nat}

@[simp] theorem toNat_leWord : (leWord xs).toNat = leNat xs % 2 ^ 32 := UInt32.toNat_ofNat'

theorem leWord_singleton : leWord [x] = x.toUInt32 := by
  refine UInt32.toNat_inj.mp ?_
  rw [toNat_leWord, leNat_singleton, UInt8.toNat_toUInt32]
  exact Nat.mod_eq_of_lt (x.toNat_lt.trans (by decide))

theorem toNat_byteShift (hn : n ≤ 3) : (byteShift n).toNat % 32 = 8 * n := by
  rw [byteShift, UInt32.toNat_ofNat', Nat.mod_eq_of_lt (by omega), Nat.mod_eq_of_lt (by omega)]

theorem toNat_shiftLeft_byteShift {a : UInt32} (hn : n ≤ 3) :
    (a <<< byteShift n).toNat = 2 ^ (8 * n) * a.toNat % 2 ^ 32 := by
  rw [UInt32.toNat_shiftLeft, toNat_byteShift hn, Nat.shiftLeft_eq, Nat.mul_comm]

theorem toNat_shiftRight_byteShift {a : UInt32} (hn : n ≤ 3) :
    (a >>> byteShift n).toNat = a.toNat / 2 ^ (8 * n) := by
  rw [UInt32.toNat_shiftRight, toNat_byteShift hn, Nat.shiftRight_eq_div_pow]

theorem toNat_leWord_of_length (h : xs.length ≤ 4) : (leWord xs).toNat = leNat xs := by
  rw [toNat_leWord]
  exact Nat.mod_eq_of_lt (leNat_lt.trans_le (Nat.pow_le_pow_right (by decide) (by omega)))

theorem leWord_inj (hlen : xs.length = ys.length) (h : xs.length ≤ 4) :
    leWord xs = leWord ys ↔ xs = ys := by
  rw [← UInt32.toNat_inj, toNat_leWord_of_length h, toNat_leWord_of_length (hlen ▸ h),
    leNat_inj hlen]

/-- A word has room for `n` bytes and the rest. -/
theorem two_pow_split (hn : n ≤ 3) : 2 ^ 32 = 2 ^ (8 * n) * 2 ^ (32 - 8 * n) := by
  rw [← Nat.pow_add, Nat.add_sub_cancel' (by omega)]

theorem toNat_leWord_append (h : xs.length ≤ 3) :
    (leWord (xs ++ ys)).toNat =
      leNat xs + 2 ^ (8 * xs.length) * (leNat ys % 2 ^ (32 - 8 * xs.length)) := by
  rw [toNat_leWord, leNat_append, two_pow_split h, Nat.mod_mul, Nat.add_mul_mod_self_left,
    Nat.mod_eq_of_lt leNat_lt, Nat.add_mul_div_left _ _ (Nat.two_pow_pos _),
    Nat.div_eq_of_lt leNat_lt, Nat.zero_add]

theorem toNat_leWord_shiftLeft (hn : n ≤ 3) :
    (leWord ys <<< byteShift n).toNat = 2 ^ (8 * n) * (leNat ys % 2 ^ (32 - 8 * n)) := by
  rw [toNat_shiftLeft_byteShift hn, toNat_leWord, two_pow_split hn, Nat.mul_mod_mul_left,
    Nat.mod_mul_left_mod]

/-- The later bytes are shifted to the left and put to the first. -/
theorem leWord_or (h : xs.length = n) (hn : n ≤ 3) :
    leWord xs ||| leWord ys <<< byteShift n = leWord (xs ++ ys) := by
  subst h
  refine UInt32.toNat_inj.mp ?_
  rw [UInt32.toNat_or, toNat_leWord_shiftLeft hn, toNat_leWord_append hn,
    toNat_leWord_of_length (by omega), Nat.or_comm, Nat.add_comm,
    Nat.two_pow_add_eq_or_of_lt leNat_lt]

theorem leWord_xor (h : xs.length = n) (hn : n ≤ 3) :
    leWord xs ^^^ leWord ys <<< byteShift n = leWord (xs ++ ys) := by
  subst h
  refine UInt32.toNat_inj.mp ?_
  rw [UInt32.toNat_xor, toNat_leWord_shiftLeft hn, toNat_leWord_append hn,
    toNat_leWord_of_length (by omega), xor_two_pow_mul leNat_lt]

theorem leWord_add (h : xs.length = n) (hn : n ≤ 3) :
    leWord xs + leWord ys <<< byteShift n = leWord (xs ++ ys) := by
  subst h
  refine UInt32.toNat_inj.mp ?_
  rw [UInt32.toNat_add, toNat_leWord_shiftLeft hn, toNat_leWord_of_length (by omega),
    ← toNat_leWord_append hn]
  exact Nat.mod_eq_of_lt (UInt32.toNat_lt _)

/-- Bytes after the fourth have no part in a word. -/
theorem leWord_append_of_length (h : xs.length = 4) : leWord (xs ++ ys) = leWord xs := by
  refine UInt32.toNat_inj.mp ?_
  rw [toNat_leWord, toNat_leWord, leNat_append, h]
  exact Nat.add_mul_mod_self_left ..

/-- Shifting to the right takes the first bytes away. -/
theorem leWord_append_shiftRight (h : xs.length = n) (hn : n ≤ 3)
    (hlen : xs.length + ys.length ≤ 4) : leWord (xs ++ ys) >>> byteShift n = leWord ys := by
  subst h
  refine UInt32.toNat_inj.mp ?_
  rw [toNat_shiftRight_byteShift hn, toNat_leWord_of_length (by rwa [List.length_append]),
    toNat_leWord_of_length (by omega), leNat_append, Nat.add_mul_div_left _ _ (Nat.two_pow_pos _),
    Nat.div_eq_of_lt leNat_lt, Nat.zero_add]

/-- Bytes for which there is room to the left come back. -/
theorem leWord_shiftLeft_shiftRight (hn : n ≤ 3) (hlen : ys.length + n ≤ 4) :
    leWord ys <<< byteShift n >>> byteShift n = leWord ys := by
  refine UInt32.toNat_inj.mp ?_
  rw [toNat_shiftRight_byteShift hn, toNat_leWord_shiftLeft hn,
    Nat.mul_div_cancel_left _ (Nat.two_pow_pos _), toNat_leWord_of_length (by omega)]
  exact Nat.mod_eq_of_lt (leNat_lt.trans_le (Nat.pow_le_pow_right (by decide) (by omega)))

/-- The bytes of a word. -/
theorem leWord_bytes (x : UInt32) :
    leWord [(x >>> 0).toUInt8, (x >>> 8).toUInt8, (x >>> 16).toUInt8, (x >>> 24).toUInt8] = x := by
  have hx := x.toNat_lt
  refine UInt32.toNat_inj.mp ?_
  rw [toNat_leWord]
  simp [leNat, Nat.ofDigits_cons, Nat.shiftRight_eq_div_pow]
  omega

end Words

/-! ## Memories -/

/-- The bytes of a memory from an address on. -/
def bytesAt (mem : Nat → UInt8) (p : Nat) : Nat → List UInt8
  | 0 => []
  | n + 1 => mem p :: bytesAt mem (p + 1) n

section Memories

variable {mem : Nat → UInt8} {p m n : Nat}

@[simp] theorem length_bytesAt : (bytesAt mem p n).length = n := by
  induction n generalizing p with
  | zero => rfl
  | succ n ih => rw [bytesAt, List.length_cons, ih]

theorem bytesAt_add : bytesAt mem p (m + n) = bytesAt mem p m ++ bytesAt mem (p + m) n := by
  induction m generalizing p with
  | zero => rw [Nat.zero_add, Nat.add_zero, bytesAt, List.nil_append]
  | succ m ih => rw [Nat.succ_add, bytesAt, bytesAt, ih, List.cons_append, Nat.succ_add_eq_add_succ]

theorem take_bytesAt : (bytesAt mem p n).take m = bytesAt mem p (min m n) := by
  rcases Nat.le_total m n with hle | hle
  · obtain ⟨d, rfl⟩ := Nat.exists_eq_add_of_le hle
    rw [Nat.min_eq_left hle, bytesAt_add, List.take_left' length_bytesAt]
  · rw [Nat.min_eq_right hle, List.take_of_length_le (by rwa [length_bytesAt])]

theorem drop_bytesAt : (bytesAt mem p n).drop m = bytesAt mem (p + m) (n - m) := by
  rcases Nat.le_total m n with hle | hle
  · obtain ⟨d, rfl⟩ := Nat.exists_eq_add_of_le hle
    rw [Nat.add_sub_cancel_left, bytesAt_add, List.drop_left' length_bytesAt]
  · rw [Nat.sub_eq_zero_of_le hle, List.drop_eq_nil_of_le (by rwa [length_bytesAt]), bytesAt]

theorem leWord_bytesAt_one : leWord (bytesAt mem p 1) = (mem p).toUInt32 := leWord_singleton

end Memories

/-- Read `n` bytes. -/
def loadLe (mem : Nat → UInt8) (p n : Nat) : UInt32 := leWord (bytesAt mem p n)

end Hashish.Lib
