import Hashish.ByteHashes
import Hashish.Lib.BlockStream

/-!
# SHA-1 (`hash_func_sha1.c`)

`sha1_process` keeps the last sixteen words of the schedule in a ring, renames its variables from
line to line instead of moving them, and computes with `unsigned long`, of which it never clears the
high bits. `sha1_update` passes blocks of 64 bytes on and keeps the rest in a buffer.

* `sha1Process_eq`: the function of the standard, for an `unsigned long` of 32 bits or more.
* `sha1_stream`: the digest of a message, in whatever pieces it comes.
* `lhiHashSha1_eq`: the hash of a key is the begin of its digest. A key of `2 ^ 31` bytes or more
  has the hash of the empty message, for its length is taken as an `int`.
-/

namespace Hashish

open Hashish.Lib

/-! ## The function of the standard -/

/-- Five words. -/
structure Sha1Words (w : Nat) where
  a : BitVec w
  b : BitVec w
  c : BitVec w
  d : BitVec w
  e : BitVec w
deriving DecidableEq, Repr

/-- The word of four bytes, the most significant one first. -/
def beWord (bytes : List UInt8) (i : Nat) : BitVec 32 :=
  BitVec.ofNat 32 ((bytes.getD i 0).toNat * 2 ^ 24 + (bytes.getD (i + 1) 0).toNat * 2 ^ 16 +
    (bytes.getD (i + 2) 0).toNat * 2 ^ 8 + (bytes.getD (i + 3) 0).toNat)

/-- The schedule of a block. -/
def sha1Schedule (block : List UInt8) (t : Nat) : BitVec 32 :=
  if t < 16 then beWord block (4 * t)
  else
    (sha1Schedule block (t - 3) ^^^ sha1Schedule block (t - 8) ^^^ sha1Schedule block (t - 14) ^^^
      sha1Schedule block (t - 16)).rotateLeft 1

/-- The functions of the standard. -/
def sha1Choose (t : Nat) (b c d : BitVec 32) : BitVec 32 :=
  if t < 20 then (b &&& c) ||| (~~~b &&& d)
  else if t < 40 then b ^^^ c ^^^ d
  else if t < 60 then (b &&& c) ||| (b &&& d) ||| (c &&& d)
  else b ^^^ c ^^^ d

/-- The constants of the rounds, as `unsigned long`. -/
def sha1K (w t : Nat) : BitVec w :=
  if t < 20 then 0x5A827999
  else if t < 40 then 0x6ED9EBA1
  else if t < 60 then 0x8F1BBCDC
  else 0xCA62C1D6

def sha1Round (word : BitVec 32) (t : Nat) (v : Sha1Words 32) : Sha1Words 32 :=
  ⟨v.a.rotateLeft 5 + sha1Choose t v.b v.c v.d + v.e + word + sha1K 32 t, v.a, v.b.rotateLeft 30,
    v.c, v.d⟩

def Sha1Words.add (v v' : Sha1Words 32) : Sha1Words 32 :=
  ⟨v.a + v'.a, v.b + v'.b, v.c + v'.c, v.d + v'.d, v.e + v'.e⟩

/-- The words after a block. -/
def sha1Compress (state : Sha1Words 32) (block : List UInt8) : Sha1Words 32 :=
  state.add ((List.range 80).foldl (fun v t => sha1Round (sha1Schedule block t) t v) state)

def sha1Start : Sha1Words 32 :=
  ⟨0x67452301, 0xEFCDAB89, 0x98BADCFE, 0x10325476, 0xC3D2E1F0⟩

/-- The bytes of a word, the most significant one first. -/
def beBytes (x : BitVec 32) : List UInt8 :=
  [UInt8.ofNat (x.toNat / 2 ^ 24), UInt8.ofNat (x.toNat / 2 ^ 16), UInt8.ofNat (x.toNat / 2 ^ 8),
    UInt8.ofNat x.toNat]

/-- What is appended to a message of `n` bytes: a bit, zeros, and the number of its bits. -/
def sha1Pad (n : Nat) : List UInt8 :=
  0x80 :: List.replicate ((119 - n % 64) % 64) 0 ++
    (beBytes (BitVec.ofNat 32 (8 * n / 2 ^ 32)) ++ beBytes (BitVec.ofNat 32 (8 * n)))

/-- The digest of a message as five words. -/
def sha1Digest (m : List UInt8) : Sha1Words 32 :=
  (feed sha1Compress 64 0 sha1Start (m ++ sha1Pad m.length)).1

/-! ## The code -/

/-- `sha1_context`, without the paddings for HMAC. -/
structure Sha1Context where
  total0 : BitVec 32
  total1 : BitVec 32
  state : Sha1Words 32
  buffer : List UInt8

/-- `sha1_starts`. The buffer is not set. -/
def sha1Starts (buffer : List UInt8) : Sha1Context := ⟨0, 0, sha1Start, buffer⟩

section Process

variable {w : Nat}

/-- The macro `GET_ULONG_BE`. -/
def getUlongBe (w : Nat) (b : List UInt8) (i : Nat) : BitVec w :=
  BitVec.ofNat w (b.getD i 0).toNat <<< 24 ||| BitVec.ofNat w (b.getD (i + 1) 0).toNat <<< 16 |||
    BitVec.ofNat w (b.getD (i + 2) 0).toNat <<< 8 ||| BitVec.ofNat w (b.getD (i + 3) 0).toNat

/-- The macro `S`. -/
def sha1S (x : BitVec w) (n : Nat) : BitVec w := x <<< n ||| (x &&& 0xFFFFFFFF) >>> (32 - n)

/-- The macro `F`, as it is defined at the line `t`. -/
def sha1F (t : Nat) (x y z : BitVec w) : BitVec w :=
  if t < 20 then z ^^^ (x &&& (y ^^^ z))
  else if t < 40 then x ^^^ y ^^^ z
  else if t < 60 then (x &&& y) ||| (z &&& (x ||| y))
  else x ^^^ y ^^^ z

/-- The macro `P`: the values that it gives to `e` and to `b`. -/
def sha1P (t : Nat) (a b c d e x : BitVec w) : BitVec w × BitVec w :=
  (e + (sha1S a 5 + sha1F t b c d + sha1K w t + x), sha1S b 30)

/-- The macro `R`, with the array `W` after it. -/
def sha1R (W : List (BitVec w)) (t : Nat) : BitVec w × List (BitVec w) :=
  let temp := W.getD ((t - 3) % 16) 0 ^^^ W.getD ((t - 8) % 16) 0 ^^^ W.getD ((t - 14) % 16) 0 ^^^
    W.getD (t % 16) 0
  let x := sha1S temp 1
  (x, W.set (t % 16) x)

/-- One of the eighty lines of `sha1_process`. Five lines have `A` to `E` in turn for `a` to `e`. -/
def sha1Line (s : Sha1Words w × List (BitVec w)) (t : Nat) : Sha1Words w × List (BitVec w) :=
  let v := s.1
  let (x, W) := if t < 16 then (s.2.getD t 0, s.2) else sha1R s.2 t
  match t % 5 with
  | 0 =>
    let (e, b) := sha1P t v.a v.b v.c v.d v.e x
    ({ v with e := e, b := b }, W)
  | 1 =>
    let (d, a) := sha1P t v.e v.a v.b v.c v.d x
    ({ v with d := d, a := a }, W)
  | 2 =>
    let (c, e) := sha1P t v.d v.e v.a v.b v.c x
    ({ v with c := c, e := e }, W)
  | 3 =>
    let (b, d) := sha1P t v.c v.d v.e v.a v.b x
    ({ v with b := b, d := d }, W)
  | _ =>
    let (a, c) := sha1P t v.b v.c v.d v.e v.a x
    ({ v with a := a, c := c }, W)

/-- A `uint32_t` as an `unsigned long`. -/
def Sha1Words.widen (w : Nat) (v : Sha1Words 32) : Sha1Words w :=
  ⟨v.a.setWidth w, v.b.setWidth w, v.c.setWidth w, v.d.setWidth w, v.e.setWidth w⟩

/-- An `unsigned long` as a `uint32_t`. -/
def Sha1Words.low (v : Sha1Words w) : Sha1Words 32 :=
  ⟨v.a.setWidth 32, v.b.setWidth 32, v.c.setWidth 32, v.d.setWidth 32, v.e.setWidth 32⟩

end Process

/-- `sha1_process`, on a machine with an `unsigned long` of `w` bits. -/
def sha1Process (w : Nat) (state : Sha1Words 32) (data : List UInt8) : Sha1Words 32 :=
  let W := (List.range 16).map fun i => getUlongBe w data (4 * i)
  let s := (List.range 80).foldl sha1Line (state.widen w, W)
  state.add s.1.low

/-- The loop of `sha1_update` over whole blocks. -/
def sha1Loop (w : Nat) : Nat → Sha1Words 32 → List UInt8 → Sha1Words 32
  | 0, state, _ => state
  | n + 1, state, input => sha1Loop w n (sha1Process w state (input.take 64)) (input.drop 64)

/-- `sha1_update`. -/
def sha1Update (w : Nat) (ctx : Sha1Context) (input : List UInt8) (ilen : Int) : Sha1Context :=
  if ilen ≤ 0 then ctx
  else
    let n := ilen.toNat
    let left := ctx.total0.toNat % 64
    let fill := 64 - left
    let total0 := ctx.total0 + BitVec.ofNat 32 n
    let total1 := if total0.toNat < n then ctx.total1 + 1 else ctx.total1
    if left ≠ 0 ∧ fill ≤ n then
      let buffer := copyTo ctx.buffer left input fill
      let state := sha1Process w ctx.state buffer
      let input := input.drop fill
      let n := n - fill
      let state := sha1Loop w (n / 64) state input
      let input := input.drop (n / 64 * 64)
      ⟨total0, total1, state, copyTo buffer 0 input (n % 64)⟩
    else
      let state := sha1Loop w (n / 64) ctx.state input
      let input := input.drop (n / 64 * 64)
      ⟨total0, total1, state, copyTo ctx.buffer left input (n % 64)⟩

/-- `sha1_padding`. -/
def sha1Padding : List UInt8 := 0x80 :: List.replicate 63 0

/-- `sha1_finish`: the words that are put to the output, one after the other. -/
def sha1Finish (w : Nat) (ctx : Sha1Context) : Sha1Words 32 :=
  let high := ctx.total0 >>> 29 ||| ctx.total1 <<< 3
  let low := ctx.total0 <<< 3
  let msglen := beBytes high ++ beBytes low
  let last := ctx.total0.toNat % 64
  let padn := if last < 56 then 56 - last else 120 - last
  let ctx := sha1Update w ctx sha1Padding padn
  let ctx := sha1Update w ctx msglen 8
  ctx.state

/-- `sha1`. `junk` is what the buffer of the context holds at its start. -/
def sha1 (w : Nat) (junk input : List UInt8) (ilen : Int) : Sha1Words 32 :=
  sha1Finish w (sha1Update w (sha1Starts junk) input ilen)

/-- `lhi_hash_sha1`: the first four bytes of the output, as a little-endian machine reads them. -/
def lhiHashSha1 (w : Nat) (junk : List UInt8) (mem : Nat → UInt8) (b : Nat) (len : UInt32) :
    UInt32 :=
  let ilen := (BitVec.ofNat 32 len.toNat).toInt
  leWord (beBytes (sha1 w junk (bytesAt mem b len.toNat) ilen).a)

/-! ## A block -/

section Block
variable {w : Nat} (hw : 32 ≤ w)
include hw

theorem low_sha1S {x : BitVec w} {n : Nat} (hn : n < 32) :
    (sha1S x n).setWidth 32 = (x.setWidth 32).rotateLeft n := by
  have hmask : ∀ i, (0xFFFFFFFF : Nat).testBit i = decide (i < 32) := fun i =>
    Nat.testBit_two_pow_sub_one 32 i
  refine BitVec.eq_of_getLsbD_eq fun i hi => ?_
  rw [sha1S, BitVec.getLsbD_setWidth, BitVec.getLsbD_or, BitVec.getLsbD_shiftLeft,
    BitVec.getLsbD_ushiftRight, BitVec.getLsbD_and, BitVec.getLsbD_rotateLeft,
    Nat.mod_eq_of_lt hn, BitVec.ofNat_eq_ofNat, BitVec.getLsbD_ofNat, hmask,
    BitVec.getLsbD_setWidth, BitVec.getLsbD_setWidth]
  by_cases h : i < n
  · have h' : 32 - n + i < 32 := by omega
    simp [hi, h, h', show 32 - n + i < w by omega]
  · have h' : ¬ 32 - n + i < 32 := by omega
    simp [hi, h, h', show i < w by omega, show i - n < 32 by omega]

theorem low_sha1K (t : Nat) : (sha1K w t).setWidth 32 = sha1K 32 t := by
  unfold sha1K
  split
  · exact BitVec.setWidth_ofNat_of_le hw _
  · split
    · exact BitVec.setWidth_ofNat_of_le hw _
    · split <;> exact BitVec.setWidth_ofNat_of_le hw _

omit hw in
/-- The macros of the code and the functions of the standard. -/
theorem low_sha1F (t : Nat) (x y z : BitVec w) :
    (sha1F t x y z).setWidth 32 = sha1Choose t (x.setWidth 32) (y.setWidth 32) (z.setWidth 32) := by
  unfold sha1F sha1Choose
  split
  · refine BitVec.eq_of_getLsbD_eq fun i hi => ?_
    simp only [BitVec.getLsbD_setWidth, BitVec.getLsbD_xor, BitVec.getLsbD_and, BitVec.getLsbD_or,
      BitVec.getLsbD_not, hi, decide_true, Bool.true_and]
    cases x.getLsbD i <;> cases y.getLsbD i <;> cases z.getLsbD i <;> rfl
  · split
    · simp only [BitVec.setWidth_xor]
    · split
      · refine BitVec.eq_of_getLsbD_eq fun i hi => ?_
        simp only [BitVec.getLsbD_setWidth, BitVec.getLsbD_and, BitVec.getLsbD_or, hi, decide_true,
          Bool.true_and]
        cases x.getLsbD i <;> cases y.getLsbD i <;> cases z.getLsbD i <;> rfl
      · simp only [BitVec.setWidth_xor]

omit hw in
/-- A byte in the place `k` of a word. -/
theorem byte_shiftLeft {v k : Nat} {x : UInt8} (h : k + 8 ≤ v) :
    (BitVec.ofNat v x.toNat <<< k).toNat = x.toNat * 2 ^ k := by
  have hx := x.toNat_lt
  have hlt : x.toNat * 2 ^ k < 2 ^ v :=
    calc x.toNat * 2 ^ k < 2 ^ 8 * 2 ^ k := (Nat.mul_lt_mul_right (Nat.two_pow_pos k)).mpr hx
      _ = 2 ^ (k + 8) := by rw [← Nat.pow_add, Nat.add_comm]
      _ ≤ 2 ^ v := Nat.pow_le_pow_right (by decide) h
  have hsmall : x.toNat < 2 ^ v := hx.trans_le (Nat.pow_le_pow_right (by decide) (by omega))
  rw [BitVec.toNat_shiftLeft, BitVec.toNat_ofNat, Nat.mod_eq_of_lt hsmall, Nat.shiftLeft_eq,
    Nat.mod_eq_of_lt hlt]

theorem low_getUlongBe (b : List UInt8) (i : Nat) :
    (getUlongBe w b i).setWidth 32 = beWord b i := by
  have hor {x y k : Nat} (hy : y < 2 ^ k) : x * 2 ^ k ||| y = x * 2 ^ k + y := by
    rw [← Nat.shiftLeft_eq, Nat.shiftLeft_add_eq_or_of_lt hy]
  have h0 := (b.getD i 0).toNat_lt
  have h1 := (b.getD (i + 1) 0).toNat_lt
  have h2 := (b.getD (i + 2) 0).toNat_lt
  have h3 := (b.getD (i + 3) 0).toNat_lt
  have hlast : (BitVec.ofNat w (b.getD (i + 3) 0).toNat).toNat = (b.getD (i + 3) 0).toNat := by
    have h := byte_shiftLeft (v := w) (k := 0) (x := b.getD (i + 3) 0) (by omega)
    rwa [BitVec.shiftLeft_zero, Nat.pow_zero, Nat.mul_one] at h
  refine BitVec.eq_of_toNat_eq ?_
  rw [BitVec.toNat_setWidth, getUlongBe, BitVec.toNat_or, BitVec.toNat_or, BitVec.toNat_or,
    byte_shiftLeft (by omega), byte_shiftLeft (by omega), byte_shiftLeft (by omega), hlast, beWord,
    BitVec.toNat_ofNat, Nat.or_assoc, Nat.or_assoc, hor (x := (b.getD (i + 2) 0).toNat) (by omega),
    hor (x := (b.getD (i + 1) 0).toNat) (by omega), hor (by omega), Nat.add_assoc, Nat.add_assoc]

/-- The variables that the line `t` has for `a` to `e`. -/
def Sha1Words.turned (v : Sha1Words w) (t : Nat) : Sha1Words w :=
  match t % 5 with
  | 0 => v
  | 1 => ⟨v.e, v.a, v.b, v.c, v.d⟩
  | 2 => ⟨v.d, v.e, v.a, v.b, v.c⟩
  | 3 => ⟨v.c, v.d, v.e, v.a, v.b⟩
  | _ => ⟨v.b, v.c, v.d, v.e, v.a⟩

/-- The word that the line `t` uses. -/
def sha1Word (W : List (BitVec w)) (t : Nat) : BitVec w × List (BitVec w) :=
  if t < 16 then (W.getD t 0, W) else sha1R W t

theorem low_sha1P {t : Nat} {a b c d e x : BitVec w} :
    (sha1P t a b c d e x).1.setWidth 32 =
        (a.setWidth 32).rotateLeft 5 +
          sha1Choose t (b.setWidth 32) (c.setWidth 32) (d.setWidth 32) + e.setWidth 32 +
          x.setWidth 32 + sha1K 32 t ∧
      (sha1P t a b c d e x).2.setWidth 32 = (b.setWidth 32).rotateLeft 30 := by
  have hadd (x y : BitVec w) : (x + y).setWidth 32 = x.setWidth 32 + y.setWidth 32 :=
    BitVec.setWidth_add _ _ hw
  refine ⟨?_, low_sha1S hw (by decide)⟩
  rw [sha1P, hadd, hadd, hadd, hadd, low_sha1S hw (by decide), low_sha1F, low_sha1K hw]
  ac_rfl

theorem sha1Line_eq {s : Sha1Words w × List (BitVec w)} {t : Nat} :
    (sha1Line s t).2 = (sha1Word s.2 t).2 ∧
      ((sha1Line s t).1.turned (t + 1)).low =
        sha1Round ((sha1Word s.2 t).1.setWidth 32) t (s.1.turned t).low := by
  obtain ⟨v, W⟩ := s
  have hp {a b c d e x : BitVec w} := low_sha1P hw (t := t) (a := a) (b := b) (c := c) (d := d)
    (e := e) (x := x)
  obtain h | h | h | h | h : t % 5 = 0 ∨ t % 5 = 1 ∨ t % 5 = 2 ∨ t % 5 = 3 ∨ t % 5 = 4 := by omega
  · have h' : (t + 1) % 5 = 1 := by omega
    simp [sha1Line, sha1Word, Sha1Words.turned, h, h', Sha1Words.low, sha1Round, hp]
  · have h' : (t + 1) % 5 = 2 := by omega
    simp [sha1Line, sha1Word, Sha1Words.turned, h, h', Sha1Words.low, sha1Round, hp]
  · have h' : (t + 1) % 5 = 3 := by omega
    simp [sha1Line, sha1Word, Sha1Words.turned, h, h', Sha1Words.low, sha1Round, hp]
  · have h' : (t + 1) % 5 = 4 := by omega
    simp [sha1Line, sha1Word, Sha1Words.turned, h, h', Sha1Words.low, sha1Round, hp]
  · have h' : (t + 1) % 5 = 0 := by omega
    simp [sha1Line, sha1Word, Sha1Words.turned, h, h', Sha1Words.low, sha1Round, hp]

/-- What the array `W` holds before the line `t`: the last sixteen words of the schedule. -/
structure Sha1Ring (block : List UInt8) (t : Nat) (W : List (BitVec w)) : Prop where
  length : W.length = 16
  word : ∀ j < max 16 t, max 16 t ≤ j + 16 →
    (W.getD (j % 16) 0).setWidth 32 = sha1Schedule block j

theorem Sha1Ring.start (block : List UInt8) :
    Sha1Ring block 0 ((List.range 16).map fun i => getUlongBe w block (4 * i)) where
  length := by rw [List.length_map, List.length_range]
  word j hj _ := by
    have hj : j < 16 := by omega
    rw [Nat.mod_eq_of_lt hj, sha1Schedule, if_pos hj, List.getD_eq_getElem?_getD, List.getElem?_map,
      List.getElem?_range hj]
    exact low_getUlongBe hw _ _

/-- The word of a line, and the array after it. -/
theorem Sha1Ring.step {block : List UInt8} {t : Nat} {W : List (BitVec w)}
    (h : Sha1Ring block t W) :
    (sha1Word W t).1.setWidth 32 = sha1Schedule block t ∧
      Sha1Ring block (t + 1) (sha1Word W t).2 := by
  by_cases ht : t < 16
  · have hword := h.word t (by omega) (by omega)
    rw [Nat.mod_eq_of_lt ht] at hword
    rw [sha1Word, if_pos ht]
    exact ⟨hword, h.length, fun j hj hle => h.word j (by omega) (by omega)⟩
  · have h3 := h.word (t - 3) (by omega) (by omega)
    have h8 := h.word (t - 8) (by omega) (by omega)
    have h14 := h.word (t - 14) (by omega) (by omega)
    have h16 := h.word (t - 16) (by omega) (by omega)
    rw [show (t - 16) % 16 = t % 16 by omega] at h16
    have hx : (sha1R W t).1.setWidth 32 = sha1Schedule block t := by
      rw [sha1R, sha1Schedule, if_neg ht]
      simp only [low_sha1S hw (show 1 < 32 by decide), BitVec.setWidth_xor, h3, h8, h14, h16]
    rw [sha1Word, if_neg ht]
    refine ⟨hx, by rw [sha1R, List.length_set, h.length], fun j hj hle => ?_⟩
    rw [sha1R, List.getD_eq_getElem?_getD, List.getElem?_set]
    by_cases hjt : j = t
    · subst hjt
      rw [if_pos rfl, if_pos (by rw [h.length]; omega)]
      exact hx
    · rw [if_neg (by omega), ← List.getD_eq_getElem?_getD]
      exact h.word j (by omega) (by omega)

/-- The eighty lines. -/
theorem lines_eq {block : List UInt8} {v : Sha1Words w} {W : List (BitVec w)}
    (h : Sha1Ring block 0 W) (n : Nat) :
    let s := (List.range n).foldl sha1Line (v, W)
    Sha1Ring block n s.2 ∧ (s.1.turned n).low =
      (List.range n).foldl (fun v t => sha1Round (sha1Schedule block t) t v) v.low := by
  induction n with
  | zero => exact ⟨h, rfl⟩
  | succ n ih =>
    obtain ⟨hring, hwords⟩ := ih
    obtain ⟨hW, hv⟩ := sha1Line_eq hw (s := (List.range n).foldl sha1Line (v, W)) (t := n)
    obtain ⟨hword, hring⟩ := hring.step hw
    simp only [List.range_succ, List.foldl_append, List.foldl_cons, List.foldl_nil]
    rw [hW, hv, hword, hwords]
    exact ⟨hring, rfl⟩

theorem low_widen (v : Sha1Words 32) : (v.widen w).low = v := by
  simp only [Sha1Words.widen, Sha1Words.low, BitVec.setWidth_setWidth_of_le _ hw,
    BitVec.setWidth_eq]

/-- The code computes the function of the standard, whatever the high bits of its variables hold. -/
theorem sha1Process_eq (state : Sha1Words 32) (data : List UInt8) :
    sha1Process w state data = sha1Compress state data := by
  have h := (lines_eq hw (v := state.widen w) (Sha1Ring.start hw data) 80).2
  rw [low_widen hw] at h
  rw [sha1Compress, ← h]
  rfl

end Block

/-! ## A message -/

/-- What a context holds after the message `m`. -/
structure Sha1Context.Took (ctx : Sha1Context) (m : List UInt8) : Prop where
  total : ctx.total1.toNat * 2 ^ 32 + ctx.total0.toNat = m.length % 2 ^ 64
  buffered : Buffered sha1Compress 64 0 sha1Start m ctx.state ctx.buffer (m.length % 64)

theorem Sha1Context.Took.left {ctx : Sha1Context} {m : List UInt8} (h : ctx.Took m) :
    ctx.total0.toNat % 64 = m.length % 64 := by
  have htotal := h.total
  omega

theorem sha1Starts_took {junk : List UInt8} (h : junk.length = 64) :
    (sha1Starts junk).Took [] where
  total := by simp [sha1Starts]
  buffered := .start (by decide) h

theorem sha1Loop_eq {w : Nat} (hw : 32 ≤ w) {n : Nat} {state : Sha1Words 32} {x y : List UInt8}
    (h : n * 64 ≤ x.length) :
    sha1Loop w n state (x ++ y) = (feedN sha1Compress 64 n state x).1 := by
  suffices hall : ∀ input, sha1Loop w n state input = (feedN sha1Compress 64 n state input).1 by
    rw [hall, feedN_append h]
  induction n generalizing state x with
  | zero => exact fun _ => rfl
  | succ n ih =>
    intro input
    rw [sha1Loop, feedN, sha1Process_eq hw, ih (x := x) (by omega)]

/-- Addition with carry. -/
theorem carry {a b n : Nat} (ha : a < 2 ^ 32) (hb : b < 2 ^ 32) (hn : n < 2 ^ 32) :
    (if (b + n) % 2 ^ 32 < n then (a + 1) % 2 ^ 32 else a) * 2 ^ 32 + (b + n) % 2 ^ 32 =
      (a * 2 ^ 32 + b + n) % 2 ^ 64 := by
  rcases Nat.lt_or_ge (b + n) (2 ^ 32) with hlt | hge
  · have hsmall : a * 2 ^ 32 + b + n < 2 ^ 64 := by omega
    rw [Nat.mod_eq_of_lt hlt, if_neg (by omega), Nat.mod_eq_of_lt hsmall, Nat.add_assoc]
  · obtain ⟨c, hc⟩ := Nat.exists_eq_add_of_le hge
    have hlow : c < 2 ^ 32 := by omega
    have hsum : a * 2 ^ 32 + b + n = (a + 1) * 2 ^ 32 + c := by omega
    rw [hc, Nat.add_mod_left, Nat.mod_eq_of_lt hlow, if_pos (by omega), hsum]
    rcases Nat.lt_or_ge (a + 1) (2 ^ 32) with hlast | hlast
    · have hsmall : (a + 1) * 2 ^ 32 + c < 2 ^ 64 := by omega
      rw [Nat.mod_eq_of_lt hlast, Nat.mod_eq_of_lt hsmall]
    · have hlast : a + 1 = 2 ^ 32 := by omega
      have hfull : 2 ^ 32 * 2 ^ 32 + c = 2 ^ 64 + c := by rw [← Nat.pow_add]
      have hsmall : c < 2 ^ 64 := hlow.trans (by decide)
      rw [hlast, Nat.mod_self, Nat.zero_mul, Nat.zero_add, hfull, Nat.add_mod_left,
        Nat.mod_eq_of_lt hsmall]

/-- The counters after `n` bytes more. -/
theorem total_add {total0 total1 : BitVec 32} {l n : Nat} (hn : n < 2 ^ 32)
    (h : total1.toNat * 2 ^ 32 + total0.toNat = l % 2 ^ 64) :
    (if (total0 + BitVec.ofNat 32 n).toNat < n then total1 + 1 else total1).toNat * 2 ^ 32 +
      (total0 + BitVec.ofNat 32 n).toNat = (l + n) % 2 ^ 64 := by
  have hsum : (total0 + BitVec.ofNat 32 n).toNat = (total0.toNat + n) % 2 ^ 32 := by
    rw [BitVec.toNat_add, BitVec.toNat_ofNat, Nat.mod_eq_of_lt hn]
  have hone : (total1 + 1).toNat = (total1.toNat + 1) % 2 ^ 32 := BitVec.toNat_add _ _
  rw [hsum, ← Nat.mod_add_mod l, ← h, ← carry total1.isLt total0.isLt hn, apply_ite BitVec.toNat,
    hone]

/-- The blocks of the input, and the bytes after them in the buffer. -/
theorem took_of_feed {w : Nat} (hw : 32 ≤ w) {total0 total1 : BitVec 32} {state : Sha1Words 32}
    {buffer m x y : List UInt8} (htotal : total1.toNat * 2 ^ 32 + total0.toNat = m.length % 2 ^ 64)
    (hbuffer : buffer.length = 64) (hlen : m.length % 64 = x.length % 64)
    (hfeed : feed sha1Compress 64 0 sha1Start m = feed sha1Compress 64 0 state x) :
    Sha1Context.Took ⟨total0, total1, sha1Loop w (x.length / 64) state (x ++ y),
      copyTo buffer 0 ((x ++ y).drop (x.length / 64 * 64)) (x.length % 64)⟩ m := by
  have hrest : x.length - x.length / 64 * 64 = x.length % 64 := by omega
  have hbuffered := Buffered.of_feed (y := y) (Nat.zero_le 1) (by decide) hbuffer hfeed
  rw [Nat.sub_zero, hrest] at hbuffered
  refine ⟨htotal, ?_⟩
  rwa [sha1Loop_eq hw (Nat.div_mul_le_self _ _), hlen]

/-- A call keeps what the context says, however the message is cut. -/
theorem Sha1Context.Took.update {w : Nat} (hw : 32 ≤ w) {ctx : Sha1Context} {m x y : List UInt8}
    (h : ctx.Took m) (hx : x.length < 2 ^ 31) :
    (sha1Update w ctx (x ++ y) x.length).Took (m ++ x) := by
  have hlen : (m ++ x).length = m.length + x.length := List.length_append
  have htotal := total_add (n := x.length) (by omega) h.total
  rw [← hlen] at htotal
  have hbuffer := h.buffered.length
  unfold sha1Update
  rw [Int.toNat_natCast, h.left]
  split
  next hzero =>
    have hnil : x = [] := List.length_eq_zero_iff.mp (by omega)
    rwa [hnil, List.append_nil]
  dsimp only
  split
  next hfull =>
    -- the buffer is filled, and it is a block
    obtain ⟨hne, hle⟩ := hfull
    obtain ⟨hcopy, hfeed⟩ := h.buffered.fill (x := x) (y := y) (by decide) (by omega)
    have hdrop : (x.drop (64 - m.length % 64)).length = x.length - (64 - m.length % 64) :=
      List.length_drop
    have hblock : (copyTo ctx.buffer (m.length % 64) (x ++ y) (64 - m.length % 64)).length = 64 := by
      rw [hcopy, List.length_append, h.buffered.length_take, List.length_take]
      omega
    rw [sha1Process_eq hw, List.drop_append_of_le_length hle, ← hdrop]
    exact took_of_feed hw htotal hblock (by omega) hfeed
  next hfull =>
    by_cases hzero : m.length % 64 = 0
    · -- the buffer is empty
      have hfeed := h.buffered.feed_append (x := x) (by decide)
      rw [hzero, List.take_zero, List.nil_append] at hfeed
      rw [hzero]
      exact took_of_feed hw htotal hbuffer (by omega) hfeed
    · -- the input goes to the buffer, which it does not fill
      have hlt : m.length % 64 + x.length < 64 := by omega
      have hmod : (m ++ x).length % 64 = m.length % 64 + x.length := by omega
      have hsmall : x.length / 64 = 0 := by omega
      have hkeep := h.buffered.keep (x := x) (y := y) (by decide) hlt.le hlt
      refine ⟨htotal, ?_⟩
      rw [hsmall, Nat.zero_mul, List.drop_zero, Nat.mod_eq_of_lt (show x.length < 64 by omega), hmod]
      exact hkeep

/-- The number of bits, from the counters of the bytes. -/
theorem bits_eq {total0 total1 : BitVec 32} {l : Nat}
    (h : total1.toNat * 2 ^ 32 + total0.toNat = l % 2 ^ 64) :
    total0 >>> 29 ||| total1 <<< 3 = BitVec.ofNat 32 (8 * l / 2 ^ 32) ∧
      total0 <<< 3 = BitVec.ofNat 32 (8 * l) := by
  have h0 := total0.isLt
  have h1 := total1.isLt
  constructor <;> refine BitVec.eq_of_toNat_eq ?_
  · have hsmall : total0.toNat / 2 ^ 29 < 2 ^ 3 := by omega
    have hmod : total1.toNat * 2 ^ 3 % 2 ^ 32 = total1.toNat % 2 ^ 29 * 2 ^ 3 := by omega
    rw [BitVec.toNat_or, BitVec.toNat_ushiftRight, BitVec.toNat_shiftLeft, BitVec.toNat_ofNat,
      Nat.shiftRight_eq_div_pow, Nat.shiftLeft_eq, hmod, Nat.or_comm, ← Nat.shiftLeft_eq,
      ← Nat.shiftLeft_add_eq_or_of_lt hsmall, Nat.shiftLeft_eq]
    omega
  · rw [BitVec.toNat_shiftLeft, BitVec.toNat_ofNat, Nat.shiftLeft_eq]
    omega

/-- What `sha1_finish` appends is the padding of the standard. -/
theorem sha1Pad_eq {ctx : Sha1Context} {m : List UInt8} (h : ctx.Took m) :
    let last := ctx.total0.toNat % 64
    sha1Padding.take (if last < 56 then 56 - last else 120 - last) ++
      (beBytes (ctx.total0 >>> 29 ||| ctx.total1 <<< 3) ++ beBytes (ctx.total0 <<< 3)) =
        sha1Pad m.length := by
  have hlast : (if m.length % 64 < 56 then 56 - m.length % 64 else 120 - m.length % 64) =
      (119 - m.length % 64) % 64 + 1 := by
    split <;> omega
  have hmin : min ((119 - m.length % 64) % 64) 63 = (119 - m.length % 64) % 64 := by omega
  obtain ⟨hhigh, hlow⟩ := bits_eq h.total
  dsimp only
  rw [h.left, hlast, hhigh, hlow, sha1Pad, sha1Padding, List.take_succ_cons, List.take_replicate,
    hmin, List.cons_append]

theorem sha1Finish_eq {w : Nat} (hw : 32 ≤ w) {ctx : Sha1Context} {m : List UInt8}
    (h : ctx.Took m) : sha1Finish w ctx = sha1Digest m := by
  have hpad := sha1Pad_eq h
  rw [sha1Finish]
  dsimp only at hpad ⊢
  generalize hn : (if ctx.total0.toNat % 64 < 56 then 56 - ctx.total0.toNat % 64
    else 120 - ctx.total0.toNat % 64) = padn at *
  have hle : padn ≤ 64 := by
    rw [← hn]
    split <;> omega
  generalize hbits : beBytes (ctx.total0 >>> 29 ||| ctx.total1 <<< 3) ++
    beBytes (ctx.total0 <<< 3) = msglen at *
  have hlength : msglen.length = 8 := by
    rw [← hbits]
    rfl
  have htake : (sha1Padding.take padn).length = padn := by
    rw [List.length_take]
    exact Nat.min_eq_left hle
  have hone := h.update hw (x := sha1Padding.take padn) (y := sha1Padding.drop padn) (by omega)
  rw [List.take_append_drop, htake] at hone
  have htwo := hone.update hw (x := msglen) (y := []) (by omega)
  rw [List.append_nil, List.append_assoc, hpad, hlength] at htwo
  rw [sha1Digest, htwo.buffered.feed]
  rfl

/-- The digest of a message that comes in any pieces. -/
theorem sha1_stream {w : Nat} (hw : 32 ≤ w) {junk : List UInt8} (hjunk : junk.length = 64)
    (pieces : List (List UInt8)) (h : ∀ x ∈ pieces, x.length < 2 ^ 31) :
    sha1Finish w (pieces.foldl (fun ctx x => sha1Update w ctx x x.length) (sha1Starts junk)) =
      sha1Digest pieces.flatten := by
  suffices hall : ∀ ctx m, Sha1Context.Took ctx m →
      (pieces.foldl (fun ctx x => sha1Update w ctx x x.length) ctx).Took (m ++ pieces.flatten) from
    sha1Finish_eq hw (hall _ [] (sha1Starts_took hjunk))
  induction pieces with
  | nil =>
    intro ctx m hctx
    rwa [List.flatten_nil, List.append_nil]
  | cons x pieces ih =>
    intro ctx m hctx
    have hnext := hctx.update hw (y := []) (h x (by simp))
    rw [List.append_nil] at hnext
    rw [List.flatten_cons, ← List.append_assoc]
    exact ih (fun x hx => h x (by simp [hx])) _ _ hnext

example : sha1 64 (List.replicate 64 7) [97, 98, 99] 3 =
    ⟨0xA9993E36, 0x4706816A, 0xBA3E2571, 0x7850C26C, 0x9CD0D89D⟩ := by
  decide +kernel

/-- The first piece fills a block and begins the next one, and the third one fills that. -/
theorem sha1_stream_three :
    sha1Finish 64 ([List.replicate 70 97, [98, 99], List.replicate 60 100].foldl
      (fun ctx x => sha1Update 64 ctx x x.length) (sha1Starts (List.replicate 64 7))) =
        sha1Digest (List.replicate 70 97 ++ ([98, 99] ++ List.replicate 60 100)) :=
  sha1_stream (by decide) rfl [List.replicate 70 97, [98, 99], List.replicate 60 100] (by
    simp only [List.forall_mem_cons, List.length_replicate]
    exact ⟨by decide, by decide, by decide, nofun⟩)

/-- The hash of a key, and what becomes of a key that is longer than an `int` can say. -/
theorem lhiHashSha1_eq {w : Nat} (hw : 32 ≤ w) {junk : List UInt8} (hjunk : junk.length = 64)
    (mem : Nat → UInt8) (b : Nat) (len : UInt32) : lhiHashSha1 w junk mem b len =
      leWord (beBytes (sha1Digest
        (if len.toNat < 2 ^ 31 then bytesAt mem b len.toNat else [])).a) := by
  have hstart := sha1Starts_took hjunk
  have hint : (BitVec.ofNat 32 len.toNat).toInt =
      if len.toNat < 2 ^ 31 then (len.toNat : Int) else len.toNat - 2 ^ 32 := by
    have hlt := len.toNat_lt
    rw [BitVec.toInt_eq_toNat_cond, BitVec.toNat_ofNat, Nat.mod_eq_of_lt hlt]
    split <;> split <;> first | rfl | omega
  rw [lhiHashSha1, sha1, hint]
  split
  next hlt =>
    have htook := hstart.update hw (x := bytesAt mem b len.toNat) (y := [])
      (by rwa [length_bytesAt])
    rw [List.append_nil, List.nil_append, length_bytesAt] at htook
    rw [sha1Finish_eq hw htook]
  next hge =>
    have hneg : (len.toNat : Int) - 2 ^ 32 ≤ 0 := by
      have hlt := len.toNat_lt
      omega
    rw [sha1Update, if_pos hneg, sha1Finish_eq hw hstart]

end Hashish
