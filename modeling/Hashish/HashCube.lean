import Hashish.ByteHashes

/-!
# CubeHash (`hash_func_cube.c`)

A block is one byte, so each byte of the key is followed by the eight rounds of `transform`. The code
counts bits: the number of bits of a key is `len * 8`, a product of 32-bit words.

* `lhiHashCube_eq`: only the first `len % 2 ^ 29` bytes of a key have a part in its hash.
-/

namespace Hashish

open Hashish.Lib

/-- `hashState`. -/
structure CubeState where
  hashbitlen : Int
  pos : Nat
  x : List UInt32

def cubehashRounds : Nat := 8
def cubehashBlockbytes : Nat := 1

section Transform

/-- The macro `ROTATE`. -/
def cubeRotate (a b : UInt32) : UInt32 := a <<< b ||| a >>> (32 - b)

/-- `for i < 16: x[i + 16] += x[i]`. -/
def cubeAdd (x : List UInt32) : List UInt32 :=
  x.take 16 ++ (List.range 16).map fun i => x.getD (i + 16) 0 + x.getD i 0

/-- `for i < 16: y[i ^ s] = x[i]`, and then `for i < 16: x[i] = ROTATE(y[i], n)`. -/
def cubeTurn (s : Nat) (n : UInt32) (x : List UInt32) : List UInt32 :=
  ((List.range 16).map fun i => cubeRotate (x.getD (i ^^^ s) 0) n) ++ x.drop 16

/-- `for i < 16: x[i] ^= x[i + 16]`. -/
def cubeXor (x : List UInt32) : List UInt32 :=
  ((List.range 16).map fun i => x.getD i 0 ^^^ x.getD (i + 16) 0) ++ x.drop 16

/-- `for i < 16: y[i ^ s] = x[i + 16]`, and then `for i < 16: x[i + 16] = y[i]`. -/
def cubeSwap (s : Nat) (x : List UInt32) : List UInt32 :=
  x.take 16 ++ (List.range 16).map fun i => x.getD ((i ^^^ s) + 16) 0

/-- The body of the loop of `transform`. -/
def cubeRound (x : List UInt32) : List UInt32 :=
  let x := cubeSwap 2 (cubeXor (cubeTurn 8 7 (cubeAdd x)))
  cubeSwap 1 (cubeXor (cubeTurn 4 11 (cubeAdd x)))

/-- `transform`. -/
def cubeTransform (x : List UInt32) : List UInt32 := cubeRound^[cubehashRounds] x

end Transform

/-- `Init`. -/
def cubeInit (hashbitlen : Int) : Except Int CubeState :=
  if hashbitlen < 8 then .error 2
  else if 512 < hashbitlen then .error 2
  else if hashbitlen ≠ 8 * (hashbitlen / 8) then .error 2
  else
    let x := (((List.replicate 32 0).set 0 (UInt32.ofNat (hashbitlen / 8).toNat)).set 1
      (UInt32.ofNat cubehashBlockbytes)).set 2 (UInt32.ofNat cubehashRounds)
    .ok ⟨hashbitlen, 0, cubeTransform^[10] x⟩

/-- A byte that is shifted to its place and put to the word at `pos`. -/
def CubeState.put (s : CubeState) (u : UInt32) : CubeState :=
  let u := u <<< UInt32.ofNat (8 * (s.pos / 8 % 4))
  { s with x := s.x.modify (s.pos / 32) (· ^^^ u) }

/-- The body of the loop of `Update`. -/
def cubeByte (s : CubeState) (c : UInt8) : CubeState :=
  let s := s.put c.toUInt32
  let pos := s.pos + 8
  if pos = 8 * cubehashBlockbytes then { s with x := cubeTransform s.x, pos := 0 }
  else { s with pos := pos }

/-- `Update`. -/
def cubeUpdate (mem : Nat → UInt8) (s : CubeState) (data databitlen : Nat) : CubeState :=
  let s := eachByte mem cubeByte data (databitlen / 8) s
  if 0 < databitlen % 8 then
    let s := s.put (mem (data + databitlen / 8)).toUInt32
    { s with pos := s.pos + databitlen % 8 }
  else s

/-- `Final`: the bytes of the hash value. -/
def cubeFinal (s : CubeState) : List UInt8 :=
  let s := s.put (UInt32.ofNat (128 / 2 ^ (s.pos % 8)))
  let x := cubeTransform s.x
  let x := cubeTransform^[10] (x.modify 31 (· ^^^ 1))
  (List.range (s.hashbitlen / 8).toNat).map fun i =>
    (x.getD (i / 4) 0 >>> UInt32.ofNat (8 * (i % 4))).toUInt8

/-- `Hash`. -/
def cubeHash (mem : Nat → UInt8) (hashbitlen : Int) (data databitlen : Nat) :
    Except Int (List UInt8) :=
  match cubeInit hashbitlen with
  | .error _ => .error 2
  | .ok s => .ok (cubeFinal (cubeUpdate mem s data databitlen))

def cubeBlockSize : Int := 28

/-- `lhi_hash_cube`. -/
def lhiHashCube (mem : Nat → UInt8) (data : Nat) (len : UInt32) : UInt32 :=
  match cubeHash mem (cubeBlockSize * 8) data (len * 8).toNat with
  | .error _ => 0
  | .ok hash => leWord (hash.take 4)

/-! ## Byte after byte -/

/-- The words after the byte `c`. -/
def cubeAbsorb (x : List UInt32) (c : UInt8) : List UInt32 :=
  cubeTransform (x.modify 0 (· ^^^ c.toUInt32))

/-- The words before the first byte, for a hash value of 224 bits. -/
def cubeStart : List UInt32 := cubeTransform^[10] ([28, 1, 8] ++ List.replicate 29 0)

/-- The words that give the hash value. -/
def cubeFinish (x : List UInt32) : List UInt32 :=
  cubeTransform^[10] ((cubeAbsorb x 128).modify 31 (· ^^^ 1))

theorem CubeState.put_zero {s : CubeState} (h : s.pos = 0) (u : UInt32) :
    s.put u = { s with x := s.x.modify 0 (· ^^^ u) } := by
  have hshift : u <<< (0 : UInt32) = u := UInt32.shiftLeft_zero
  rw [CubeState.put, h, Nat.zero_div, Nat.zero_mod, Nat.mul_zero, show UInt32.ofNat 0 = 0 from rfl,
    hshift]

/-- A byte is a block, so the position is again zero. -/
theorem cubeByte_eq {s : CubeState} (h : s.pos = 0) (c : UInt8) :
    cubeByte s c = { s with x := cubeAbsorb s.x c } := by
  rw [cubeByte, CubeState.put_zero h]
  dsimp only
  rw [h, if_pos (by decide), cubeAbsorb]

theorem foldl_cubeByte {s : CubeState} (h : s.pos = 0) (m : List UInt8) :
    m.foldl cubeByte s = { s with x := m.foldl cubeAbsorb s.x } := by
  induction m generalizing s with
  | nil => rfl
  | cons c m ih => rw [List.foldl_cons, cubeByte_eq h, ih (by exact h), List.foldl_cons]

theorem cubeFinal_eq {s : CubeState} (h : s.pos = 0) :
    cubeFinal s = (List.range (s.hashbitlen / 8).toNat).map fun i =>
      ((cubeFinish s.x).getD (i / 4) 0 >>> UInt32.ofNat (8 * (i % 4))).toUInt8 := by
  have hone : UInt32.ofNat (128 / 2 ^ (s.pos % 8)) = (128 : UInt8).toUInt32 := by
    rw [h]
    rfl
  rw [cubeFinal, hone, CubeState.put_zero h]
  rfl

/-- The hash of a key: of its length only the low 29 bits count. -/
theorem lhiHashCube_eq (mem : Nat → UInt8) (data : Nat) (len : UInt32) :
    lhiHashCube mem data len =
      (cubeFinish ((bytesAt mem data (len.toNat % 2 ^ 29)).foldl cubeAbsorb cubeStart)).getD 0 0 := by
  have hinit : cubeInit (cubeBlockSize * 8) = .ok ⟨224, 0, cubeStart⟩ := rfl
  have hupdate : cubeUpdate mem ⟨224, 0, cubeStart⟩ data (len * 8).toNat =
      ⟨224, 0, (bytesAt mem data (len.toNat % 2 ^ 29)).foldl cubeAbsorb cubeStart⟩ := by
    rw [cubeUpdate, toNat_mul_eight, Nat.mul_div_cancel_left _ (by decide), Nat.mul_mod_right,
      if_neg (by decide), eachByte_eq, foldl_cubeByte rfl]
  rw [lhiHashCube, cubeHash, hinit]
  dsimp only
  rw [hupdate, cubeFinal_eq rfl]
  exact leWord_bytes _

end Hashish
