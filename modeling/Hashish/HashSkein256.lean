import Hashish.ByteHashes
import Hashish.Lib.BlockStream

/-!
# Skein-256 (`hash_func_skein256.c`)

`Skein_256_Update` keeps up to a whole block in its buffer, for the last block of a message is
processed with another tweak.

* `skeinBlock_eq`: the loop of eight rounds is the cipher Threefish-256.
* `skein256Init_eq`: the constants of `Skein_256_Init` are what the configuration block gives.
* `skein_stream`: the hash value is that of the standard, in whatever pieces the message comes.
* `lhiHashSkein256_eq`: only the first `len % 2 ^ 29` bytes of a key have a part in its hash.
-/

namespace Hashish

open Hashish.Lib

/-! ## The function of the standard -/

/-- Four words: the chaining variables `X`, or those of a block. -/
structure SkeinWords where
  x0 : UInt64
  x1 : UInt64
  x2 : UInt64
  x3 : UInt64
deriving DecidableEq, Repr

/-- The bytes of a word, the least significant one first. -/
def leBytes (x : UInt64) : List UInt8 := (List.range 8).map fun i => UInt8.ofNat (x.toNat / 256 ^ i)

def SkeinWords.bytes (v : SkeinWords) : List UInt8 :=
  leBytes v.x0 ++ leBytes v.x1 ++ leBytes v.x2 ++ leBytes v.x3

def SkeinWords.add (v v' : SkeinWords) : SkeinWords :=
  ⟨v.x0 + v'.x0, v.x1 + v'.x1, v.x2 + v'.x2, v.x3 + v'.x3⟩

def SkeinWords.xor (v v' : SkeinWords) : SkeinWords :=
  ⟨v.x0 ^^^ v'.x0, v.x1 ^^^ v'.x1, v.x2 ^^^ v'.x2, v.x3 ^^^ v'.x3⟩

/-- The key words, the fifth of which is their parity. -/
def threefishKey (K : SkeinWords) (i : Nat) : UInt64 :=
  [K.x0, K.x1, K.x2, K.x3,
    K.x0 ^^^ K.x1 ^^^ K.x2 ^^^ K.x3 ^^^ UInt64.ofNat (2 ^ 64 / 3)].getD (i % 5) 0

/-- The tweak words, the third of which is their parity. -/
def threefishTweak (t0 t1 : UInt64) (i : Nat) : UInt64 := [t0, t1, t0 ^^^ t1].getD (i % 3) 0

/-- The subkey `s`. -/
def threefishSubkey (K : SkeinWords) (t0 t1 : UInt64) (s : Nat) : SkeinWords :=
  ⟨threefishKey K s, threefishKey K (s + 1) + threefishTweak t0 t1 s,
    threefishKey K (s + 2) + threefishTweak t0 t1 (s + 1), threefishKey K (s + 3) + UInt64.ofNat s⟩

/-- The rotations of a round. -/
def threefishRotations (d : Nat) : Nat × Nat :=
  [(5, 56), (36, 28), (13, 46), (58, 44), (26, 20), (53, 35), (11, 42), (59, 50)].getD (d % 8)
    (0, 0)

def rotateLeft64 (x : UInt64) (n : Nat) : UInt64 := ⟨x.toBitVec.rotateLeft n⟩

/-- Each pair of words is mixed, and the words change places. -/
def threefishMix (rot : Nat × Nat) (v : SkeinWords) : SkeinWords :=
  let y0 := v.x0 + v.x1
  let y2 := v.x2 + v.x3
  ⟨y0, rotateLeft64 v.x3 rot.2 ^^^ y2, y2, rotateLeft64 v.x1 rot.1 ^^^ y0⟩

/-- A round. Before every fourth one a subkey is added. -/
def threefishRound (K : SkeinWords) (t0 t1 : UInt64) (v : SkeinWords) (d : Nat) : SkeinWords :=
  threefishMix (threefishRotations d)
    (if d % 4 = 0 then v.add (threefishSubkey K t0 t1 (d / 4)) else v)

/-- The first `n` rounds. -/
def threefishRounds (K : SkeinWords) (t0 t1 : UInt64) (v : SkeinWords) (n : Nat) : SkeinWords :=
  (List.range n).foldl (threefishRound K t0 t1) v

/-- The cipher Threefish-256. -/
def threefish256 (K : SkeinWords) (t0 t1 : UInt64) (v : SkeinWords) : SkeinWords :=
  (threefishRounds K t0 t1 v 72).add (threefishSubkey K t0 t1 18)

/-- The words of the block `i` of a message. Bytes that are not there count as zero. -/
def ubiBlock (m : List UInt8) (i : Nat) : SkeinWords :=
  let word (j : Nat) := UInt64.ofNat (leNat ((m.drop (32 * i + 8 * j)).take 8))
  ⟨word 0, word 1, word 2, word 3⟩

/-- The block `i` in the mode UBI. The tweak says how many bytes there are up to its end (modulo
`2 ^ 64`), of what type the message is, and whether the block is the first or the last one. -/
def ubiStep (type : Nat) (m : List UInt8) (H : SkeinWords) (i : Nat) : SkeinWords :=
  let position := min (32 * (i + 1)) m.length
  let flags := (if i = 0 then 2 ^ 62 else 0) + (if i = (m.length - 1) / 32 then 2 ^ 63 else 0)
  (threefish256 H (UInt64.ofNat position) (UInt64.ofNat (2 ^ 56 * type + flags)) (ubiBlock m i)).xor
    (ubiBlock m i)

/-- The mode UBI. An empty message has one block. -/
def ubi (type : Nat) (G : SkeinWords) (m : List UInt8) : SkeinWords :=
  (List.range ((m.length - 1) / 32 + 1)).foldl (ubiStep type m) G

/-- The configuration: the schema, its version, and the length of the hash value. -/
def skeinConfigBytes (hashBitLen : Nat) : List UInt8 :=
  [0x53, 0x48, 0x41, 0x33, 1, 0, 0, 0] ++ leBytes (UInt64.ofNat hashBitLen) ++ List.replicate 16 0

/-- The hash value of a message: the message from the chaining variables that the configuration
gives, and then as many output blocks as it takes. -/
def skeinDigest (hashBitLen : Nat) (m : List UInt8) : List UInt8 :=
  let G := ubi 48 (ubi 4 ⟨0, 0, 0, 0⟩ (skeinConfigBytes hashBitLen)) m
  let byteCnt := (hashBitLen + 7) / 8
  ((List.range ((byteCnt + 31) / 32)).flatMap fun i =>
    (ubi 63 G (leBytes (UInt64.ofNat i))).bytes).take byteCnt

/-! ## The block function -/

/-- `SKEIN_T1_FLAG_FIRST` and `SKEIN_T1_FLAG_FINAL`. -/
def skeinFlagFirst : UInt64 := (1 : UInt64) <<< 62
def skeinFlagFinal : UInt64 := (1 : UInt64) <<< 63

/-- `SKEIN_T1_BLK_TYPE_KEY`, `_CFG`, `_MSG` and `_OUT`. -/
def skeinTypeKey : UInt64 := 0
def skeinTypeCfg : UInt64 := (4 : UInt64) <<< 56
def skeinTypeMsg : UInt64 := (48 : UInt64) <<< 56
def skeinTypeOut : UInt64 := (63 : UInt64) <<< 56

/-- `SKEIN_KS_PARITY`. -/
def skeinKsParity : UInt64 := 0x5555555555555555

/-- The chaining variables and the two tweak words. -/
structure SkeinChain where
  X : SkeinWords
  T0 : UInt64
  T1 : UInt64
deriving DecidableEq, Repr

/-- `Skein_Get64_LSB_First` for one word. -/
def skeinGet64 (b : List UInt8) (i : Nat) : UInt64 := UInt64.ofNat (leNat ((b.drop (8 * i)).take 8))

def skeinBlockWords (b : List UInt8) : SkeinWords :=
  ⟨skeinGet64 b 0, skeinGet64 b 1, skeinGet64 b 2, skeinGet64 b 3⟩

/-- The words that a mix step gives to `X##p0` and `X##p1`. -/
def skeinMix (a b n : UInt64) : UInt64 × UInt64 :=
  let a := a + b
  let b := b <<< n ||| b >>> (64 - n)
  (a, b ^^^ a)

/-- `Round256(0, 1, 2, 3)`. -/
def round256 (v : SkeinWords) (rot0 rot1 : UInt64) : SkeinWords :=
  let (x0, x1) := skeinMix v.x0 v.x1 rot0
  let (x2, x3) := skeinMix v.x2 v.x3 rot1
  ⟨x0, x1, x2, x3⟩

/-- `Round256(0, 3, 2, 1)`. -/
def round256' (v : SkeinWords) (rot0 rot1 : UInt64) : SkeinWords :=
  let (x0, x3) := skeinMix v.x0 v.x3 rot0
  let (x2, x1) := skeinMix v.x2 v.x1 rot1
  ⟨x0, x1, x2, x3⟩

/-- The macro `I256`. -/
def skeinInject (ks ts : List UInt64) (v : SkeinWords) (R : Nat) : SkeinWords :=
  ⟨v.x0 + ks.getD ((R + 1) % 5) 0,
    v.x1 + (ks.getD ((R + 2) % 5) 0 + ts.getD ((R + 1) % 3) 0),
    v.x2 + (ks.getD ((R + 3) % 5) 0 + ts.getD ((R + 2) % 3) 0),
    v.x3 + (ks.getD ((R + 4) % 5) 0 + UInt64.ofNat R + 1)⟩

/-- The macro `R256_8_rounds`. -/
def skein8Rounds (ks ts : List UInt64) (v : SkeinWords) (R : Nat) : SkeinWords :=
  let v := round256 v 5 56
  let v := round256' v 36 28
  let v := round256 v 13 46
  let v := round256' v 58 44
  let v := skeinInject ks ts v (2 * R)
  let v := round256 v 26 20
  let v := round256' v 53 35
  let v := round256 v 11 42
  let v := round256' v 59 50
  skeinInject ks ts v (2 * R + 1)

/-- The body of the loop of `Skein_256_Process_Block`. -/
def skeinBlock (c : SkeinChain) (blk : List UInt8) (byteCntAdd : UInt64) : SkeinChain :=
  let t0 := c.T0 + byteCntAdd
  let ts := [t0, c.T1, t0 ^^^ c.T1]
  let X := c.X
  let ks := [X.x0, X.x1, X.x2, X.x3, X.x0 ^^^ X.x1 ^^^ X.x2 ^^^ X.x3 ^^^ skeinKsParity]
  let w := skeinBlockWords blk
  let v : SkeinWords := ⟨w.x0 + X.x0, w.x1 + X.x1 + t0, w.x2 + X.x2 + c.T1, w.x3 + X.x3⟩
  let v := (List.range 9).foldl (skein8Rounds ks ts) v
  ⟨⟨v.x0 ^^^ w.x0, v.x1 ^^^ w.x1, v.x2 ^^^ w.x2, v.x3 ^^^ w.x3⟩, t0, c.T1 &&& ~~~skeinFlagFirst⟩

/-- `Skein_256_Process_Block` for `blkCnt` blocks. -/
def skein256ProcessBlock (byteCntAdd : UInt64) : Nat → SkeinChain → List UInt8 → SkeinChain
  | 0, c, _ => c
  | n + 1, c, blk => skein256ProcessBlock byteCntAdd n (skeinBlock c (blk.take 32) byteCntAdd)
      (blk.drop 32)

/-! ## Contexts -/

/-- `Skein_256_Ctxt_t`. -/
structure Skein256Ctxt where
  hashBitLen : Nat
  bCnt : Nat
  chain : SkeinChain
  b : List UInt8

/-- The bytes of a word, the least significant one first. -/
def skeinPut64 (x : UInt64) : List UInt8 :=
  (List.range 8).map fun i => (x >>> UInt64.ofNat (8 * i)).toUInt8

/-- `SKEIN_SCHEMA_VER`. -/
def skeinSchemaVer : UInt64 := 0x0000000133414853

/-- The configuration block, from which the chaining variables start. -/
def skeinConfig (X : SkeinWords) (hashBitLen : Nat) (treeInfo : UInt64) : SkeinWords :=
  (skeinBlock ⟨X, 0, skeinFlagFirst ||| (skeinTypeCfg ||| skeinFlagFinal)⟩
    (skeinPut64 skeinSchemaVer ++ skeinPut64 (UInt64.ofNat hashBitLen) ++ skeinPut64 treeInfo ++
      List.replicate 8 0) 32).X

/-- The state after `Skein_Start_New_Type(ctx, MSG)`. -/
def skeinStartMsg (X : SkeinWords) : SkeinChain := ⟨X, 0, skeinFlagFirst ||| skeinTypeMsg⟩

/-- `Skein_256_Init`. `junk` is what the buffer holds. -/
def skein256Init (junk : List UInt8) (hashBitLen : Nat) : Skein256Ctxt :=
  let X : SkeinWords :=
    if hashBitLen = 256 then
      ⟨0x388512680E660046, 0x4B72D5DEC5A8FF01, 0x281A9298CA5EB3A5, 0x54CA5249F46070C4⟩
    else if hashBitLen = 224 then
      ⟨0xB80929699AE0F431, 0xD340DC14A06929DC, 0xAE866594BDE4DC5A, 0x339767C25A60EA1D⟩
    else if hashBitLen = 160 then
      ⟨0xA38A0D80A3687723, 0xB73CDB6A5963FFC9, 0x9633E8EA07A1B447, 0xCA0ED09EC9529C22⟩
    else if hashBitLen = 128 then
      ⟨0x302F7EA23D7FE2E1, 0xADE4683A6913752B, 0x975CFABEF208AB0A, 0x2AF4BA95F831F55B⟩
    else skeinConfig ⟨0, 0, 0, 0⟩ hashBitLen 0
  ⟨hashBitLen, 0, skeinStartMsg X, junk⟩

/-- The end of `Skein_256_Update`: bytes that go to the buffer. -/
def skeinRest (ctx : Skein256Ctxt) (msg : List UInt8) (msgByteCnt : Nat) : Skein256Ctxt :=
  if msgByteCnt ≠ 0 then
    { ctx with b := copyTo ctx.b ctx.bCnt msg msgByteCnt, bCnt := ctx.bCnt + msgByteCnt }
  else ctx

/-- The blocks that `Skein_256_Update` takes from the message, and the end. -/
def skeinDirect (ctx : Skein256Ctxt) (msg : List UInt8) (msgByteCnt : Nat) : Skein256Ctxt :=
  if 32 < msgByteCnt then
    let n := (msgByteCnt - 1) / 32
    let ctx := { ctx with chain := skein256ProcessBlock 32 n ctx.chain msg }
    skeinRest ctx (msg.drop (n * 32)) (msgByteCnt - n * 32)
  else skeinRest ctx msg msgByteCnt

/-- `Skein_256_Update`. -/
def skein256Update (ctx : Skein256Ctxt) (msg : List UInt8) (msgByteCnt : Nat) : Skein256Ctxt :=
  if 32 < msgByteCnt + ctx.bCnt then
    if ctx.bCnt ≠ 0 then
      let n := 32 - ctx.bCnt
      let b := if n ≠ 0 then copyTo ctx.b ctx.bCnt msg n else ctx.b
      let ctx := { ctx with b := b, bCnt := 0, chain := skein256ProcessBlock 32 1 ctx.chain b }
      skeinDirect ctx (msg.drop n) (msgByteCnt - n)
    else skeinDirect ctx msg msgByteCnt
  else skeinRest ctx msg msgByteCnt

/-- The block `i` of the output of `Skein_256_Final`. -/
def skeinOutput (X : SkeinWords) (i : Nat) : List UInt8 :=
  let X := (skeinBlock ⟨X, 0, skeinFlagFirst ||| (skeinTypeOut ||| skeinFlagFinal)⟩
    (skeinPut64 (UInt64.ofNat i) ++ List.replicate 24 0) 8).X
  skeinPut64 X.x0 ++ skeinPut64 X.x1 ++ skeinPut64 X.x2 ++ skeinPut64 X.x3

/-- `Skein_256_Final`. -/
def skein256Final (ctx : Skein256Ctxt) : List UInt8 :=
  let chain := { ctx.chain with T1 := ctx.chain.T1 ||| skeinFlagFinal }
  let b := if ctx.bCnt < 32 then ctx.b.take ctx.bCnt ++ List.replicate (32 - ctx.bCnt) 0 else ctx.b
  let chain := skein256ProcessBlock (UInt64.ofNat ctx.bCnt) 1 chain b
  let byteCnt := (ctx.hashBitLen + 7) / 8
  (List.range ((byteCnt + 31) / 32)).flatMap fun i =>
    (skeinOutput chain.X i).take (byteCnt - i * 32)

/-- `Skein_256_InitExt`. -/
def skein256InitExt (junk : List UInt8) (hashBitLen : Nat) (treeInfo : UInt64) (key : List UInt8) :
    Skein256Ctxt :=
  let X : SkeinWords :=
    if key.length = 0 then ⟨0, 0, 0, 0⟩
    else
      let ctx : Skein256Ctxt := ⟨256, 0, ⟨⟨0, 0, 0, 0⟩, 0, skeinFlagFirst ||| skeinTypeKey⟩, junk⟩
      skeinBlockWords (skein256Final (skein256Update ctx key key.length))
  ⟨hashBitLen, 0, skeinStartMsg (skeinConfig X hashBitLen treeInfo),
    if key.length = 0 then junk else List.replicate 32 0⟩

/-- `SKEIN_T1_FLAG_BIT_PAD`. -/
def skeinFlagBitPad : UInt64 := (1 : UInt64) <<< 55

/-- `Update`. The bits of a byte that is not whole are padded. -/
def skeinUpdate (mem : Nat → UInt8) (ctx : Skein256Ctxt) (data databitlen : Nat) : Skein256Ctxt :=
  if databitlen % 8 = 0 then
    skein256Update ctx (bytesAt mem data (databitlen / 8)) (databitlen / 8)
  else
    let bCnt := databitlen / 8 + 1
    let mask : UInt8 := 1 <<< UInt8.ofNat (7 - databitlen % 8)
    let b := mem (data + (bCnt - 1)) &&& (0 - mask) ||| mask
    let ctx := skein256Update ctx (bytesAt mem data (bCnt - 1)) (bCnt - 1)
    let ctx := skein256Update ctx [b] 1
    { ctx with chain.T1 := ctx.chain.T1 ||| skeinFlagBitPad }

/-- `Hash` for a hash value of 256 bits. `junk` is what the buffer of the context holds. -/
def skeinHash (junk : List UInt8) (mem : Nat → UInt8) (data databitlen : Nat) : List UInt8 :=
  skein256Final (skeinUpdate mem (skein256Init junk 256) data databitlen)

/-- `lhi_hash_skein256`. -/
def lhiHashSkein256 (junk : List UInt8) (mem : Nat → UInt8) (data : Nat) (len : UInt32) : UInt32 :=
  leWord ((skeinHash junk mem data (len * 8).toNat).take 4)

/-! ## A block -/

theorem skeinMix_eq {n : Nat} (h₀ : 0 < n) (hn : n < 64) (a b : UInt64) :
    skeinMix a b (UInt64.ofNat n) = (a + b, rotateLeft64 b n ^^^ (a + b)) := by
  have hleft : ((UInt64.ofNat n).toBitVec % 64).toNat = n := by
    have := UInt64.toNat_ofNat_of_lt' (n := n) (lt_trans hn (by decide))
    simp only [BitVec.toNat_umod, UInt64.toNat_toBitVec, this]
    exact Nat.mod_eq_of_lt hn
  have hright : ((64 - UInt64.ofNat n).toBitVec % 64).toNat = 64 - n := by
    have := UInt64.toNat_ofNat_of_lt' (n := n) (lt_trans hn (by decide))
    have hle : UInt64.ofNat n ≤ 64 := by
      rw [UInt64.le_iff_toNat_le, this]
      exact hn.le
    simp only [BitVec.toNat_umod, UInt64.toNat_toBitVec, UInt64.toNat_sub_of_le _ _ hle, this]
    exact Nat.mod_eq_of_lt (Nat.sub_lt (by decide) h₀)
  have hrot : b <<< UInt64.ofNat n ||| b >>> (64 - UInt64.ofNat n) = rotateLeft64 b n := by
    rw [← UInt64.toBitVec_inj, rotateLeft64, BitVec.rotateLeft_def, Nat.mod_eq_of_lt hn,
      UInt64.toBitVec_or, UInt64.toBitVec_shiftLeft, UInt64.toBitVec_shiftRight,
      BitVec.shiftLeft_eq', BitVec.ushiftRight_eq', hleft, hright]
  simp only [skeinMix, hrot]

theorem skeinPut64_eq (x : UInt64) : skeinPut64 x = leBytes x := by
  refine List.map_congr_left fun i hi => UInt8.toNat_inj.mp ?_
  have hi : i < 8 := List.mem_range.mp hi
  have hshift : (UInt64.ofNat (8 * i)).toNat % 64 = 8 * i := by
    rw [UInt64.toNat_ofNat']
    omega
  rw [UInt64.toNat_toUInt8, UInt64.toNat_shiftRight, hshift, Nat.shiftRight_eq_div_pow,
    UInt8.toNat_ofNat', Nat.pow_mul]

/-- Two rounds of the code: the words stay in their places. -/
theorem round256_pair (v : SkeinWords) {r0 r1 r0' r1' : Nat} (h0 : 0 < r0 ∧ r0 < 64)
    (h1 : 0 < r1 ∧ r1 < 64) (h0' : 0 < r0' ∧ r0' < 64) (h1' : 0 < r1' ∧ r1' < 64) :
    round256' (round256 v (UInt64.ofNat r0) (UInt64.ofNat r1)) (UInt64.ofNat r0')
      (UInt64.ofNat r1') = threefishMix (r0', r1') (threefishMix (r0, r1) v) := by
  simp only [round256, round256', skeinMix_eq h0.1 h0.2, skeinMix_eq h1.1 h1.2,
    skeinMix_eq h0'.1 h0'.2, skeinMix_eq h1'.1 h1'.2, threefishMix]

section Rounds

variable {K : SkeinWords} {t0 t1 : UInt64} {ks ts : List UInt64} {v : SkeinWords}

theorem skeinInject_eq (hks : ∀ i, ks.getD (i % 5) 0 = threefishKey K i)
    (hts : ∀ i, ts.getD (i % 3) 0 = threefishTweak t0 t1 i) (s : Nat) :
    skeinInject ks ts v s = v.add (threefishSubkey K t0 t1 (s + 1)) := by
  simp only [skeinInject, SkeinWords.add, threefishSubkey, hks, hts, UInt64.ofNat_add,
    UInt64.add_assoc]
  rfl

theorem threefishRounds_succ (n : Nat) : threefishRounds K t0 t1 v (n + 1) =
    threefishRound K t0 t1 (threefishRounds K t0 t1 v n) n := by
  rw [threefishRounds, List.range_succ, List.foldl_append, ← threefishRounds, List.foldl_cons,
    List.foldl_nil]

variable (K t0 t1 v) in
/-- Four rounds, after a subkey. -/
theorem threefishRounds_four (q : Nat) : threefishRounds K t0 t1 v (4 * q + 4) =
    threefishMix (threefishRotations (4 * q + 3)) (threefishMix (threefishRotations (4 * q + 2))
      (threefishMix (threefishRotations (4 * q + 1)) (threefishMix (threefishRotations (4 * q))
        ((threefishRounds K t0 t1 v (4 * q)).add (threefishSubkey K t0 t1 q))))) := by
  have hadd : ∀ u, threefishRound K t0 t1 u (4 * q) =
      threefishMix (threefishRotations (4 * q)) (u.add (threefishSubkey K t0 t1 q)) := by
    intro u
    rw [threefishRound, if_pos (Nat.mul_mod_right 4 q), Nat.mul_div_cancel_left q (by decide)]
  have hmix : ∀ r u, 0 < r → r < 4 → threefishRound K t0 t1 u (4 * q + r) =
      threefishMix (threefishRotations (4 * q + r)) u := by
    intro r u hr hr4
    rw [threefishRound, if_neg (by omega)]
  rw [threefishRounds_succ, hmix 3 _ (by decide) (by decide), threefishRounds_succ,
    hmix 2 _ (by decide) (by decide), threefishRounds_succ, hmix 1 _ (by decide) (by decide),
    threefishRounds_succ, hadd]

theorem threefishRotations_add (n d : Nat) :
    threefishRotations (8 * n + d) = threefishRotations d := by
  rw [threefishRotations, Nat.mul_add_mod, threefishRotations]

/-- Eight rounds of the code, with the subkeys after the fourth and the eighth one. -/
theorem skein8Rounds_eq (hks : ∀ i, ks.getD (i % 5) 0 = threefishKey K i)
    (hts : ∀ i, ts.getD (i % 3) 0 = threefishTweak t0 t1 i) (R : Nat) :
    skein8Rounds ks ts
        ((threefishRounds K t0 t1 v (8 * R)).add (threefishSubkey K t0 t1 (2 * R))) R =
      (threefishRounds K t0 t1 v (8 * (R + 1))).add (threefishSubkey K t0 t1 (2 * (R + 1))) := by
  have hfirst := threefishRounds_four K t0 t1 v (2 * R)
  have hsecond := threefishRounds_four K t0 t1 v (2 * R + 1)
  rw [show 4 * (2 * R) = 8 * R by omega] at hfirst
  rw [show 4 * (2 * R + 1) = 8 * R + 4 by omega] at hsecond
  simp only [Nat.add_assoc, Nat.reduceAdd] at hsecond
  have h01 (v) : round256' (round256 v 5 56) 36 28 =
      threefishMix (36, 28) (threefishMix (5, 56) v) :=
    round256_pair v (by decide) (by decide) (by decide) (by decide)
  have h23 (v) : round256' (round256 v 13 46) 58 44 =
      threefishMix (58, 44) (threefishMix (13, 46) v) :=
    round256_pair v (by decide) (by decide) (by decide) (by decide)
  have h45 (v) : round256' (round256 v 26 20) 53 35 =
      threefishMix (53, 35) (threefishMix (26, 20) v) :=
    round256_pair v (by decide) (by decide) (by decide) (by decide)
  have h67 (v) : round256' (round256 v 11 42) 59 50 =
      threefishMix (59, 50) (threefishMix (11, 42) v) :=
    round256_pair v (by decide) (by decide) (by decide) (by decide)
  rw [skein8Rounds]
  simp only [h01, h23, h45, h67, skeinInject_eq hks hts]
  rw [Nat.mul_succ 8 R, hsecond, hfirst, Nat.mul_succ 2 R]
  simp only [threefishRotations_add]
  rw [show threefishRotations (8 * R) = threefishRotations 0 from threefishRotations_add R 0]
  rfl

/-- The loop of the code, which adds the first subkey before it. -/
theorem skeinRounds_eq (hks : ∀ i, ks.getD (i % 5) 0 = threefishKey K i)
    (hts : ∀ i, ts.getD (i % 3) 0 = threefishTweak t0 t1 i) (n : Nat) :
    (List.range n).foldl (skein8Rounds ks ts) (v.add (threefishSubkey K t0 t1 0)) =
      (threefishRounds K t0 t1 v (8 * n)).add (threefishSubkey K t0 t1 (2 * n)) := by
  induction n with
  | zero => rfl
  | succ n ih =>
    rw [List.range_succ, List.foldl_append, ih]
    exact skein8Rounds_eq hks hts n

end Rounds

/-- A block of the code is one application of the cipher. -/
theorem skeinBlock_eq (c : SkeinChain) (blk : List UInt8) (n : UInt64) : skeinBlock c blk n =
    ⟨(threefish256 c.X (c.T0 + n) c.T1 (skeinBlockWords blk)).xor (skeinBlockWords blk), c.T0 + n,
      c.T1 &&& ~~~skeinFlagFirst⟩ := by
  obtain ⟨X, T0, T1⟩ := c
  have hparity : skeinKsParity = UInt64.ofNat (2 ^ 64 / 3) := by decide
  have hlast : threefishKey X (0 + 3) + UInt64.ofNat 0 = X.x3 := UInt64.add_zero _
  have hstart : (⟨(skeinBlockWords blk).x0 + X.x0, (skeinBlockWords blk).x1 + X.x1 + (T0 + n),
      (skeinBlockWords blk).x2 + X.x2 + T1, (skeinBlockWords blk).x3 + X.x3⟩ : SkeinWords) =
      (skeinBlockWords blk).add (threefishSubkey X (T0 + n) T1 0) := by
    simp only [SkeinWords.add, threefishSubkey, UInt64.add_assoc, hlast]
    rfl
  simp only [skeinBlock, hstart, hparity]
  rw [skeinRounds_eq (fun i => (rfl : _ = threefishKey X i))
    (fun i => (rfl : _ = threefishTweak (T0 + n) T1 i)) 9]
  rfl

/-- The words of a block that has been taken from a message and padded. -/
theorem skeinBlockWords_eq (m : List UInt8) (i k : Nat) :
    skeinBlockWords ((m.drop (32 * i)).take 32 ++ List.replicate k 0) = ubiBlock m i := by
  have hword : ∀ j, j < 4 → skeinGet64 ((m.drop (32 * i)).take 32 ++ List.replicate k 0) j =
      UInt64.ofNat (leNat ((m.drop (32 * i + 8 * j)).take 8)) := by
    intro j hj
    have hmin : min 8 (32 - 8 * j) = 8 := by omega
    rw [skeinGet64, List.drop_append, List.take_append, List.drop_replicate, List.take_replicate,
      leNat_append_zeros, List.drop_take, List.take_take, List.drop_drop, hmin]
  rw [skeinBlockWords, hword 0 (by decide), hword 1 (by decide), hword 2 (by decide),
    hword 3 (by decide)]
  rfl

/-! ## The constants -/

theorem skein256Init_chain (junk : List UInt8) (hashBitLen : Nat) :
    (skein256Init junk hashBitLen).chain =
      skeinStartMsg (skeinConfig ⟨0, 0, 0, 0⟩ hashBitLen 0) := by
  have h256 : skeinConfig ⟨0, 0, 0, 0⟩ 256 0 =
      ⟨0x388512680E660046, 0x4B72D5DEC5A8FF01, 0x281A9298CA5EB3A5, 0x54CA5249F46070C4⟩ := by
    decide +kernel
  have h224 : skeinConfig ⟨0, 0, 0, 0⟩ 224 0 =
      ⟨0xB80929699AE0F431, 0xD340DC14A06929DC, 0xAE866594BDE4DC5A, 0x339767C25A60EA1D⟩ := by
    decide +kernel
  have h160 : skeinConfig ⟨0, 0, 0, 0⟩ 160 0 =
      ⟨0xA38A0D80A3687723, 0xB73CDB6A5963FFC9, 0x9633E8EA07A1B447, 0xCA0ED09EC9529C22⟩ := by
    decide +kernel
  have h128 : skeinConfig ⟨0, 0, 0, 0⟩ 128 0 =
      ⟨0x302F7EA23D7FE2E1, 0xADE4683A6913752B, 0x975CFABEF208AB0A, 0x2AF4BA95F831F55B⟩ := by
    decide +kernel
  unfold skein256Init
  dsimp only
  split
  next h => rw [h, h256]
  next =>
    split
    next h => rw [h, h224]
    next =>
      split
      next h => rw [h, h160]
      next =>
        split
        next h => rw [h, h128]
        next => rfl

/-- The constants are what the configuration block gives. -/
theorem skein256Init_eq (junk : List UInt8) (hashBitLen : Nat) :
    skein256Init junk hashBitLen = skein256InitExt junk hashBitLen 0 [] := by
  have hchain := skein256Init_chain junk hashBitLen
  calc skein256Init junk hashBitLen
    _ = ⟨hashBitLen, 0, (skein256Init junk hashBitLen).chain, junk⟩ := rfl
    _ = skein256InitExt junk hashBitLen 0 [] := by
      rw [hchain]
      rfl

/-! ## A message -/

/-- A block that is not the last one. -/
def skeinFull (c : SkeinChain) (blk : List UInt8) : SkeinChain := skeinBlock c blk 32

section Ubi

variable {m : List UInt8} {G : SkeinWords}

/-- The chain before the block `i` of a message. -/
def msgChain (G : SkeinWords) (m : List UInt8) (i : Nat) : SkeinChain :=
  ⟨(List.range i).foldl (ubiStep 48 m) G, UInt64.ofNat (32 * i),
    if i = 0 then skeinFlagFirst ||| skeinTypeMsg else skeinTypeMsg⟩

/-- The tweak word of a block that is not the last one. -/
theorem msgChain_flags (i : Nat) : (msgChain G m i).T1 =
    UInt64.ofNat (2 ^ 56 * 48 + ((if i = 0 then 2 ^ 62 else 0) + 0)) := by
  simp only [msgChain]
  split
  · decide
  · decide

theorem skeinFull_msgChain {i : Nat} (hi : i < (m.length - 1) / 32) :
    skeinFull (msgChain G m i) ((m.drop (32 * i)).take 32) = msgChain G m (i + 1) := by
  have hwords := skeinBlockWords_eq m i 0
  rw [List.replicate_zero, List.append_nil] at hwords
  have hposition : (msgChain G m i).T0 + 32 = UInt64.ofNat (min (32 * (i + 1)) m.length) := by
    rw [Nat.min_eq_left (by omega), Nat.mul_succ, UInt64.ofNat_add]
    rfl
  have hnext : (msgChain G m i).T1 &&& ~~~skeinFlagFirst = (msgChain G m (i + 1)).T1 := by
    simp only [msgChain, if_neg i.succ_ne_zero]
    split
    · decide
    · decide
  rw [skeinFull, skeinBlock_eq, hwords, hnext, hposition, msgChain_flags]
  simp only [msgChain, List.range_succ, List.foldl_append, List.foldl_cons, List.foldl_nil, ubiStep,
    if_neg (Nat.ne_of_lt hi)]
  rw [Nat.min_eq_left (by omega)]

theorem feedN_msgChain {n i : Nat} (h : i + n ≤ (m.length - 1) / 32) :
    (feedN skeinFull 32 n (msgChain G m i) (m.drop (32 * i))).1 = msgChain G m (i + n) := by
  induction n generalizing i with
  | zero => rfl
  | succ n ih =>
    rw [feedN, skeinFull_msgChain (by omega), List.drop_drop, ← Nat.mul_succ, ih (by omega),
      Nat.succ_add_eq_add_succ]

/-- The last block of a message. -/
theorem skeinBlock_last {i : Nat} (hi : i = (m.length - 1) / 32) :
    (skeinBlock { msgChain G m i with T1 := (msgChain G m i).T1 ||| skeinFlagFinal }
      (m.drop (32 * i) ++ List.replicate (32 - (m.drop (32 * i)).length) 0)
      (UInt64.ofNat (m.drop (32 * i)).length)).X = ubi 48 G m := by
  have hlen : (m.drop (32 * i)).length = m.length - 32 * i := List.length_drop
  have hwords := skeinBlockWords_eq m i (32 - (m.drop (32 * i)).length)
  rw [List.take_of_length_le (by omega)] at hwords
  have hposition : (msgChain G m i).T0 + UInt64.ofNat (m.drop (32 * i)).length =
      UInt64.ofNat (min (32 * (i + 1)) m.length) := by
    rw [Nat.min_eq_right (by omega), msgChain, ← UInt64.ofNat_add, hlen,
      Nat.add_sub_cancel' (by omega)]
  have hflags : (msgChain G m i).T1 ||| skeinFlagFinal =
      UInt64.ofNat (2 ^ 56 * 48 + ((if i = 0 then 2 ^ 62 else 0) + 2 ^ 63)) := by
    simp only [msgChain]
    split
    · decide
    · decide
  rw [skeinBlock_eq, hwords, hposition, hflags, ubi, ← hi]
  simp only [msgChain, List.range_succ, List.foldl_append, List.foldl_cons, List.foldl_nil, ubiStep,
    if_pos hi]

/-- The blocks of a message, the last one with its own tag. -/
theorem feed_ubi {c : SkeinChain} {last : List UInt8}
    (hfeed : feed skeinFull 32 1 (skeinStartMsg G) m = (c, last)) :
    (skeinBlock { c with T1 := c.T1 ||| skeinFlagFinal }
      (last ++ List.replicate (32 - last.length) 0) (UInt64.ofNat last.length)).X = ubi 48 G m := by
  have hchain := feedN_msgChain (G := G) (m := m) (n := (m.length - 1) / 32) (i := 0) (by omega)
  have hrest := feed_rest (f := skeinFull) (B := 32) (k := 1) (s := skeinStartMsg G) (m := m)
  rw [Nat.zero_add] at hchain
  rw [hfeed, Nat.mul_comm] at hrest
  have hc : c = msgChain G m ((m.length - 1) / 32) := (congrArg Prod.fst hfeed).symm.trans hchain
  have hlast : last = m.drop (32 * ((m.length - 1) / 32)) := hrest
  rw [hc, hlast]
  exact skeinBlock_last rfl

end Ubi

/-- A message of one block. -/
theorem ubi_block {type : Nat} {G : SkeinWords} {m : List UInt8} (h : m.length ≤ 32) (k : Nat) :
    ubi type G m = (threefish256 G (UInt64.ofNat m.length)
      (UInt64.ofNat (2 ^ 56 * type + (2 ^ 62 + 2 ^ 63)))
      (skeinBlockWords (m ++ List.replicate k 0))).xor
        (skeinBlockWords (m ++ List.replicate k 0)) := by
  have hlast : (m.length - 1) / 32 = 0 := by omega
  have hwords := skeinBlockWords_eq m 0 k
  rw [Nat.mul_zero, List.drop_zero, List.take_of_length_le h] at hwords
  have hmin : min (32 * (0 + 1)) m.length = m.length := Nat.min_eq_right (by omega)
  rw [ubi, hlast]
  simp only [List.range_succ, List.range_zero, List.nil_append, List.foldl_cons, List.foldl_nil,
    ubiStep, hlast, if_true, hwords, hmin]

theorem length_leBytes (x : UInt64) : (leBytes x).length = 8 := by
  rw [leBytes, List.length_map, List.length_range]

theorem skeinOutput_eq (G : SkeinWords) (i : Nat) :
    skeinOutput G i = (ubi 63 G (leBytes (UInt64.ofNat i))).bytes := by
  have hlen := length_leBytes (UInt64.ofNat i)
  have hflags : skeinFlagFirst ||| (skeinTypeOut ||| skeinFlagFinal) =
      UInt64.ofNat (2 ^ 56 * 63 + (2 ^ 62 + 2 ^ 63)) := by decide
  rw [skeinOutput, skeinBlock_eq, ubi_block (by omega) 24, hlen, hflags]
  simp only [skeinPut64_eq, UInt64.zero_add]
  rfl

theorem skeinConfig_eq (hashBitLen : Nat) :
    skeinConfig ⟨0, 0, 0, 0⟩ hashBitLen 0 = ubi 4 ⟨0, 0, 0, 0⟩ (skeinConfigBytes hashBitLen) := by
  have hlen : (skeinConfigBytes hashBitLen).length = 32 := by
    simp [skeinConfigBytes, length_leBytes]
  have hbytes : skeinPut64 skeinSchemaVer ++ skeinPut64 (UInt64.ofNat hashBitLen) ++ skeinPut64 0 ++
      List.replicate 8 0 = skeinConfigBytes hashBitLen := by
    rw [skeinPut64_eq (UInt64.ofNat hashBitLen), skeinConfigBytes]
    have hschema : skeinPut64 skeinSchemaVer = [0x53, 0x48, 0x41, 0x33, 1, 0, 0, 0] := by decide
    have hzero : skeinPut64 0 ++ List.replicate 8 0 = List.replicate 16 0 := by decide
    rw [hschema, List.append_assoc _ (skeinPut64 0), hzero]
  have hflags : skeinFlagFirst ||| (skeinTypeCfg ||| skeinFlagFinal) =
      UInt64.ofNat (2 ^ 56 * 4 + (2 ^ 62 + 2 ^ 63)) := by decide
  rw [skeinConfig, hbytes, skeinBlock_eq, ubi_block hlen.le 0, hlen, hflags, List.replicate_zero,
    List.append_nil]
  rfl

theorem flatMap_take {f : Nat → List UInt8} (hf : ∀ i, (f i).length = 32) (n l : Nat) :
    ((List.range n).flatMap fun i => (f i).take (l - i * 32)) =
      ((List.range n).flatMap f).take l := by
  induction n with
  | zero => simp
  | succ n ih =>
    have hlen : ((List.range n).flatMap f).length = n * 32 := by
      rw [List.length_flatMap]
      simp [hf]
    rw [List.range_succ, List.flatMap_append, List.flatMap_append, ih, List.take_append, hlen]
    simp

/-- What a context holds after the message `m`. -/
structure Skein256Ctxt.Took (ctx : Skein256Ctxt) (bits : Nat) (m : List UInt8) : Prop where
  hashBitLen : ctx.hashBitLen = bits
  buffered : Buffered skeinFull 32 1 (skein256Init [] bits).chain m ctx.chain ctx.b ctx.bCnt

theorem skein256ProcessBlock_eq {n : Nat} {c : SkeinChain} {blk : List UInt8} :
    skein256ProcessBlock 32 n c blk = (feedN skeinFull 32 n c blk).1 := by
  induction n generalizing c blk with
  | zero => rfl
  | succ n ih => rw [skein256ProcessBlock, ih, feedN, skeinFull]

theorem skein256Init_took {junk : List UInt8} (h : junk.length = 32) (hashBitLen : Nat) :
    (skein256Init junk hashBitLen).Took hashBitLen [] :=
  ⟨rfl, .start (by decide) h⟩

section Update

variable {ctx : Skein256Ctxt} {bits n : Nat} {m x : List UInt8}

theorem skeinRest_eq : skeinRest ctx x n =
    { ctx with b := copyTo ctx.b ctx.bCnt x n, bCnt := ctx.bCnt + n } := by
  unfold skeinRest
  split
  next => rfl
  next h => rw [not_not.mp h, copyTo_zero, Nat.add_zero]

theorem skeinDirect_eq : skeinDirect ctx x n =
    skeinRest { ctx with chain := skein256ProcessBlock 32 ((n - 1) / 32) ctx.chain x }
      (x.drop ((n - 1) / 32 * 32)) (n - (n - 1) / 32 * 32) := by
  unfold skeinDirect
  split
  next => rfl
  next h =>
    have hzero : (n - 1) / 32 = 0 := by omega
    rw [hzero, Nat.zero_mul, List.drop_zero, Nat.sub_zero, skein256ProcessBlock]

/-- What is left of a message, with an empty buffer. -/
theorem skeinDirect_took (hbits : ctx.hashBitLen = bits) (hb : ctx.b.length = 32)
    (hcnt : ctx.bCnt = 0)
    (hfeed : feed skeinFull 32 1 (skein256Init [] bits).chain m =
      feed skeinFull 32 1 ctx.chain x) : (skeinDirect ctx x x.length).Took bits m := by
  have hall := Buffered.of_feed (y := []) (le_refl 1) (by decide) hb hfeed
  rw [List.append_nil] at hall
  rw [skeinDirect_eq, skeinRest_eq, hcnt, Nat.zero_add, skein256ProcessBlock_eq]
  exact ⟨hbits, hall⟩

/-- A call keeps what the context says, however the message is cut. -/
theorem Skein256Ctxt.Took.update (h : ctx.Took bits m) :
    (skein256Update ctx x x.length).Took bits (m ++ x) := by
  have hle := h.buffered.le
  have hb := h.buffered.length
  unfold skein256Update
  split
  next hlt =>
    split
    next hcnt =>
      -- the buffer is filled, and it is not the last block
      obtain ⟨hcopy, hfeed⟩ := h.buffered.fill (x := x) (y := []) (by decide) (by omega)
      rw [List.append_nil] at hcopy hfeed
      have hfill : (if 32 - ctx.bCnt ≠ 0 then copyTo ctx.b ctx.bCnt x (32 - ctx.bCnt)
          else ctx.b) = copyTo ctx.b ctx.bCnt x (32 - ctx.bCnt) := by
        split
        next => rfl
        next hfull => rw [not_not.mp hfull, copyTo_zero]
      have hblock : (copyTo ctx.b ctx.bCnt x (32 - ctx.bCnt)).length = 32 := by
        rw [hcopy, List.length_append, h.buffered.length_take, List.length_take]
        omega
      have hdrop : (x.drop (32 - ctx.bCnt)).length = x.length - (32 - ctx.bCnt) := List.length_drop
      dsimp only
      rw [hfill, ← hdrop]
      refine skeinDirect_took h.hashBitLen hblock rfl ?_
      rw [hfeed, skein256ProcessBlock_eq, feedN, feedN, List.take_of_length_le hblock.le]
    next hcnt =>
      have hcnt := not_not.mp hcnt
      have hfeed := h.buffered.feed_append (x := x) (by decide)
      rw [hcnt, List.take_zero, List.nil_append] at hfeed
      exact skeinDirect_took h.hashBitLen hb hcnt hfeed
  next hlt =>
    have hkeep := h.buffered.keep (x := x) (y := []) (by decide) (by omega) (by omega)
    rw [List.append_nil] at hkeep
    rw [skeinRest_eq]
    exact ⟨h.hashBitLen, hkeep⟩

theorem skein256Final_eq (h : ctx.Took bits m) : skein256Final ctx = skeinDigest bits m := by
  have hlen := h.buffered.length_take
  have hb := h.buffered.length
  have hpad : (if ctx.bCnt < 32 then ctx.b.take ctx.bCnt ++ List.replicate (32 - ctx.bCnt) 0
      else ctx.b) = ctx.b.take ctx.bCnt ++ List.replicate (32 - ctx.bCnt) 0 := by
    split
    next => rfl
    next hfull =>
      rw [Nat.sub_eq_zero_of_le (by omega), List.take_of_length_le (by omega), List.replicate_zero,
        List.append_nil]
  have hblock : (ctx.b.take ctx.bCnt ++ List.replicate (32 - ctx.bCnt) 0).length = 32 := by
    have hle := h.buffered.le
    rw [List.length_append, hlen, List.length_replicate]
    omega
  have hstart := h.buffered.feed
  rw [skein256Init_chain, skeinConfig_eq] at hstart
  have hmessage := feed_ubi hstart
  rw [hlen] at hmessage
  have hbytes : ∀ G i, (ubi 63 G (leBytes (UInt64.ofNat i))).bytes.length = 32 := by
    intro G i
    simp [SkeinWords.bytes, length_leBytes]
  rw [skein256Final, skeinDigest, hpad]
  dsimp only
  rw [h.hashBitLen, skein256ProcessBlock, List.take_of_length_le hblock.le, skein256ProcessBlock,
    hmessage, ← flatMap_take (hbytes _)]
  simp only [skeinOutput_eq]

end Update

/-- The hash value of a message that comes in any pieces is that of the standard. -/
theorem skein_stream {junk : List UInt8} (hjunk : junk.length = 32) (hashBitLen : Nat)
    (pieces : List (List UInt8)) :
    skein256Final (pieces.foldl (fun ctx x => skein256Update ctx x x.length)
      (skein256Init junk hashBitLen)) = skeinDigest hashBitLen pieces.flatten := by
  suffices hall : ∀ ctx m, Skein256Ctxt.Took ctx hashBitLen m →
      (pieces.foldl (fun ctx x => skein256Update ctx x x.length) ctx).Took hashBitLen
        (m ++ pieces.flatten) from
    skein256Final_eq (hall _ [] (skein256Init_took hjunk hashBitLen))
  induction pieces with
  | nil =>
    intro ctx m hctx
    rwa [List.flatten_nil, List.append_nil]
  | cons x pieces ih =>
    intro ctx m hctx
    rw [List.flatten_cons, ← List.append_assoc]
    exact ih _ _ hctx.update

/-- The first piece fills a block and begins the next one, and the third one fills that. -/
theorem skein_stream_three :
    skein256Final ([List.replicate 40 1, [2, 3], List.replicate 30 4].foldl
      (fun ctx x => skein256Update ctx x x.length) (skein256Init (List.replicate 32 7) 256)) =
        skeinDigest 256 (List.replicate 40 1 ++ ([2, 3] ++ List.replicate 30 4)) :=
  skein_stream rfl 256 [List.replicate 40 1, [2, 3], List.replicate 30 4]

/-- The hash of a key: of its length only the low 29 bits count. -/
theorem lhiHashSkein256_eq {junk : List UInt8} (hjunk : junk.length = 32) (mem : Nat → UInt8)
    (data : Nat) (len : UInt32) : lhiHashSkein256 junk mem data len =
      leWord ((skeinDigest 256 (bytesAt mem data (len.toNat % 2 ^ 29))).take 4) := by
  have hupdate := (skein256Init_took hjunk 256).update
    (x := bytesAt mem data (len.toNat % 2 ^ 29))
  rw [length_bytesAt, List.nil_append] at hupdate
  rw [lhiHashSkein256, skeinHash, skeinUpdate, toNat_mul_eight, Nat.mul_mod_right, if_pos rfl,
    Nat.mul_div_cancel_left _ (by decide), skein256Final_eq hupdate]

end Hashish
