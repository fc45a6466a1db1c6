import Hashish.Types

/-!
# Bloom filters (`hi_bloom_filter.c`)

A filter has `m` bits in `m / 8` bytes. A key sets the bits that the first `k`
functions of `lhi_hashmap` give for it, and passes the check when all of them are
set.

The table of hash functions is an argument. The source fills it with seven functions,
of which the filter uses nothing but the values.
-/

namespace Hashish

open Hashish.Lib

/-- A function of `lhi_hashmap`. -/
abbrev BloomHash := Bytes → UInt32 → UInt32

/-- `hi_bloom_handle_t`. `self` is the block of the handle itself. -/
structure HiBloomHandle where
  self : Ptr
  filterMap : Block UInt8
  m : UInt32
  bitCollision : UInt32
  n : UInt32
  k : UInt32
deriving DecidableEq, Repr

variable (lhiHashmap : List BloomHash)

/-- The byte and the mask of the bit that function `iter` gives for the key. -/
def HiBloomHandle.bitOf (bh : HiBloomHandle) (key : Bytes) (len : UInt32) (iter : Nat) :
    Prog (Nat × UInt32) :=
  match lhiHashmap[iter]? with
  | none => Prog.fault .badAddress
  | some hash => do
    let bit ← umod (hash key len) bh.m
    pure ((bit / 8).toNat, 1 <<< (bit &&& 7))

/-- The body of the loop of `hi_bloom_filter_add`. -/
def bloomAddStep (key : Bytes) (len : UInt32) (iter : Nat) (bh : HiBloomHandle) :
    Prog HiBloomHandle := do
  let (mapOffset, bitMask) ← bh.bitOf lhiHashmap key len iter
  let byte ← bh.filterMap.load mapOffset
  let bitCollision :=
    if byte.toUInt32 &&& bitMask ≠ 0 then bh.bitCollision + 1 else bh.bitCollision
  let filterMap ← bh.filterMap.store mapOffset (byte.toUInt32 ||| bitMask).toUInt8
  pure { bh with bitCollision := bitCollision, filterMap := filterMap }

/-- `hi_bloom_filter_add`. -/
def hiBloomFilterAdd (bh : HiBloomHandle) (key : Bytes) (len : UInt32) : Prog HiBloomHandle :=
  Prog.forUp (bloomAddStep lhiHashmap key len) bh.k.toNat 0 { bh with n := bh.n + 1 }

/-- The loop of `hi_bloom_filter_check`, with `n` functions to go. -/
def bloomCheckLoop (bh : HiBloomHandle) (key : Bytes) (len : UInt32) : Nat → Nat → Prog Int
  | 0, _ => pure 1
  | n + 1, iter => do
    let (mapOffset, bitMask) ← bh.bitOf lhiHashmap key len iter
    let byte ← bh.filterMap.load mapOffset
    if byte.toUInt32 &&& bitMask = 0 then pure 0
    else bloomCheckLoop bh key len n (iter + 1)

/-- `hi_bloom_filter_check`. -/
def hiBloomFilterCheck (bh : HiBloomHandle) (key : Bytes) (len : UInt32) : Prog Int :=
  bloomCheckLoop lhiHashmap bh key len bh.k.toNat 0

/-- `hi_bloom_bit_get`. A `double` holds every `uint32_t` and its eighth exactly. -/
def hiBloomBitGet (bh : Option HiBloomHandle) (bit : UInt32) : Prog Int :=
  match bh with
  | none => pure hiErrNodata
  | some bh =>
    if bit > bh.m then pure hiErrRange
    else do
      let byteOffset := bit / 8
      let bitOffset := bit % 8
      let byte ← bh.filterMap.load byteOffset.toNat
      pure (if byte.toUInt32 &&& 1 <<< bitOffset ≠ 0 then 1 else 0)

/-- `hi_bloom_init_mk`. The memory of a handle whose map cannot be allocated is not released. -/
def hiBloomInitMk (m k : UInt32) : Prog (Except Int HiBloomHandle) := do
  if m % 8 ≠ 0 ∧ m > 0 then pure (.error hiErrRange)
  else if lhiHashmap.length < k.toNat then pure (.error hiErrRange)
  else
    match ← xallocAlign with
    | .error _ => pure (.error hiErrSystem)
    | .ok nbh =>
      match ← xallocAlign with
      | .error _ => pure (.error hiErrSystem)
      | .ok filterMap =>
        let bytes := List.replicate (m / 8).toNat 0
        pure (.ok ⟨nbh.addr, ⟨some filterMap.addr, bytes⟩, m, 0, 0, k⟩)

/-! ## Calls -/

/-- The calls on a filter. -/
inductive BloomCall
  | add (key : Key)
  | check (key : Key)

/-- A call returns the verdict of a check. -/
def BloomCall.call (c : BloomCall) (bh : HiBloomHandle) : Prog (Option Int × HiBloomHandle) :=
  match c with
  | add key => do
    let bh ← hiBloomFilterAdd lhiHashmap bh key.bytes key.keylen
    pure (none, bh)
  | check key => do
    let ret ← hiBloomFilterCheck lhiHashmap bh key.bytes key.keylen
    pure (some ret, bh)

/-- The keys that calls add. -/
def addedKeys : List BloomCall → List Key
  | [] => []
  | .add key :: ops => key :: addedKeys ops
  | .check _ :: ops => addedKeys ops

end Hashish
