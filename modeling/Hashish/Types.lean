import Hashish.Lib.ColorTree
import Hashish.Memory
import Mathlib.Data.Rat.Defs
import Mathlib.Algebra.Order.Ring.Unbundled.Rat

/-!
# Error codes, settings and handles

The types of `libhashish.h` and `privlibhashish.h`. A key is a byte string with
its length; the keys of callers are `Key`s, whose length fits in `uint32_t`.
The stored data is a pointer the library never follows: an arbitrary type `δ`.

The objects a handle owns lie in stores of the handle, one for each kind of
object, under their addresses. No object belongs to two handles.
-/

namespace Hashish

open Hashish.Lib

/-! ## Error codes -/

def hiErrSystem : Int := -1
def hiErrNodata : Int := -2
def hiErrInternal : Int := -3
def hiErrNokey : Int := -4
def hiErrDupkey : Int := -5
def hiErrRange : Int := -7
def hiErrNofunc : Int := -8
def success : Int := 0
def failure : Int := -1

/-- `enum coll_eng`. `unset` is the value 0 that `hi_set_zero` leaves, `max` is `__COLL_ENG_MAX`. -/
inductive CollEng
  | unset
  | list
  | listHash
  | listMtf
  | listMtfHash
  | array
  | arrayHash
  | arrayDyn
  | arrayDynHash
  | rbtree
  | max
deriving DecidableEq, Repr

/-! ## Keys and callbacks -/

/-- A key of a caller: `keylen` bytes at the key pointer. -/
structure Key where
  bytes : Bytes
  fits : bytes.length < 2 ^ 32
deriving DecidableEq

def Key.keylen (k : Key) : UInt32 := UInt32.ofNat k.bytes.length

@[simp] theorem Key.toNat_keylen (k : Key) : k.keylen.toNat = k.bytes.length := by
  simpa [Key.keylen] using k.fits

/-- `memcpy` of `keylen` bytes copies the whole key. -/
@[simp] theorem Key.take_keylen (k : Key) : k.bytes.take k.keylen.toNat = k.bytes := by simp

/-- A hash function. Two function pointers are equal when their addresses are. -/
structure HashFunc where
  addr : Nat
  run : Bytes → UInt32 → UInt32

/-- The hash value of a key. -/
def HashFunc.hash (f : HashFunc) (k : Key) : UInt32 := f.run k.bytes k.keylen

/-- `lhi_hash_dumb1`. -/
def lhiHashDumb1 (_key : Bytes) (_len : UInt32) : UInt32 := 1

/-- A key compare function: the sign of an `int`. -/
abbrev KeyCmp := Bytes → Bytes → Int

/-- A value of the C type `float`. -/
inductive CFloat
  | nan
  | negInf
  | posInf
  | fin (q : ℚ)
deriving DecidableEq

/-- `q > t` for a finite `q`. -/
def CFloat.below (t : CFloat) (q : ℚ) : Bool :=
  match t with
  | .nan => false
  | .negInf => true
  | .posInf => false
  | .fin t => t < q

/-- The conversion of a `uint32_t` to `float`: 24 significant bits, ties to even. -/
def floatOfUInt32 (n : UInt32) : ℚ :=
  let ulp := 2 ^ (n.toNat.log2 - 23)
  let down := n.toNat / ulp
  let rest := n.toNat % ulp
  if 2 * rest < ulp ∨ (2 * rest = ulp ∧ down % 2 = 0) then (down * ulp : Nat)
  else ((down + 1) * ulp : Nat)

/-! ## Settings -/

/-- `struct hi_init_set`: function pointers may be `NULL`. -/
structure HiInitSet where
  tableSize : UInt32
  rehashAuto : Int
  rehashThreshold : CFloat
  collEngArraySize : UInt32
  collEng : CollEng
  hashFunc : Option HashFunc
  hash2Func : Option HashFunc
  keyCmp : Option KeyCmp

/-- `hi_set_zero`. -/
def hiSetZero : HiInitSet := ⟨0, 0, .fin (3 / 4), 0, .unset, none, none, none⟩

/-- The part of a handle that comes from the user. `lhi_set_sanity_check` has seen that the
hash function and the compare function are there. -/
structure UserSettings where
  tableSize : UInt32
  collEng : CollEng
  rehashAuto : Int
  rehashThreshold : CFloat
  collEngArraySize : UInt32
  hashFunc : HashFunc
  hash2Func : Option HashFunc
  keyCmp : KeyCmp

/-! ## Stored objects -/

/-- A duplicated key with its length, and the data stored with it. -/
structure Entry (δ : Type) where
  keyLen : UInt32
  key : Block UInt8
  data : δ

/-- `hi_bucket_hl_obj_t`. Its first fields are those of `hi_bucket_obj_t`. -/
structure HiBucketHlObj (δ : Type) extends Entry δ where
  next : Option Ptr
  keyHash : UInt32

/-- `BA_NOT_ALLOCATED` and `BA_ALLOCATED`. -/
inductive Allocation
  | baNotAllocated
  | baAllocated
deriving DecidableEq, Repr

/-- `hi_bucket_a_obj_t`. The entry fields and the allocation flag are indeterminate (`none`) until
they are written. -/
structure HiBucketAObj (δ : Type) where
  entry : Option (Entry δ)
  allocation : Option Allocation

/-- `struct rb_node`, with the two parts of `rb_parent_color` as fields. `RB_RED` and
`RB_BLACK` are the colours of the tree library. -/
structure RbNode where
  rbParent : Option Ptr
  rbColor : Color
  rbRight : Option Ptr
  rbLeft : Option Ptr
deriving DecidableEq, Repr

/-- `struct __hi_rb_tree`. -/
structure HiRbTree where
  rbNode : Option Ptr
  rwlock : Option Ptr
deriving DecidableEq, Repr

/-! ## Handles -/

/-- `hi_handle_t`. The three structures of the union `eng` lie side by side; only the one of the
handle's engine is used. `self` is the block of the handle itself. `objs` holds the list objects,
`nodes` and `entries` the two parts of each `struct lhi_rb_entry`. -/
structure HiHandle (δ : Type) extends UserSettings where
  self : Ptr
  bucketSize : Block UInt32
  noObjects : UInt32
  bucketTable : Block (Option Ptr)
  objs : Heap (HiBucketHlObj δ)
  bucketArray : Block (Block (HiBucketAObj δ))
  bucketArraySlotSize : Block UInt32
  bucketArraySlotMax : Block UInt32
  trees : Block HiRbTree
  nodes : Heap RbNode
  entries : Heap (Entry δ)
  mutexLock : Option Ptr

/-- What a public call returns: the status, and the data written through the data pointer. -/
structure Result (δ : Type) where
  status : Int
  data : Option δ
deriving DecidableEq, Repr

variable {δ : Type}

/-- The bucket of a key: `hash_func(key, keylen) % table_size`. -/
def HiHandle.bucketOf (h : HiHandle δ) (key : Bytes) (keylen : UInt32) : Prog Nat := do
  let bucket ← umod (h.hashFunc.run key keylen) h.tableSize
  pure bucket.toNat

/-- Call the second hash function. -/
def HiHandle.hash2 (h : HiHandle δ) (key : Bytes) (keylen : UInt32) : Prog UInt32 :=
  match h.hash2Func with
  | none => Prog.fault .nullDeref
  | some f => pure (f.run key keylen)

end Hashish
