import Hashish.ListEngine
import Hashish.ArrayEngine
import Hashish.RbtreeEngine

/-!
# Iterators (`hi_iterator.c`)

An iterator takes a snapshot of one bucket at a time and hands out its entries
from the last to the first. The handle it points to is an argument of its
functions, so that calls on the handle may come between them.
-/

namespace Hashish

open Hashish.Lib

variable {δ : Type}

/-- `struct hi_operator`, without the pointer to the handle. -/
structure HiIterator (δ : Type) where
  self : Ptr
  bucket : Nat
  a : BucketArray δ

/-- What `hi_iterator_getnext` hands out. -/
structure Item (δ : Type) where
  data : δ
  key : Block UInt8
  keylen : UInt32

/-- The type of the three functions that take a snapshot. -/
abbrev ToArray (δ : Type) := HiHandle δ → Nat → BucketArray δ → Prog (Int × BucketArray δ)

/-! ## The next bucket -/

/-- The loop of the `get_next` functions, with `n` buckets to go. -/
def getNextLoop (toArray : ToArray δ) (t : HiHandle δ) :
    Nat → HiIterator δ → Prog (Int × HiIterator δ)
  | 0, i => pure (hiErrNodata, i)
  | n + 1, i => do
    let (res, a) ← toArray t i.bucket i.a
    if res = 0 then pure (0, { i with a := a })
    else if res ≠ hiErrNodata then pure (res, { i with a := a })
    else getNextLoop toArray t n { i with bucket := i.bucket + 1, a := a }

def getNext (toArray : ToArray δ) (t : HiHandle δ) (i : HiIterator δ) :
    Prog (Int × HiIterator δ) :=
  getNextLoop toArray t (t.tableSize.toNat - i.bucket) i

def rbtreeGetNextTree : HiHandle δ → HiIterator δ → Prog (Int × HiIterator δ) :=
  getNext lhiRbtreeBucketToArray

def listGetNextBucket : HiHandle δ → HiIterator δ → Prog (Int × HiIterator δ) :=
  getNext lhiListBucketToArray

def arrayGetNextBucket : HiHandle δ → HiIterator δ → Prog (Int × HiIterator δ) :=
  getNext lhiArrayBucketToArray

/-- The switch over the engines, with the error code of the default case. -/
def getNextBucket (err : Int) (t : HiHandle δ) (i : HiIterator δ) : Prog (Int × HiIterator δ) :=
  match t.collEng with
  | .list | .listHash | .listMtf | .listMtfHash => listGetNextBucket t i
  | .array | .arrayHash | .arrayDyn | .arrayDynHash => arrayGetNextBucket t i
  | .rbtree => rbtreeGetNextTree t i
  | .unset | .max => pure (err, i)

/-! ## The interface -/

/-- `hi_iterator_create`. The `memset` clears the first pointer of the snapshot only. `nmemb` keeps a
word of the fresh block until a snapshot is taken. The other two pointers, here `NULL`, are written
before they are read. -/
def hiIteratorCreate (t : HiHandle δ) : Prog (Except Int (HiIterator δ)) := do
  match ← malloc with
  | none => pure (.error hiErrSystem)
  | some it => do
    let a : BucketArray δ := ⟨.null, .null, .null, (it.junk 0).toNat⟩
    let (res, i) ← getNextBucket hiErrInternal t ⟨it.addr, 0, a⟩
    if res = 0 then pure (.ok i)
    else do
      free (some it.addr)
      pure (.error res)

/-- `hi_iterator_reset`. -/
def hiIteratorReset (t : HiHandle δ) (i : HiIterator δ) : Prog (Int × HiIterator δ) := do
  let a ← lhiBucketArrayFree i.a
  getNextBucket hiErrSystem t { i with bucket := 0, a := a }

/-- Hand out the last entry of the snapshot that was not handed out yet. -/
def HiIterator.handOut (i : HiIterator δ) : Prog (Item δ × HiIterator δ) := do
  let nmemb := sizeT (i.a.nmemb + (2 ^ 64 - 1))
  let data ← i.a.data.loadWritten nmemb
  let key ← i.a.keys.loadWritten nmemb
  let keylen ← i.a.keysLength.loadWritten nmemb
  pure (⟨data, key, keylen⟩, { i with a := { i.a with nmemb := nmemb } })

/-- `hi_iterator_getnext`. -/
def hiIteratorGetnext (t : HiHandle δ) (i : HiIterator δ) :
    Prog (Int × Option (Item δ) × HiIterator δ) := do
  if i.a.nmemb ≠ 0 then do
    let (item, i) ← i.handOut
    pure (0, some item, i)
  else do
    let a ← lhiBucketArrayFree i.a
    let (ret, i) ← getNextBucket hiErrInternal t { i with bucket := sizeT (i.bucket + 1), a := a }
    if ret = 0 then do
      let (item, i) ← i.handOut
      pure (0, some item, i)
    else pure (ret, none, i)

/-- `hi_iterator_fini`. -/
def hiIteratorFini (i : HiIterator δ) : Prog Unit := do
  let _ ← lhiBucketArrayFree i.a
  free (some i.self)

end Hashish
