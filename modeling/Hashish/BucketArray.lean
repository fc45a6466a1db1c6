import Hashish.Types

/-!
# Snapshots of a bucket (`hi_iterator.c`)

`struct lhi_bucket_array` holds the data pointers, the key pointers and the key
lengths of one bucket in three arrays. The cells of a fresh array are
indeterminate (`none`) until the copy of a bucket writes them, and reading an
indeterminate cell is a fault.
-/

namespace Hashish

open Hashish.Lib

variable {δ : Type}

/-- `struct lhi_bucket_array`. A key pointer stands for the block it designates. -/
structure BucketArray (δ : Type) where
  data : Block (Option δ)
  keys : Block (Option (Block UInt8))
  keysLength : Block (Option UInt32)
  nmemb : Nat

/-- `lhi_bucket_array_alloc`. The old arrays are not released. -/
def lhiBucketArrayAlloc (a : BucketArray δ) (nmemb : Nat) : Prog (Int × BucketArray δ) := do
  let alloc := sizeT (nmemb * 8)
  if (← sizeDiv alloc nmemb) ≠ 8 then
    pure (hiErrRange, a)
  else
    match ← malloc with
    | none => pure (hiErrSystem, a)
    | some memD =>
      match ← malloc with
      | none => do
        free (some memD.addr)
        pure (hiErrSystem, a)
      | some memK => do
        let alloc := sizeT (nmemb * 4)
        if (← sizeDiv alloc nmemb) ≠ 4 then do
          free (some memD.addr)
          free (some memK.addr)
          pure (hiErrRange, a)
        else
          match ← malloc with
          | none => do
            free (some memD.addr)
            free (some memK.addr)
            pure (hiErrSystem, a)
          | some keylen =>
            pure (0, ⟨memD.unwritten nmemb, memK.unwritten nmemb, keylen.unwritten nmemb, nmemb⟩)

/-- `lhi_bucket_array_free`. -/
def lhiBucketArrayFree (a : BucketArray δ) : Prog (BucketArray δ) := do
  free a.data.addr
  free a.keys.addr
  free a.keysLength.addr
  pure { a with data := .null, keys := .null, keysLength := .null }

/-- Write the three cells `i`. -/
def BucketArray.put (a : BucketArray δ) (i : Nat) (data : δ) (key : Block UInt8)
    (keyLen : UInt32) : Prog (BucketArray δ) := do
  let ds ← a.data.store i (some data)
  let ks ← a.keys.store i (some key)
  let ls ← a.keysLength.store i (some keyLen)
  pure { a with data := ds, keys := ks, keysLength := ls }

end Hashish
